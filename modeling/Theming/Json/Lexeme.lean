import Theming.Json.Number
import Theming.Text.Digit
import Theming.Text.Halves

/-!
# The words of a JSON text

A JSON text is read one character at a time.  Between words stand spaces, tabs and line breaks; words that are not
quoted are runs of letters, digits, points and signs, and a run is one of the three constants or a number.  In quotes a
backslash starts an escape, and characters below the space may only be written by escapes.

A character beyond the first plane is escaped in two halves, one after the other.  A quoted text in which a half stands
alone is well formed but is no text, as a number beyond the range is well formed but has no value.
-/

namespace Theming.Json

inductive Lexeme
  | openObject
  | closeObject
  | openList
  | closeList
  | colon
  | comma
  | null
  | flag (b : Bool)
  | number (x : Option Float)
  | text (s : Option String)

/-- Where in a text a character stands.  What has been read of a run, or the codes of what has been read of a quoted
text, is kept latest first; `code` is what the hexadecimal digits of an escape amount to so far, and `left` more of
them follow the next one. -/
inductive Mode
  | between
  | run (read : List Char)
  | quoted (codes : List Nat)
  | escape (codes : List Nat)
  | code (codes : List Nat) (code left : Nat)

def isSpace (c : Char) : Bool := c == ' ' || c == '\n' || c == '\t' || c == '\r'

def isRun (c : Char) : Bool := c.isAlphanum || c == '+' || c == '-' || c == '.'

def runLexeme? (s : List Char) : Option Lexeme :=
  if s = "null".toList then some .null
  else if s = "true".toList then some (.flag true)
  else if s = "false".toList then some (.flag false)
  else (number? s).map .number

/-- What a backslash and one character after it stand for. -/
def unescape? : Char → Option Char
  | '"' => some '"'
  | '\\' => some '\\'
  | '/' => some '/'
  | 'b' => some '\x08'
  | 'f' => some '\x0c'
  | 'n' => some '\n'
  | 'r' => some '\r'
  | 't' => some '\t'
  | _ => none

/-- The word of a single character, or the start of a longer one. -/
def start? (c : Char) : Option (List Lexeme × Mode) :=
  match c with
  | '{' => some ([.openObject], .between)
  | '}' => some ([.closeObject], .between)
  | '[' => some ([.openList], .between)
  | ']' => some ([.closeList], .between)
  | ':' => some ([.colon], .between)
  | ',' => some ([.comma], .between)
  | '"' => some ([], .quoted [])
  | c => if isSpace c then some ([], .between) else if isRun c then some ([], .run [c]) else none

/-- Reads one character: the words that it completes, and where the next character stands. -/
def Mode.step? (m : Mode) (c : Char) : Option (List Lexeme × Mode) :=
  match m with
  | .between => start? c
  | .run read =>
    if isRun c then some ([], .run (c :: read))
    else do
      let word ← runLexeme? read.reverse
      let (words, m) ← start? c
      return (word :: words, m)
  | .quoted codes =>
    if c = '"' then some ([.text ((Text.characters? codes.reverse).map String.ofList)], .between)
    else if c = '\\' then some ([], .escape codes)
    else if c.toNat < 0x20 then none
    else some ([], .quoted (c.toNat :: codes))
  | .escape codes =>
    if c = 'u' then some ([], .code codes 0 3) else (unescape? c).map fun c => ([], .quoted (c.toNat :: codes))
  | .code codes n left => do
    let n := 16 * n + (← Text.digit? c)
    match left with
    | 0 => return ([], .quoted (n :: codes))
    | left + 1 => return ([], .code codes n left)

/-- The words of the rest of a text. -/
def lexemes? : Mode → List Char → Option (List Lexeme)
  | .between, [] => some []
  | .run read, [] => (runLexeme? read.reverse).map fun word => [word]
  | _, [] => none
  | m, c :: rest => do
    let (words, m) ← m.step? c
    return words ++ (← lexemes? m rest)

end Theming.Json
