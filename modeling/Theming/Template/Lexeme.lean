import Theming.Decimal.Literal
import Theming.Template.Error
import Theming.Template.Quoted

/-!
# The words of a tag

Inside a tag stand names, quoted texts, numbers and signs, apart from each other or not.  A tag ends at its own
closing mark outside quotes and brackets; a hyphen just before the mark asks for the blanks after the tag to be
dropped.  What is no word is kept as the last word of its tag, so that it does harm only where it is reached.
-/

namespace Theming.Template

inductive Lexeme
  | name (s : List Char)
  /-- A quoted text; `escaped` tells whether there has been a backslash in it. -/
  | text (escaped : Bool) (s : List Char)
  | whole (n : Nat)
  | decimal (x : Float)
  | sign (s : String)
  | bad (e : TemplateError)

namespace Lexeme

def isWord (s : String) : Lexeme → Bool
  | name x => x = s.toList
  | _ => false

/-- How many brackets are open after a word more than before it. -/
def opening : Lexeme → Int
  | sign s => if s ∈ ["(", "[", "\x7b"] then 1 else if s ∈ [")", "]", "\x7d"] then -1 else 0
  | _ => 0

end Lexeme

/-- The blanks that separate the words of a tag. -/
def isGap (c : Char) : Bool := c == ' ' || c == '\t' || c == '\n' || c == '\r' || c == '\x0c'

def isNameStart (c : Char) : Bool := c.isAlpha || c == '_'

def isNameRest (c : Char) : Bool := c.isAlphanum || c == '_'

def isMark (c : Char) : Bool := "+-*/%~.,:|()[]\x7b\x7d<>=".toList.contains c

/-- The signs of two marks. -/
def longSigns : List String := ["//", "**", "==", "!=", ">=", "<="]

/-! ### Numbers

A number is a whole number in base ten, or in another base that it announces, or a decimal with a point or an exponent.
A point before a name is no part of it.  Underscores may stand in it but not end it.  A whole number has at most 128
bits. -/

/-- What part of a number is being read. -/
inductive Part
  | based
  | whole
  | fraction
  | mark
  | exponent
  deriving DecidableEq

/-- The part that the next character belongs to, if it belongs to the number; `after` is the character after it. -/
def Part.next? (base : Nat) (part : Part) (c : Char) (after : Option Char) : Option Part :=
  if c = '.' ∧ part = .whole ∧ !after.any isNameStart then some .fraction
  else if (c = 'e' ∨ c = 'E') ∧ (part = .whole ∨ part = .fraction) then some .mark
  else if (c = '+' ∨ c = '-') ∧ part = .mark then some .exponent
  else if c.isDigit then some (if part = .mark then .exponent else part)
  else if c = '_' ∨ base = 16 ∧ part = .based ∧ (Text.digit? c).isSome then some part
  else none

/-- The characters of a number, the last part of it, and what follows. -/
def spelling (base : Nat) : Part → List Char → List Char × Part × List Char
  | part, [] => ([], part, [])
  | part, c :: rest =>
    match part.next? base c rest.head? with
    | none => ([], part, c :: rest)
    | some next =>
      let (s, last, rest) := spelling base next rest
      (c :: s, last, rest)

/-- The base of a number, its first part, and what follows the announcement of the base. -/
def announced : List Char → Nat × Part × List Char
  | '0' :: c :: rest =>
    if c = 'b' ∨ c = 'B' then (2, .based, rest)
    else if c = 'o' ∨ c = 'O' then (8, .based, rest)
    else if c = 'x' ∨ c = 'X' then (16, .based, rest)
    else (10, .whole, '0' :: c :: rest)
  | s => (10, .whole, s)

def number? (s : List Char) : Option (Lexeme × List Char) := do
  let (base, first, s) := announced s
  let (spelled, last, rest) := spelling base first s
  let digits := spelled.filter (· ≠ '_')
  if spelled.getLast? = some '_' then none
  else if last = .based ∨ last = .whole then
    let n ← (Text.number? base digits).filter (· < Nat.pow 2 128)
    return (.whole n, rest)
  else
    let l ← Decimal.Literal.ofText? digits
    return (.decimal l.nearest, rest)

/-! ### Words -/

/-- The first word of a text that starts with no blank, and what follows it. -/
def lexeme : List Char → Except TemplateError (Lexeme × List Char)
  | [] => throw .malformed
  | c :: rest =>
    if c = '"' ∨ c = '\'' then
      match untilQuote? c rest with
      | none => throw .malformed
      | some (s, rest) =>
        match unescape? s with
        | none => throw .badEscape
        | some text => return (.text (s.contains '\\') text, rest)
    else if c.isDigit then
      match number? (c :: rest) with
      | none => throw .malformed
      | some found => return found
    else if isNameStart c then return (.name (c :: rest.takeWhile isNameRest), rest.dropWhile isNameRest)
    else
      match longSigns.find? fun sign => sign.toList.isPrefixOf (c :: rest) with
      | some sign => return (.sign sign, rest.drop 1)
      | none => if isMark c then return (.sign (String.singleton c), rest) else throw .malformed

/-- Whether blanks after the closing mark `last :: '}'` are dropped, and what follows it. -/
def closing? (last : Char) (s : List Char) : Option (Bool × List Char) :=
  if [last, '}'].isPrefixOf s then some (false, s.drop 2)
  else if ['-', last, '}'].isPrefixOf s then some (true, s.drop 3)
  else if ['+', last, '}'].isPrefixOf s then some (false, s.drop 3)
  else none

/-- The words up to the closing mark, and what follows it if there is one.  The mark is none while brackets are open,
nor when more of them have been closed.  The fuel bounds the number of words. -/
def lexemes (last : Char) : Nat → (opened : Int) → List Char → List Lexeme × Option (Bool × List Char)
  | 0, _, _ => ([.bad .malformed], none)
  | fuel + 1, opened, s =>
    let s := s.dropWhile isGap
    match if opened = 0 then closing? last s else none with
    | some after => ([], some after)
    | none =>
      match lexeme s with
      | .error e => ([.bad e], none)
      | .ok (l, rest) =>
        let (ls, after) := lexemes last fuel (opened + l.opening) rest
        (l :: ls, after)

end Theming.Template
