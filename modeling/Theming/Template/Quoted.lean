import Theming.Text.Digit
import Theming.Text.Halves

/-!
# Quoted texts in templates

A backslash hides the character after it when the closing quote is looked for.  It escapes a quote, a slash, a control
character by a letter, or a character by its code: two hexadecimal digits after `x`, four after `u`, or up to three
octal digits for a code below 256.  Hexadecimal digits may have a plus sign in the place of the first one.  Before any
other character a backslash stands for itself.
-/

namespace Theming.Template

/-- The text up to the closing quote, escapes and all, and what follows it. -/
def untilQuote? (quote : Char) : List Char → Option (List Char × List Char)
  | [] => none
  | ['\\'] => none
  | '\\' :: c :: rest => (untilQuote? quote rest).map fun (s, after) => ('\\' :: c :: s, after)
  | c :: rest =>
    if c = quote then some ([], rest) else (untilQuote? quote rest).map fun (s, after) => (c :: s, after)

def isOctal (c : Char) : Bool := '0' ≤ c && c ≤ '7'

/-- The code in the first `n` characters. -/
def hexCode? (n : Nat) (s : List Char) : Option Nat :=
  if s.length < n then none
  else
    match s.take n with
    | '+' :: ds => Text.number? 16 ds
    | ds => Text.number? 16 ds

/-- What the text after a backslash escapes, as codes, and how many of its characters belong to the escape. -/
def escape? : List Char → Option (List Nat × Nat)
  | [] => none
  | c :: rest =>
    match c with
    | '"' | '\'' | '\\' | '/' => some ([c.toNat], 1)
    | 'b' => some ([0x08], 1)
    | 'f' => some ([0x0C], 1)
    | 'n' => some ([0x0A], 1)
    | 'r' => some ([0x0D], 1)
    | 't' => some ([0x09], 1)
    | 'u' => (hexCode? 4 rest).map fun n => ([n], 5)
    | 'x' => (hexCode? 2 rest).map fun n => ([n], 3)
    | c =>
      if isOctal c then do
        let ds := c :: (rest.take 2).takeWhile isOctal
        let n ← (Text.number? 8 ds).filter (· < 256)
        return ([n], ds.length)
      else some (['\\'.toNat, c.toNat], 1)

/-- The codes of a text after the first `skip` characters, with escapes replaced. -/
def unescapedCodes? : (skip : Nat) → List Char → Option (List Nat)
  | _, [] => some []
  | skip + 1, _ :: rest => unescapedCodes? skip rest
  | 0, c :: rest =>
    if c = '\\' then do
      let (codes, n) ← escape? rest
      return codes ++ (← unescapedCodes? n rest)
    else (unescapedCodes? 0 rest).map (c.toNat :: ·)

/-- The text that a quoted text stands for. -/
def unescape? (s : List Char) : Option (List Char) := (unescapedCodes? 0 s).bind Text.characters?

example : unescape? "\\x41\\47\\&\\u00e9".toList = some "A'\\&é".toList := by decide

end Theming.Template
