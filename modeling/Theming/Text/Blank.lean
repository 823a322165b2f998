/-!
# Blanks and lines

Texts are cut as lists of characters.  A blank is a character with the Unicode property `White_Space`; trimming
removes blanks at the ends of a text only.  A line ends at a line feed, which takes one carriage return before it
along, and a text that ends with a line feed has no empty line after it.
-/

namespace Theming.Text

/-- The characters with the property `White_Space`. -/
def isBlank (c : Char) : Bool :=
  let n := c.toNat
  (0x09 ≤ n && n ≤ 0x0D) || n == 0x20 || n == 0x85 || n == 0xA0 || n == 0x1680 || (0x2000 ≤ n && n ≤ 0x200A) ||
    n == 0x2028 || n == 0x2029 || n == 0x202F || n == 0x205F || n == 0x3000

def trimStart (s : List Char) : List Char := s.dropWhile isBlank

def trimEnd (s : List Char) : List Char := (s.reverse.dropWhile isBlank).reverse

def trim (s : List Char) : List Char := trimEnd (trimStart s)

/-- The first word of a text: what stands before the second run of blanks, if the text starts with one. -/
def firstWord (s : List Char) : List Char := (trimStart s).takeWhile fun c => !isBlank c

def lines : List Char → List (List Char)
  | [] => []
  | '\n' :: rest => [] :: lines rest
  | '\r' :: '\n' :: rest => [] :: lines rest
  | c :: rest =>
    match lines rest with
    | [] => [[c]]
    | line :: more => (c :: line) :: more

/-- Drops one line break at the end: a line feed, then a carriage return. -/
def dropLastBreak (s : List Char) : List Char :=
  let drop (c : Char) (s : List Char) := if s.getLast? = some c then s.dropLast else s
  drop '\r' (drop '\n' s)

/-- The text contains `pattern` as a contiguous part. -/
def contains (pattern : List Char) : List Char → Bool
  | [] => pattern.isEmpty
  | c :: rest => pattern.isPrefixOf (c :: rest) || contains pattern rest

example : lines "a\r\n\nb\r".toList = ["a".toList, [], "b\r".toList] := by decide

end Theming.Text
