/-!
# Places in a YAML text

A cursor is the rest of a text together with how much of it has been read, in bytes of UTF-8, lines and columns.  A
line break is a line feed, a carriage return, both in this order, or one of the three breaks of Unicode; the last two
of these keep their identity, the others are read as line feeds.
-/

namespace Theming.Yaml

def isBreak (c : Char) : Bool :=
  c == '\n' || c == '\r' || c == '\u0085' || c == '\u2028' || c == '\u2029'

def isBlank (c : Char) : Bool := c == ' ' || c == '\t'

/-- The characters that a text may hold. -/
def isAllowed (c : Char) : Bool :=
  let n := c.toNat
  n == 0x09 || n == 0x0A || n == 0x0D || (0x20 ≤ n && n ≤ 0x7E) || n == 0x85 || (0xA0 ≤ n && n ≤ 0xD7FF) ||
    (0xE000 ≤ n && n ≤ 0xFFFD) || 0x10000 ≤ n

structure Cursor where
  rest : List Char
  /-- The number of characters of the whole text, which bounds the steps of any reading. -/
  limit : Nat := rest.length
  offset : Nat := 0
  line : Nat := 0
  column : Nat := 0

namespace Cursor

def head? (c : Cursor) : Option Char := c.rest.head?

def get? (c : Cursor) (i : Nat) : Option Char := c.rest[i]?

/-- Moves over characters of the same line. -/
def skip (n : Nat) (c : Cursor) : Cursor :=
  let bytes := (String.ofList (c.rest.take n)).utf8ByteSize
  { c with rest := c.rest.drop n, offset := c.offset + bytes, column := c.column + n }

def skipWhile (p : Char → Bool) (c : Cursor) : Cursor := c.skip (c.rest.takeWhile p).length

/-- The text of the line break here, empty if there is none, and what follows it. -/
def lineBreak (c : Cursor) : List Char × Cursor :=
  let next (rest : List Char) (n : Nat) : Cursor :=
    { c with rest, offset := c.offset + n, line := c.line + 1, column := 0 }
  match c.rest with
  | '\r' :: '\n' :: rest => (['\n'], next rest 2)
  | ch :: rest =>
    if ch = '\u2028' ∨ ch = '\u2029' then ([ch], next rest ch.utf8Size)
    else if isBreak ch then (['\n'], next rest ch.utf8Size)
    else ([], c)
  | [] => ([], c)

/-- A blank, a line break or the end stands `i` characters further. -/
def isGap (c : Cursor) (i : Nat) : Bool := (c.get? i).all fun ch => isBlank ch || isBreak ch

/-- The marker of a document's start or end stands here. -/
def isMarker (mark : Char) (c : Cursor) : Bool :=
  c.column == 0 && [mark, mark, mark].isPrefixOf c.rest && c.isGap 3

def isDocumentMark (c : Cursor) : Bool := c.isMarker '-' || c.isMarker '.'

/-- Moves to the end of the line. -/
def skipToBreak (c : Cursor) : Cursor := c.skipWhile fun ch => !isBreak ch

end Cursor

end Theming.Yaml
