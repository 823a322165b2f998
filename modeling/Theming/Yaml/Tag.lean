import Theming.Text.Digit
import Theming.Yaml.Cursor

/-!
# Tags and directives of a YAML text

A tag says what kind of thing a node is.  It is written out in angle brackets, or shortened to a handle, which stands
for the start of the tag, and a suffix.  Directives are lines before a document: the version of YAML that it is written
in, and what its handles stand for.

Each reader starts at the mark and gives what it has read and the place after it; the fuel of a loop bounds the number
of characters that it reads.
-/

namespace Theming.Yaml

/-- The characters of anchors, handles and names of directives. -/
def isWordChar (c : Char) : Bool := c.isAlphanum || c == '_' || c == '-'

/-- The characters of a tag; the last three only where the tag or what a handle stands for is written out. -/
def isTagChar (whole : Bool) (c : Char) : Bool :=
  isWordChar c || ";/?:@&=+$.!~*'()".toList.contains c || (whole && ",[]".toList.contains c)

/-- The octet of an escape, two hexadecimal digits after a percent sign. -/
def octet? : List Char → Option Nat
  | '%' :: a :: b :: _ => Text.number? 16 [a, b]
  | _ => none

/-- A character by escapes of the octets of its UTF-8 form. -/
def octets? (c : Cursor) : Option (Char × Cursor) := do
  let first ← octet? c.rest
  let (width, start) ←
    if first < 0x80 then some (1, first)
    else if first / 0x20 = 0x06 then some (2, first % 0x20)
    else if first / 0x10 = 0x0E then some (3, first % 0x10)
    else if first / 0x08 = 0x1E then some (4, first % 0x08)
    else none
  let more ← (List.range (width - 1)).mapM fun i => (octet? (c.rest.drop (3 * i + 3))).filter (· / 0x40 = 0x02)
  return (Char.ofNat (more.foldl (fun n octet => 0x40 * n + octet % 0x40) start), c.skip (3 * width))

/-- The rest of a tag after what has been read of it, which is kept latest first. -/
def tagRest? (whole : Bool) : Nat → (read : List Char) → Cursor → Option (List Char × Cursor)
  | 0, read, c => some (read.reverse, c)
  | fuel + 1, read, c =>
    match c.head? with
    | some '%' => do
      let (ch, c) ← octets? c
      tagRest? whole fuel (ch :: read) c
    | some ch => if isTagChar whole ch then tagRest? whole fuel (ch :: read) (c.skip 1) else some (read.reverse, c)
    | none => some (read.reverse, c)

/-- A part of a tag that is not empty. -/
def tagPart? (whole : Bool) (c : Cursor) : Option (List Char × Cursor) :=
  (tagRest? whole c.limit [] c).filter fun (s, _) => s ≠ []

/-- An exclamation mark, or two with a word or nothing between them; a word without the second one is included too. -/
def handle (c : Cursor) : List Char × Cursor :=
  let word := (c.rest.drop 1).takeWhile isWordChar
  let after := c.skip (word.length + 1)
  if after.head? = some '!' then ('!' :: word ++ ['!'], after.skip 1) else ('!' :: word, after)

/-- The handle and the suffix of a tag; a tag that is written out has no handle. -/
def tag? (inFlow : Bool) (c : Cursor) : Option ((List Char × List Char) × Cursor) := do
  let (tag, c) ←
    if c.get? 1 = some '<' then do
      let (suffix, c) ← tagPart? true (c.skip 2)
      if c.head? = some '>' then pure (([], suffix), c.skip 1) else none
    else
      let (found, after) := handle c
      if 1 < found.length ∧ found.getLast? = some '!' then do
        let (suffix, c) ← tagPart? false after
        pure ((found, suffix), c)
      else do
        let (suffix, c) ← tagRest? false after.limit (found.drop 1).reverse after
        pure (if suffix = [] then ([], ['!']) else (['!'], suffix), c)
  if c.isGap 0 ∨ inFlow ∧ c.head? = some ',' then return (tag, c) else none

/-! ### Directives -/

inductive Directive
  | version (major minor : Nat)
  | handle (name start : List Char)
  deriving DecidableEq

/-- A part of a version number; it has at most nine digits. -/
def versionPart? (c : Cursor) : Option (Nat × Cursor) :=
  let ds := c.rest.takeWhile Char.isDigit
  if ds = [] ∨ 9 < ds.length then none else some (Text.decimalValue ds, c.skip ds.length)

/-- Moves over the blanks that have to stand here. -/
def skipBlanks? (c : Cursor) : Option Cursor := if c.head?.any isBlank then some (c.skipWhile isBlank) else none

/-- A directive, to the end of its line. -/
def directive? (c : Cursor) : Option (Directive × Cursor) := do
  let c := c.skip 1
  let name := c.rest.takeWhile isWordChar
  let c := c.skip name.length
  if name = [] ∨ ¬ c.isGap 0 then none
  let c := c.skipWhile isBlank
  let (d, c) ←
    if name = "YAML".toList then do
      let (major, c) ← versionPart? c
      if c.head? ≠ some '.' then none
      let (minor, c) ← versionPart? (c.skip 1)
      pure (.version major minor, c)
    else if name = "TAG".toList then do
      if c.head? ≠ some '!' then none
      let (found, c) := handle c
      if 1 < found.length ∧ found.getLast? ≠ some '!' then none
      let (start, c) ← tagPart? true (← skipBlanks? c)
      if c.isGap 0 then pure (Directive.handle found start, c) else none
    else none
  let c := c.skipWhile isBlank
  let c := if c.head? = some '#' then c.skipToBreak else c
  if c.head?.all isBreak then return (d, c.lineBreak.2) else none

end Theming.Yaml
