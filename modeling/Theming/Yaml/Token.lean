import Theming.Yaml.Scalar
import Theming.Yaml.Tag

/-!
# The tokens of a YAML text

Indentation and simple keys make tokens of their own: a mapping is known only at the colon after its first key, so
the tokens that open it are put in before that key.  A simple key stays on one line and has at most 1024 bytes.
-/

namespace Theming.Yaml

/-- How a scalar is written. -/
inductive Style
  | plain
  | literal
  | other
  deriving DecidableEq

inductive Token
  | directive (d : Directive)
  | documentStart
  | documentEnd
  | blockSequence
  | blockMapping
  | blockEnd
  | flowSequence
  | flowSequenceEnd
  | flowMapping
  | flowMappingEnd
  | blockEntry
  | flowEntry
  | key
  | value
  | alias (name : List Char)
  | anchor (name : List Char)
  | tag (handle suffix : List Char)
  | scalar (style : Style) (text : List Char)
  deriving DecidableEq

/-- A place where a simple key may have started: before which token, and whether nothing else can stand there. -/
structure KeyStart where
  required : Bool
  token : Nat
  place : Cursor

/-- The state of the reading.  `indents` are the columns of the open block collections, the innermost first, and
`keys` has the possible key of each flow level, the innermost first. -/
structure Scanner where
  cursor : Cursor
  tokens : Array Token := #[]
  flow : Nat := 0
  indents : List Nat := []
  keyAllowed : Bool := true
  keys : List (Option KeyStart) := [none]

namespace Scanner

def emit (t : Token) (s : Scanner) : Scanner := { s with tokens := s.tokens.push t }

def skip (n : Nat) (s : Scanner) : Scanner := { s with cursor := s.cursor.skip n }

def allowKey (b : Bool) (s : Scanner) : Scanner := { s with keyAllowed := b }

/-! ### Simple keys -/

/-- A key that starts here may be simple. -/
def saveKey? (s : Scanner) : Option Scanner :=
  if s.keyAllowed then
    match s.keys with
    | some old :: more =>
      if old.required then none
      else some { s with keys := some (start s) :: more }
    | none :: more => some { s with keys := some (start s) :: more }
    | [] => some s
  else some s
where
  start (s : Scanner) : KeyStart :=
    ⟨s.flow = 0 ∧ s.indents.head? = some s.cursor.column, s.tokens.size, s.cursor⟩

/-- What comes next cannot end a simple key. -/
def dropKey? (s : Scanner) : Option Scanner :=
  match s.keys with
  | some old :: more => if old.required then none else some { s with keys := none :: more }
  | _ => some s

/-- Gives up keys that have become too long. -/
def dropStaleKeys? (s : Scanner) : Option Scanner := do
  let keys ← s.keys.mapM fun key =>
    match key with
    | some k =>
      if k.place.line < s.cursor.line ∨ k.place.offset + 1024 < s.cursor.offset then
        if k.required then none else some none
      else some (some k)
    | none => some none
  return { s with keys }

/-! ### Indentation -/

/-- Opens a block collection at a column, with its token at a place among the tokens. -/
def indent (column place : Nat) (t : Token) (s : Scanner) : Scanner :=
  if s.flow = 0 ∧ s.indents.head?.all (· < column) then
    { s with indents := column :: s.indents, tokens := s.tokens.insertIdxIfInBounds place t }
  else s

/-- Closes the block collections that are indented further than a column; all of them for `none`. -/
def unindent (column : Option Nat) (s : Scanner) : Scanner :=
  if s.flow = 0 then
    let kept := s.indents.dropWhile fun i => column.all (· < i)
    { s with
      indents := kept
      tokens := s.tokens ++ Array.replicate (s.indents.length - kept.length) Token.blockEnd }
  else s

/-! ### The tokens -/

/-- Moves to the next token, over blanks, comments and line breaks; a line break outside flow collections allows a
simple key.  A byte order mark may start a line and takes a column of it. -/
def skipGap : Nat → Scanner → Scanner
  | 0, s => s
  | fuel + 1, s =>
    let c := if s.cursor.column = 0 ∧ s.cursor.head? = some '\ufeff' then s.cursor.skip 1 else s.cursor
    let c := c.skipWhile fun ch => ch == ' ' || (ch == '\t' && (s.flow != 0 || !s.keyAllowed))
    let c := if c.head? = some '#' then c.skipToBreak else c
    if c.head?.any isBreak then
      skipGap fuel { s with cursor := c.lineBreak.2, keyAllowed := s.keyAllowed || s.flow == 0 }
    else { s with cursor := c }

/-- The name after the mark of an anchor or alias. -/
def name? (s : Scanner) : Option (List Char × Scanner) :=
  let c := s.cursor.skip 1
  let name := c.rest.takeWhile isWordChar
  let c := c.skip name.length
  if name ≠ [] ∧ (c.isGap 0 ∨ c.head?.any ("?:,]\x7d%@`".toList.contains ·)) then some (name, { s with cursor := c })
  else none

/-- A token that opens a flow collection. -/
def openFlow? (t : Token) (s : Scanner) : Option Scanner := do
  let s ← s.saveKey?
  return ({ s with flow := s.flow + 1, keys := none :: s.keys }.allowKey true |>.emit t).skip 1

def closeFlow? (t : Token) (s : Scanner) : Option Scanner := do
  let s ← s.dropKey?
  let s := if s.flow = 0 then s else { s with flow := s.flow - 1, keys := s.keys.drop 1 }
  return (s.allowKey false |>.emit t).skip 1

def blockEntry? (s : Scanner) : Option Scanner := do
  if s.flow = 0 ∧ ¬ s.keyAllowed then none
  let s := s.indent s.cursor.column s.tokens.size .blockSequence
  return ((← s.dropKey?).allowKey true |>.emit .blockEntry).skip 1

def key? (s : Scanner) : Option Scanner := do
  if s.flow = 0 ∧ ¬ s.keyAllowed then none
  let s := s.indent s.cursor.column s.tokens.size .blockMapping
  return ((← s.dropKey?).allowKey (s.flow == 0) |>.emit .key).skip 1

/-- A colon after a simple key opens the mapping of the key if need be. -/
def value? (s : Scanner) : Option Scanner := do
  let s ← match s.keys with
    | some k :: more =>
      let s := { s with tokens := s.tokens.insertIdxIfInBounds k.token .key, keys := none :: more }
      pure ((s.indent k.place.column k.token .blockMapping).allowKey false)
    | _ =>
      if s.flow = 0 ∧ ¬ s.keyAllowed then none
      else pure ((s.indent s.cursor.column s.tokens.size .blockMapping).allowKey (s.flow == 0))
  return (s.emit .value).skip 1

def blockScalar? (folded : Bool) (s : Scanner) : Option Scanner := do
  let s ← s.dropKey?
  let (text, c) ← block? folded s.indents.head? s.cursor
  return { s with cursor := c, keyAllowed := true }.emit (.scalar (if folded then .other else .literal) text)

def quotedScalar? (quote : Char) (s : Scanner) : Option Scanner := do
  let s ← s.saveKey?
  let (text, c) ← quoted? quote s.cursor
  return { s with cursor := c, keyAllowed := false }.emit (.scalar .other text)

def plainScalar? (s : Scanner) : Option Scanner := do
  let s ← s.saveKey?
  let (text, broken, c) ← plain? (s.flow != 0) (s.indents.head?.elim 0 (· + 1)) s.cursor
  return { s with cursor := c, keyAllowed := broken }.emit (.scalar .plain text)

def tagged? (s : Scanner) : Option Scanner := do
  let s ← s.saveKey?
  let ((handle, suffix), c) ← tag? (s.flow != 0) s.cursor
  return { s with cursor := c, keyAllowed := false }.emit (.tag handle suffix)

def directed? (s : Scanner) : Option Scanner := do
  let s ← (s.unindent none).dropKey?
  let (d, c) ← directive? s.cursor
  return { s with cursor := c, keyAllowed := false }.emit (.directive d)

def marker? (t : Token) (s : Scanner) : Option Scanner := do
  return ((← (s.unindent none).dropKey?).allowKey false |>.emit t).skip 3

/-- A plain scalar may start here. -/
def startsPlain (s : Scanner) : Bool :=
  match s.cursor.head? with
  | none => false
  | some c =>
    !(isBlank c || isBreak c || "-?:,[]\x7b\x7d#&*!|>'\"%@`".toList.contains c) ||
      (c == '-' && !(s.cursor.get? 1).any isBlank) ||
      (s.flow == 0 && (c == '?' || c == ':') && !s.cursor.isGap 1)

/-- Reads a token that starts with a character; the end of the text has been dealt with. -/
def token? (s : Scanner) (c : Char) : Option Scanner :=
  let gap := s.cursor.isGap 1
  if s.cursor.column = 0 ∧ c = '%' then s.directed?
  else if s.cursor.isMarker '-' then s.marker? .documentStart
  else if s.cursor.isMarker '.' then s.marker? .documentEnd
  else if c = '[' then s.openFlow? .flowSequence
  else if c = '{' then s.openFlow? .flowMapping
  else if c = ']' then s.closeFlow? .flowSequenceEnd
  else if c = '}' then s.closeFlow? .flowMappingEnd
  else if c = ',' then do return ((← s.dropKey?).allowKey true |>.emit .flowEntry).skip 1
  else if c = '-' ∧ gap then s.blockEntry?
  else if c = '?' ∧ (s.flow ≠ 0 ∨ gap) then s.key?
  else if c = ':' ∧ (s.flow ≠ 0 ∨ gap) then s.value?
  else if c = '*' then do
    let (name, s) ← (← s.saveKey?).name?
    return s.allowKey false |>.emit (.alias name)
  else if c = '&' then do
    let (name, s) ← (← s.saveKey?).name?
    return s.allowKey false |>.emit (.anchor name)
  else if c = '!' then s.tagged?
  else if c = '|' ∧ s.flow = 0 then s.blockScalar? false
  else if c = '>' ∧ s.flow = 0 then s.blockScalar? true
  else if c = '\'' ∨ c = '"' then s.quotedScalar? c
  else if s.startsPlain then s.plainScalar?
  else none

/-- Reads the tokens of the rest of the text; each takes at least one character. -/
def run? : Nat → Scanner → Option Scanner
  | 0, _ => none
  | fuel + 1, s => do
    let s := skipGap (s.cursor.limit + 1) s
    let s ← s.dropStaleKeys?
    match s.cursor.head? with
    | none => (s.unindent none).dropKey?
    | some c => run? fuel (← (s.unindent (some s.cursor.column)).token? c)

end Scanner

/-- The tokens of a text. -/
def tokens? (source : List Char) : Option (List Token) :=
  if source.all isAllowed then
    (Scanner.run? (source.length + 1) { cursor := { rest := source } }).map fun s => s.tokens.toList
  else none

end Theming.Yaml
