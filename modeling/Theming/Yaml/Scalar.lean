import Theming.Text.Digit
import Theming.Yaml.Cursor

/-!
# The texts of YAML scalars

Line breaks inside a plain or quoted scalar are folded: a single one becomes a space, and of several all but the first
are kept.  A block scalar is folded only between lines that are not indented further, or not at all.

Each reader starts at the scalar's first character and gives its text and the place after it; the fuel of a loop
bounds the number of characters that it reads.
-/

namespace Theming.Yaml

/-- What stands between two words: blanks of one line, or line breaks. -/
structure Gap where
  blanks : List Char := []
  broken : Bool := false
  first : List Char := []
  more : List Char := []

/-- The text that a gap stands for. -/
def Gap.text (g : Gap) : List Char :=
  if g.broken then
    if g.first.head? = some '\n' then (if g.more = [] then [' '] else g.more) else g.first ++ g.more
  else g.blanks

/-- Reads blanks and line breaks.  A tab that indents by less than `tabs` columns is refused. -/
def Gap.read? (tabs : Nat) : Nat → Gap → Cursor → Option (Gap × Cursor)
  | 0, g, c => some (g, c)
  | fuel + 1, g, c =>
    match c.head? with
    | none => some (g, c)
    | some ch =>
      if isBlank ch then
        if g.broken ∧ ch = '\t' ∧ c.column < tabs then none
        else Gap.read? tabs fuel (if g.broken then g else { g with blanks := g.blanks ++ [ch] }) (c.skip 1)
      else if isBreak ch then
        let (s, c) := c.lineBreak
        Gap.read? tabs fuel
          (if g.broken then { g with more := g.more ++ s } else { broken := true, first := s, more := g.more }) c
      else some (g, c)

/-! ### Plain scalars -/

/-- A plain scalar ends before this character. -/
def endsPlain (inFlow : Bool) (c : Cursor) : Bool :=
  match c.head? with
  | some ':' => c.isGap 1
  | some ch => inFlow && ",[]\x7b\x7d".toList.contains ch
  | none => true

/-- Ends a plain scalar; what has been read of it is kept latest first. -/
def endPlain (read : List Char) (gap : Gap) (c : Cursor) : Option (List Char × Bool × Cursor) :=
  some (read.reverse, gap.broken, c)

/-- Reads on in a plain scalar that may go on in lines indented by `indent` columns.  `words` says that the cursor is
inside a word, `gap` is what has been read since the last word. -/
def plainRest? (inFlow : Bool) (indent : Nat) :
    Nat → Bool → Gap → List Char → Cursor → Option (List Char × Bool × Cursor)
  | 0, _, _, _, _ => none
  | fuel + 1, words, gap, read, c =>
    if ¬ words ∧ (c.isDocumentMark ∨ c.head? = some '#') then endPlain read gap c
    else
      match c.head? with
      | none => endPlain read gap c
      | some ch =>
        if isBlank ch ∨ isBreak ch then
          if words then do
            let (gap, c) ← Gap.read? indent c.limit {} c
            if ¬ inFlow ∧ c.column < indent then endPlain read gap c
            else plainRest? inFlow indent fuel false gap read c
          else endPlain read gap c
        else if inFlow ∧ ch = ':' ∧ (c.get? 1).any (",?[]\x7b\x7d".toList.contains ·) then none
        else if endsPlain inFlow c then endPlain read gap c
        else plainRest? inFlow indent fuel true {} (ch :: gap.text.reverse ++ read) (c.skip 1)

/-- A plain scalar: its text, whether a line break has been read after it, and the place after it. -/
def plain? (inFlow : Bool) (indent : Nat) (c : Cursor) : Option (List Char × Bool × Cursor) :=
  plainRest? inFlow indent (2 * c.limit + 2) false {} [] c

/-! ### Quoted scalars -/

/-- The character with a code of exactly `n` hexadecimal digits. -/
def hexChar? (n : Nat) (s : List Char) : Option Char := do
  let code ← Text.number? 16 (s.take n)
  if n ≤ s.length ∧ code.isValidChar then some (Char.ofNat code) else none

/-- The character that an escape stands for, and the number of characters after the backslash. -/
def escape? : List Char → Option (Char × Nat)
  | [] => none
  | c :: rest =>
    match c with
    | '0' => some ('\x00', 1)
    | 'a' => some ('\x07', 1)
    | 'b' => some ('\x08', 1)
    | 't' | '\t' => some ('\t', 1)
    | 'n' => some ('\n', 1)
    | 'v' => some ('\x0b', 1)
    | 'f' => some ('\x0c', 1)
    | 'r' => some ('\r', 1)
    | 'e' => some ('\x1b', 1)
    | ' ' => some (' ', 1)
    | '"' => some ('"', 1)
    | '/' => some ('/', 1)
    | '\\' => some ('\\', 1)
    | 'N' => some ('\u0085', 1)
    | '_' => some ('\u00a0', 1)
    | 'L' => some ('\u2028', 1)
    | 'P' => some ('\u2029', 1)
    | 'x' => (hexChar? 2 rest).map (·, 3)
    | 'u' => (hexChar? 4 rest).map (·, 5)
    | 'U' => (hexChar? 8 rest).map (·, 9)
    | _ => none

/-- Reads a quoted scalar after its opening quote. -/
def quotedRest? (quote : Char) : Nat → List Char → Cursor → Option (List Char × Cursor)
  | 0, _, _ => none
  | fuel + 1, read, c =>
    if c.isDocumentMark then none
    else
      match c.rest with
      | [] => none
      | ch :: rest =>
        if isBlank ch ∨ isBreak ch then do
          let (gap, c) ← Gap.read? 0 c.limit {} c
          quotedRest? quote fuel (gap.text.reverse ++ read) c
        else if quote = '\'' ∧ ch = '\'' ∧ rest.head? = some '\'' then
          quotedRest? quote fuel ('\'' :: read) (c.skip 2)
        else if ch = quote then some (read.reverse, c.skip 1)
        else if quote = '"' ∧ ch = '\\' then
          if rest.head?.any isBreak then do
            let (gap, c) ← Gap.read? 0 c.limit { broken := true } (c.skip 1).lineBreak.2
            quotedRest? quote fuel (gap.text.reverse ++ read) c
          else do
            let (e, n) ← escape? rest
            quotedRest? quote fuel (e :: read) (c.skip (n + 1))
        else quotedRest? quote fuel (ch :: read) (c.skip 1)

/-- A scalar in quotes, with the cursor at the opening quote. -/
def quoted? (quote : Char) (c : Cursor) : Option (List Char × Cursor) :=
  quotedRest? quote (c.limit + 1) [] (c.skip 1)

/-! ### Block scalars -/

/-- What becomes of the line breaks at the end of a block scalar. -/
inductive Chomp
  | strip
  | clip
  | keep
  deriving DecidableEq

/-- Reads the characters after the mark of a block scalar: how to end it, and its indentation if that is given. -/
def blockHeader? (c : Cursor) : Option (Chomp × Option Nat × Cursor) := do
  let chomp (c : Cursor) : Option Chomp :=
    match c.head? with
    | some '+' => some .keep
    | some '-' => some .strip
    | _ => none
  let digit (c : Cursor) : Option Nat := (c.head?.filter Char.isDigit).map fun d => d.toNat - '0'.toNat
  let (how, step, c) :=
    match chomp c, digit c with
    | some how, _ => (how, digit (c.skip 1), c.skip (if (digit (c.skip 1)).isSome then 2 else 1))
    | none, some n => ((chomp (c.skip 1)).getD .clip, some n, c.skip (if (chomp (c.skip 1)).isSome then 2 else 1))
    | none, none => (.clip, none, c)
  if step = some 0 then none
  let c := c.skipWhile isBlank
  let c := if c.head? = some '#' then c.skipToBreak else c
  if c.head?.all isBreak then return (how, step, c.lineBreak.2) else none

/-- Reads the indentation of a line and empty lines before it; `indent` is `none` while it is not known. The third part
of the answer is the deepest column reached. -/
def blockBreaks? (indent : Option Nat) : Nat → Nat → List Char → Cursor → Option (List Char × Nat × Cursor)
  | 0, deepest, breaks, c => some (breaks, deepest, c)
  | fuel + 1, deepest, breaks, c =>
    let spaces := (c.rest.takeWhile (· == ' ')).length
    let c := c.skip (indent.elim spaces fun n => min spaces (n - c.column))
    let deepest := max deepest c.column
    if c.head? = some '\t' ∧ indent.all (c.column < ·) then none
    else if c.head?.any isBreak then
      let (s, c) := c.lineBreak
      blockBreaks? indent fuel deepest (breaks ++ s) c
    else some (breaks, deepest, c)

/-- Reads the lines of a block scalar.  What has been read of their text is kept latest first.  `leading` is the break
after the last line, `trailing` the breaks of the empty lines since, and `indented` says that the last line starts with
a blank. -/
def blockLines? (folded : Bool) (indent : Nat) :
    Nat → (read leading trailing : List Char) → (indented : Bool) → Cursor →
      Option (List Char × List Char × List Char × Cursor)
  | 0, read, leading, trailing, _, c => some (read.reverse, leading, trailing, c)
  | fuel + 1, read, leading, trailing, indented, c =>
    if c.column = indent ∧ c.rest ≠ [] then do
      let blank := c.head?.any isBlank
      let glue :=
        if folded ∧ leading.head? = some '\n' ∧ ¬ indented ∧ ¬ blank then (if trailing = [] then [' '] else [])
        else leading
      let line := c.rest.takeWhile fun ch => !isBreak ch
      let (leading, c) := c.skipToBreak.lineBreak
      let read := (glue ++ trailing ++ line).reverse ++ read
      let (trailing, _, c) ← blockBreaks? (some indent) (c.limit + 1) 0 [] c
      blockLines? folded indent fuel read leading trailing blank c
    else some (read.reverse, leading, trailing, c)

/-- A block scalar, with the cursor at its mark, in a collection indented by `outer` columns (`none` at the top). -/
def block? (folded : Bool) (outer : Option Nat) (c : Cursor) : Option (List Char × Cursor) := do
  let (how, step, c) ← blockHeader? (c.skip 1)
  let given := step.map (outer.getD 0 + ·)
  let (trailing, deepest, c) ← blockBreaks? given (c.limit + 1) 0 [] c
  let indent := given.getD (max deepest (max (outer.elim 0 (· + 1)) 1))
  let (text, leading, trailing, c) ← blockLines? folded indent (c.limit + 1) [] [] trailing false c
  return (text ++ (if how = .strip then [] else leading) ++ (if how = .keep then trailing else []), c)

end Theming.Yaml
