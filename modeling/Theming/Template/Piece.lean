import Theming.Text.Blank
import Theming.Template.Lexeme

/-!
# The pieces of a template

A template is text with tags in it: double braces print an expression, braces with percent signs hold a statement, and
braces with hash marks hold a comment.  Between `raw` and `endraw` tags everything is text.  A hyphen on the inner side
of a tag's mark drops the blanks on its outer side.  One line break at the end of a template is dropped.
-/

namespace Theming.Template

inductive Piece
  | text (s : List Char)
  | print (words : List Lexeme)
  | tag (words : List Lexeme)
  /-- A comment without an end, or `raw` without `endraw`. -/
  | unclosed

/-- The text before the first opening mark, and the rest, which starts with that mark if there is one. -/
def beforeTag : List Char → List Char × List Char
  | '{' :: c :: rest =>
    if c = '{' ∨ c = '%' ∨ c = '#' then ([], '{' :: c :: rest)
    else
      let (lead, rest) := beforeTag (c :: rest)
      ('{' :: lead, rest)
  | c :: rest =>
    let (lead, rest) := beforeTag rest
    (c :: lead, rest)
  | [] => ([], [])

/-- A hyphen or plus sign at the inner side of a mark; true for a hyphen. -/
def control : List Char → Bool × List Char
  | '-' :: rest => (true, rest)
  | '+' :: rest => (false, rest)
  | rest => (false, rest)

/-- What follows the tag that holds `name` alone and has been opened just before, and its closing hyphen. -/
def bareTag? (name : List Char) (s : List Char) : Option (Bool × List Char) :=
  let s := s.dropWhile isGap
  if name.isPrefixOf s then
    let (dash, s) := control ((s.drop name.length).dropWhile isGap)
    if ['%', '}'].isPrefixOf s then some (dash, s.drop 2) else none
  else none

/-- The text up to the tag `endraw`, its two hyphens, and what follows it. -/
def rawText? : List Char → Option (List Char × Bool × Bool × List Char)
  | [] => none
  | c :: rest =>
    let skip := (rawText? rest).map fun (s, after) => (c :: s, after)
    if ['{', '%'].isPrefixOf (c :: rest) then
      let (dash, inner) := control (rest.drop 1)
      match bareTag? "endraw".toList inner with
      | some (dash', rest) => some ([], dash, dash', rest)
      | none => skip
    else skip

/-- What follows the end of a comment, and whether there is a hyphen before it. -/
def afterComment? : Bool → List Char → Option (Bool × List Char)
  | _, [] => none
  | dash, c :: rest =>
    if ['#', '}'].isPrefixOf (c :: rest) then some (dash, rest.drop 1)
    else afterComment? (c = '-') rest

/-- Text as a list of pieces; no text is no piece. -/
def Piece.texts (s : List Char) : List Piece := if s = [] then [] else [.text s]

/-- The pieces of a text; `trim` drops the blanks at its start.  A tag that does not end is the last piece.  The fuel
bounds the number of tags. -/
def pieces : Nat → Bool → List Char → List Piece
  | 0, _, _ => [.unclosed]
  | fuel + 1, trim, s =>
    let (lead, rest) := beforeTag (if trim then Text.trimStart s else s)
    match rest with
    | _ :: kind :: rest =>
      let (dash, inner) := control rest
      let lead := Piece.texts (if dash then Text.trimEnd lead else lead)
      let after : Option (Bool × List Char) → List Piece
        | some (trim, rest) => pieces fuel trim rest
        | none => []
      match kind with
      | '{' =>
        let (words, stop) := lexemes '}' fuel 0 inner
        lead ++ .print words :: after stop
      | '%' =>
        match bareTag? "raw".toList inner with
        | some (start, rest) =>
          match rawText? rest with
          | some (raw, stop, trim, rest) =>
            let raw := if start then Text.trimStart raw else raw
            let raw := if stop then Text.trimEnd raw else raw
            lead ++ Piece.texts raw ++ pieces fuel trim rest
          | none => lead ++ [.unclosed]
        | none =>
          let (words, stop) := lexemes '%' fuel 0 inner
          lead ++ .tag words :: after stop
      | _ =>
        match afterComment? false inner with
        | some (trim, rest) => lead ++ pieces fuel trim rest
        | none => lead ++ [.unclosed]
    | _ => Piece.texts lead

end Theming.Template
