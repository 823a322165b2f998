import Theming.Template.Piece
import Theming.Template.Statement

/-!
# The nodes of templates

A template is a list of nodes: texts, expressions to print, and statements with the nodes that they hold.
-/

namespace Theming.Template

/-- A template without its marks. -/
inductive Node
  | text (s : List Char)
  | print (e : Expr)
  | branch (test : Expr) (yes no : List Node)
  | filtered (filters : List Filter) (held : List Node)
  /-- Another template, named by the value of `e`; it may be missing if it is optional. -/
  | template (e : Expr) (optional : Bool)
  /-- A statement that the partial engine does not carry out. -/
  | refused

/-- A statement with what it holds. -/
def Heading.node (held : List Node) : Heading → Node
  | .call e => .print e
  | .template e optional => .template e optional
  | .filter filters => .filtered filters held
  | .refused _ => .refused

/-- The tag that closes a statement may repeat its name. -/
def Closing.finish (closing : Closing) : List Lexeme → Except TemplateError Unit
  | .name x :: ts => if closing.name = some x then Template.finish ts else throw .malformed
  | ts => Template.finish ts

mutual

/-- Reads nodes up to the end or to a tag that closes or splits a statement.  `room` is how much deeper statements and
expressions may be nested; the fuel bounds the number of tags. -/
def nodes : Nat → (room : Nat) → List Piece → Except TemplateError (List Node × List Piece)
  | 0, _, _ => throw .malformed
  | fuel + 1, room, ps =>
    match ps with
    | [] => return ([], [])
    | .unclosed :: _ => throw .malformed
    | .text s :: ps => do
      let (ns, ps) ← nodes fuel room ps
      return (.text s :: ns, ps)
    | .print words :: ps => do
      let e ← Expr.ofWords room .nested words
      let (ns, ps) ← nodes fuel room ps
      return (.print e :: ns, ps)
    | .tag (.name x :: words) :: rest =>
      if String.ofList x ∈ closingKeywords then return ([], ps)
      else
        match room with
        | 0 => throw .malformed
        | inner + 1 => do
          let (n, ps) ← if x = "if".toList then branch fuel inner words rest else statement fuel inner x words rest
          let (ns, ps) ← nodes fuel room ps
          return (n :: ns, ps)
    | .tag words :: _ => unexpected words
termination_by structural fuel => fuel

/-- Reads a branch from its condition, which is no inline `if`, up to its end. -/
def branch : Nat → (room : Nat) → List Lexeme → List Piece → Except TemplateError (Node × List Piece)
  | 0, _, _, _ => throw .malformed
  | fuel + 1, room, condition, ps => do
    let test ← Expr.ofWords room .or condition
    let (yes, ps) ← nodes fuel room ps
    match ps with
    | .tag (.name x :: words) :: ps =>
      if x = "elif".toList then
        let (no, ps) ← branch fuel room words ps
        return (.branch test yes [no], ps)
      else if x = "else".toList then
        finish words
        let (no, ps) ← held fuel room { keyword := "endif" } ps
        return (.branch test yes no, ps)
      else if x = "endif".toList then
        finish words
        return (.branch test yes [], ps)
      else throw .malformed
    | _ => throw .malformed
termination_by structural fuel => fuel

/-- Reads any other statement from what follows its keyword up to its end. -/
def statement : Nat → (room : Nat) → (keyword : List Char) → List Lexeme → List Piece →
    Except TemplateError (Node × List Piece)
  | 0, _, _, _, _ => throw .malformed
  | fuel + 1, room, keyword, words, ps => do
    let heading ← Heading.ofWords room keyword words
    match heading.closing? with
    | none => return (heading.node [], ps)
    | some closing =>
      let (ns, ps) ← held fuel room closing ps
      return (heading.node ns, ps)
termination_by structural fuel => fuel

/-- Reads nodes up to a closing tag and that tag. -/
def held : Nat → (room : Nat) → Closing → List Piece → Except TemplateError (List Node × List Piece)
  | 0, _, _, _ => throw .malformed
  | fuel + 1, room, closing, ps => do
    let (ns, ps) ← nodes fuel room ps
    match ps with
    | .tag (.name x :: words) :: ps =>
      if x = closing.keyword.toList then
        closing.finish words
        return (ns, ps)
      else if closing.splits ∧ x = "else".toList then
        finish words
        let (more, ps) ← held fuel room { closing with splits := false } ps
        return (ns ++ more, ps)
      else throw .malformed
    | _ => throw .malformed
termination_by structural fuel => fuel

end

def Node.ofText (source : List Char) : Except TemplateError (List Node) := do
  let s := Text.dropLastBreak source
  let ps := pieces (s.length + 1) false s
  match ← nodes (4 * ps.length + 4) maxNesting ps with
  | (ns, []) => return ns
  | _ => throw .malformed

end Theming.Template
