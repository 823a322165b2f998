import Theming.Css
import Theming.Naming
import Theming.Rule
import Theming.Rule.Selector
import Theming.Scope

/-!
# Compiling rules

A rule is compiled below the selectors of the rules around it.  Its texts are expanded in order: selectors or prelude,
then declarations, then children, and the first failure is the failure of the whole, also in a block that would not be
written.

A rule whose only selector starts with `@` is an at-rule.  Its declarations apply to the selectors around it, or to
the at-rule itself at the root; its children see the selectors around it, but the frames of an animation see none.
-/

namespace Theming

variable {ε : Type} (engine : Template.Engine ε)

namespace Body

def declaration (name value : List Char) : List Char := name ++ ':' :: ' ' :: value ++ [';']

/-- The trimmed lines of a text, without empty ones. -/
def trimmedLines (s : List Char) : List (List Char) := ((Text.lines s).map Text.trim).filter (· ≠ [])

def value (scope : Scope) : Token → Except ε (List Char)
  | .text s => scope.expand engine s.toList
  | t => return t.css.toList

def declarations (scope : Scope) : Body → Except ε (List (List Char))
  | .empty => return []
  | .props ps => ps.mapM fun (name, token) => return declaration (cssName name).toList (← value engine scope token)
  | .raw s => return trimmedLines (← scope.expand engine s.toList)

end Body

namespace Rule

/-- The prelude of an at-rule, before expansion. -/
def atRule? : List String → Option (List Char)
  | [s] =>
    let s := Text.trim s.toList
    if s.head? = some '@' then some s else none
  | _ => none

/-- The selectors with comma groups taken apart. -/
def parts (selectors : List String) : List (List Char) := selectors.flatMap fun s => Selector.splitGroup s.toList

def isKeyframes (pre : List Char) : Bool := "keyframes".toList.isSuffixOf (Text.firstWord pre)

/-- A block, unless there is nothing to write or nothing to write it for. -/
def blocks (selectors declarations : List (List Char)) : List Css.Item :=
  if declarations = [] ∨ selectors = [] then [] else [.block selectors declarations]

mutual

def compile (scope : Scope) (parents : List (List Char)) : Rule → Except ε (List Css.Item)
  | mk selectors body children =>
    match atRule? selectors with
    | some pre => do
      let pre ← scope.expand engine pre
      let declarations ← body.declarations engine scope
      let items ← compileAll scope (if isKeyframes pre then [] else parents) children
      let (declarations, items) :=
        if parents = [] then (declarations, items) else ([], blocks parents declarations ++ items)
      return if declarations = [] ∧ items.isEmpty then [] else [.atRule pre declarations items]
    | none => do
      let own ← (parts selectors).mapM (scope.expand engine)
      let resolved := Selector.resolve parents own
      let declarations ← body.declarations engine scope
      let items ← compileAll scope resolved children
      return blocks resolved declarations ++ items

def compileAll (scope : Scope) (parents : List (List Char)) : List Rule → Except ε (List Css.Item)
  | [] => return []
  | r :: rs => do
    let items ← compile scope parents r
    let more ← compileAll scope parents rs
    return items ++ more

end

theorem compileAll_append (scope : Scope) (parents : List (List Char)) (a b : List Rule) :
    compileAll engine scope parents (a ++ b) = do
      let items ← compileAll engine scope parents a
      let more ← compileAll engine scope parents b
      return items ++ more := by
  induction a with
  | nil => simp [compileAll]
  | cons r rs ih => simp only [List.cons_append, compileAll, ih, bind_assoc, pure_bind, List.append_assoc]

/-- The style sheet text of rules at the root. -/
def render (scope : Scope) (roots : List Rule) : Except ε String :=
  (compileAll engine scope [] roots).map fun items => String.ofList (Css.writeAll items)

end Rule

end Theming
