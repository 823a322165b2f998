import Theming.Proofs.Rules.Composition

/-!
# At-rules around rules

An at-rule below selectors writes its prelude and, indented in braces, just what the same rule would write there without
its prelude.  At the root its declarations stand in it directly, and the rules nested in it as if they were at the root;
the frames of an animation are written in the same way wherever it is nested (`print_atRule`).
-/

namespace Theming

open Template (partialEngine)

/-- Appends a prelude and, in braces, a text with two spaces in front of every line that is not empty, after an empty
line if something has been written before; where there is no text to put in braces, nothing. -/
def Css.wrap (out pre inner : Css.Text) : Css.Text :=
  if inner = [] then out
  else
    (if out = [] then [] else out ++ "\n".toList) ++ pre ++ " \x7b\n".toList ++
      ((Text.lines inner).flatMap fun line => (if line = [] then [] else "  ".toList ++ line) ++ "\n".toList) ++
      "\x7d\n".toList

theorem Css.wrap_eq (out pre inner : Css.Text) :
    wrap out pre inner = if inner = [] then out else put out (braces pre (indent inner)) := by
  unfold wrap
  split
  · rfl
  · have hindent :
        (Text.lines inner).flatMap (fun line => (if line = [] then [] else "  ".toList ++ line) ++ "\n".toList) =
          indent inner := by
      rw [indent, writeLines, List.flatMap_map]
      rfl
    rw [hindent]
    cases out <;> simp [put, braces]

namespace Rule

variable {ε : Type} (engine : Template.Engine ε) (scope : Scope) (parents : List (List Char))

theorem text_eq_print (r : Rule) : text engine scope parents r = print engine scope parents [] r := by
  rw [print_eq]
  exact (id_map _).symm

/-- Without selectors of its own a rule writes its block for the selectors around it, then its children below them. -/
theorem text_of_noSelectors (body : Body) (children : List Rule) :
    text engine scope parents (mk [] body children) =
      body.declarations engine scope >>= fun declarations =>
        printAll engine scope parents (blockText parents declarations) children := by
  rw [text_eq_print]
  simp [print, atRule?, parts, Selector.resolve, Css.put_eq_join, Css.join]

theorem print_of_atRule {selectors : List String} {pre : List Char} (hat : atRule? selectors = some pre) (body : Body)
    (children : List Rule) (out : Css.Text) :
    print engine scope parents out (mk selectors body children) = do
      let p ← scope.expand engine pre
      let declarations ← body.declarations engine scope
      let own := if parents = [] then Css.writeLines declarations else blockText parents declarations
      let inner ← printAll engine scope (if isKeyframes p then [] else parents) own children
      return Css.wrap out p inner := by
  simp only [print, hat, Css.wrap_eq]

theorem printAll_eq_render (own : Css.Text) (children : List Rule) :
    printAll engine scope [] own children = (fun css => Css.join own css.toList) <$> render engine scope children := by
  rw [printAll_eq, render_eq]
  simp

/-- An at-rule that is no animation writes below selectors what the rule without its prelude writes there, wrapped in
the prelude; it fails if the prelude does or that rule, and writes nothing if that rule writes nothing.  At the root it
wraps its declarations, one a line, and the sheet of its children.  What an animation without declarations writes is
the same below all selectors and at the root. -/
theorem print_atRule {selectors : List String} {pre : List Char} (hat : atRule? selectors = some pre) (body : Body)
    (children : List Rule) (out : Css.Text) :
    (∀ parents, parents ≠ [] → (∀ p, scope.expand engine pre = .ok p → isKeyframes p = false) →
      (print engine scope parents out (mk selectors body children) = do
        let p ← scope.expand engine pre
        let inner ← text engine scope parents (mk [] body children)
        return Css.wrap out p inner) ∧
      ((∃ e, print engine scope parents out (mk selectors body children) = .error e) ↔
        (∃ e, scope.expand engine pre = .error e) ∨ ∃ e, text engine scope parents (mk [] body children) = .error e)) ∧
    (print engine scope [] out (mk selectors body children) = do
      let p ← scope.expand engine pre
      let declarations ← body.declarations engine scope
      let css ← render engine scope children
      return Css.wrap out p (Css.join (declarations.flatMap fun d => d ++ "\n".toList) css.toList)) ∧
    ∀ p, scope.expand engine pre = .ok p → isKeyframes p = true →
      (∀ ds, body.declarations engine scope = .ok ds → ds = []) → ∀ parents,
        print engine scope parents out (mk selectors body children) =
          print engine scope [] out (mk selectors body children) := by
  refine ⟨?_, ?_, ?_⟩
  · intro parents hparents hframes
    have hprint : print engine scope parents out (mk selectors body children) = do
        let p ← scope.expand engine pre
        let inner ← text engine scope parents (mk [] body children)
        return Css.wrap out p inner := by
      rw [print_of_atRule engine scope parents hat, text_of_noSelectors]
      cases hpre : scope.expand engine pre with
      | error e => rfl
      | ok p => simp [hframes p hpre, hparents]
    refine ⟨hprint, ?_⟩
    rw [hprint]
    cases scope.expand engine pre <;> cases text engine scope parents (mk [] body children) <;> simp
  · rw [print_of_atRule engine scope [] hat]
    simp [printAll_eq_render, Css.writeLines]
  · intro p hp hframes hnone parents
    rw [print_of_atRule engine scope parents hat, print_of_atRule engine scope [] hat, hp]
    cases hds : body.declarations engine scope with
    | error e => rfl
    | ok ds =>
      obtain rfl := hnone ds hds
      simp [hframes, blockText, blocks, Css.writeLines, Css.writeAll]

/-- A rule for print below a selector and after other text, and an animation below the same selector. -/
theorem print_atRule_media :
    let media := mk [" @media print"] (.raw "x: 1;") [mk ["&:hover"] (.raw "y: 2;") []]
    let frames := mk ["@keyframes k"] .empty [mk ["from"] (.raw "x: 1;") []]
    print partialEngine {} ["a".toList] "b".toList media = .ok (String.join [
      "b\n@media print \x7b\n  a \x7b\n    x: 1;\n  \x7d\n\n",
      "  a:hover \x7b\n    y: 2;\n  \x7d\n\x7d\n"]).toList ∧
    print partialEngine {} ["a".toList] [] frames = print partialEngine {} [] [] frames := by
  intro media frames
  have hmedia : atRule? [" @media print"] = some "@media print".toList := rfl
  have hframes : atRule? ["@keyframes k"] = some "@keyframes k".toList := rfl
  have hplain : ∀ p, Scope.expand partialEngine {} "@media print".toList = .ok p → isKeyframes p = false := by
    intro p hp
    obtain rfl : "@media print".toList = p := Except.ok.inj hp
    decide
  have hnone : ∀ ds, Body.declarations partialEngine {} .empty = .ok ds → ds = [] :=
    fun ds hds => (Except.ok.inj hds).symm
  constructor
  · rw [((print_atRule partialEngine {} hmedia _ _ "b".toList).1 ["a".toList] (by decide) hplain).1]
    decide +kernel
  · exact (print_atRule partialEngine {} hframes _ _ []).2.2 _ rfl (by decide) hnone _

end Rule

end Theming
