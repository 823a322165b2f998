import Mathlib.Algebra.BigOperators.Group.List.Basic
import Theming.Proofs.Rules.Scoping

/-!
# Comma groups on a path

Every rule takes the selectors around it apart again, once for each of its own.  Along a path of rules these are all
ways to choose a selector on every level, in lexicographic order, each choice put together from the outside in
(`selectors_of_path`).
-/

namespace Theming

open Template (partialEngine)

/-! ### Choices -/

section Choices

variable {α : Type}

/-- All ways to choose one element of each list, in lexicographic order. -/
def choices : List (List α) → List (List α)
  | [] => [[]]
  | l :: ls => l.flatMap fun a => (choices ls).map (a :: ·)

theorem mem_choices_iff {ls : List (List α)} {as : List α} : as ∈ choices ls ↔ List.Forall₂ (· ∈ ·) as ls := by
  induction ls generalizing as with
  | nil => simp [choices]
  | cons l ls ih =>
    cases as with
    | nil => simp [choices]
    | cons a as => simp [choices, ih]

theorem length_choices (ls : List (List α)) : (choices ls).length = (ls.map List.length).prod := by
  induction ls with
  | nil => rfl
  | cons l ls ih => simp [choices, List.length_flatMap, ih]

/-- If each list is in order, then so are the choices. -/
theorem pairwise_choices {r : α → α → Prop} {ls : List (List α)} (h : ∀ l ∈ ls, l.Pairwise r) :
    (choices ls).Pairwise (List.Lex r) := by
  induction ls with
  | nil => simp [choices]
  | cons l ls ih =>
    rw [choices, List.pairwise_flatMap]
    constructor
    · intro a _
      refine (ih fun m hm => h m (List.mem_cons_of_mem l hm)).map _ fun as bs hlt => ?_
      exact .cons hlt
    · refine (h l List.mem_cons_self).imp fun {a b} hlt as has bs hbs => ?_
      obtain ⟨as, -, rfl⟩ := List.mem_map.1 has
      obtain ⟨bs, -, rfl⟩ := List.mem_map.1 hbs
      exact .rel hlt

end Choices

/-! ### Selectors along a path -/

namespace Selector

/-- The selector that a choice on every level stands for: the outermost without its `&`, and then each below what has
been put together so far. -/
def chosen : List (List Char) → List Char
  | [] => []
  | o :: os => os.foldl under (Text.trim (fill [] o))

/-- Below selectors that there are, levels without selectors do not count. -/
theorem foldl_resolve {parents : List (List Char)} (hne : parents ≠ []) (levels : List (List (List Char))) :
    levels.foldl resolve parents =
      parents.flatMap fun p => (choices (levels.filter (· ≠ []))).map fun os => os.foldl under p := by
  induction levels generalizing parents with
  | nil => simp [choices]
  | cons own levels ih =>
    rw [List.foldl_cons, ih (resolve_ne_nil hne)]
    by_cases hown : own = []
    · simp [hown, resolve]
    · -- the parents are taken apart first, and the selectors of the rule inside each of them
      have hstep : resolve parents own = parents.flatMap fun p => own.map (under p) := by simp [resolve, hown, hne]
      rw [hstep, List.flatMap_assoc, List.filter_cons_of_pos (by simpa using hown)]
      simp [choices, List.map_flatMap, List.flatMap_map, Function.comp_def]

theorem foldl_resolve_nil {first : List (List Char)} (hfirst : first ≠ [])
    (hsolid : ∀ o ∈ first, Text.trim (fill [] o) ≠ []) (rest : List (List (List Char))) :
    (first :: rest).foldl resolve [] = (choices (first :: rest.filter (· ≠ []))).map chosen := by
  have hroot : resolve [] first = first.map fun o => Text.trim (fill [] o) := by
    rw [resolve, if_neg hfirst, if_pos rfl, List.filter_eq_self]
    simpa using hsolid
  have hne : resolve [] first ≠ [] := by simpa [hroot] using hfirst
  rw [List.foldl_cons, foldl_resolve hne, hroot]
  simp [choices, chosen, List.map_flatMap, List.flatMap_map, Function.comp_def]

end Selector

namespace Rule

variable {ε : Type} {engine : Template.Engine ε} {scope : Scope} {root r : Rule} {parents : List (List Char)}
  {levels : List (List (List Char))}

/-- Ordinary rules lead from `root` down to `r`, each compiled below the selectors of the one before it, so `r` is
compiled below `parents`; `levels` are the expanded selectors of these rules, those of `root` first. -/
inductive OrdinaryPath (engine : Template.Engine ε) (scope : Scope) (root : Rule) :
    (parents : List (List Char)) → (r : Rule) → (levels : List (List (List Char))) → Prop
  | root {own : List (List Char)} (hat : atRule? root.selectors = none)
      (hown : (parts root.selectors).mapM (scope.expand engine) = .ok own) :
      OrdinaryPath engine scope root [] root [own]
  | child {parents s own : List (List Char)} {r c : Rule} {levels : List (List (List Char))}
      (h : OrdinaryPath engine scope root parents r levels) (hs : resolved engine scope parents r = .ok s)
      (hc : c ∈ r.children) (hat : atRule? c.selectors = none)
      (hown : (parts c.selectors).mapM (scope.expand engine) = .ok own) :
      OrdinaryPath engine scope root s c (levels ++ [own])

namespace OrdinaryPath

theorem ordinary (h : OrdinaryPath engine scope root parents r levels) : atRule? r.selectors = none := by
  cases h with
  | root hat _ => exact hat
  | child _ _ _ hat _ => exact hat

/-- The selectors of the last rule: from level to level they are resolved below those before. -/
theorem resolved_eq (h : OrdinaryPath engine scope root parents r levels) :
    resolved engine scope parents r = .ok (levels.foldl Selector.resolve []) := by
  induction h with
  | root _ hown => simp [resolved, hown]
  | child _ hs _ _ hown ih =>
    cases hs.symm.trans ih
    simp [resolved, hown]

theorem isBelow (h : OrdinaryPath engine scope root parents r levels) : Below engine scope [] root false parents r := by
  induction h with
  | root _ _ => exact .self
  | @child parents s own r c levels h hs hc _ _ ih =>
    have hinner : inner engine scope parents r = .ok (false, s) := by simp [inner, h.ordinary, hs]
    exact .child ih hinner hc

end OrdinaryPath

/-- Where ordinary rules lead to a rule, its selectors are all ways to choose a selector on every level, in
lexicographic order, each choice put together from the outside in: the outermost selector without its `&`, then each
with what has been put together so far for its `&`, or after it and a space.  Levels without selectors do not count
except for the outermost one.  The rule writes its block for these selectors and hands them on to its children. -/
theorem selectors_of_path {first : List (List Char)} {rest : List (List (List Char))}
    (h : OrdinaryPath engine scope root parents r (first :: rest)) (hfirst : first ≠ [])
    (hsolid : ∀ o ∈ first, Text.trim (Selector.fill [] o) ≠ []) :
    let chosenFrom := first :: rest.filter (· ≠ [])
    let selectors := (choices chosenFrom).map Selector.chosen
    Below engine scope [] root false parents r ∧ resolved engine scope parents r = .ok selectors ∧
      selectors.length = (chosenFrom.map List.length).prod ∧
      (∀ os, os ∈ choices chosenFrom ↔ List.Forall₂ (· ∈ ·) os chosenFrom) ∧
      (∀ before : List Char → List Char → Prop, (∀ own ∈ chosenFrom, own.Pairwise before) →
        (choices chosenFrom).Pairwise (List.Lex before)) ∧
      compile engine scope parents r = do
        let declarations ← r.body.declarations engine scope
        let items ← compileAll engine scope selectors r.children
        return blocks selectors declarations ++ items := by
  intro chosenFrom selectors
  have hselectors : resolved engine scope parents r = .ok selectors := by
    rw [h.resolved_eq, Selector.foldl_resolve_nil hfirst hsolid]
  refine ⟨h.isBelow, hselectors, ?_, fun os => mem_choices_iff, fun before => pairwise_choices, ?_⟩
  · rw [List.length_map, length_choices]
  · obtain ⟨own, body, children⟩ := r
    have hat : atRule? own = none := h.ordinary
    rw [compile_of_ordinary engine scope parents hat, hselectors]
    rfl

/-- A comma group at the root, a level without selectors, and a group with and without `&`. -/
theorem selectors_of_path_group :
    let leaf := mk ["&.x, y", placeholder ++ "z"] (.raw "c: d;") []
    let root := mk ["a, &b"] .empty [mk [" , "] .empty [leaf]]
    let levels := [["a", "&b"], ["&.x", "y", ".n-z"]].map (List.map String.toList)
    Below partialEngine (.ofPrefix "n") [] root false ["a".toList, "b".toList] leaf ∧
      resolved partialEngine (.ofPrefix "n") ["a".toList, "b".toList] leaf =
        .ok ((choices levels).map Selector.chosen) ∧
      (choices levels).map Selector.chosen =
        ["a.x", "a y", "a .n-z", "b.x", "b y", "b .n-z"].map String.toList := by
  intro leaf root levels
  have hroot : OrdinaryPath partialEngine (.ofPrefix "n") root [] root [["a", "&b"].map String.toList] :=
    .root rfl (by decide +kernel)
  have hgap : OrdinaryPath partialEngine (.ofPrefix "n") root ["a".toList, "b".toList] (mk [" , "] .empty [leaf])
      ([["a", "&b"].map String.toList] ++ [[]]) :=
    .child hroot (by decide +kernel) List.mem_cons_self rfl (by decide +kernel)
  have hleaf : OrdinaryPath partialEngine (.ofPrefix "n") root ["a".toList, "b".toList] leaf
      ([["a", "&b"].map String.toList] ++ [[]] ++ [["&.x", "y", ".n-z"].map String.toList]) :=
    .child hgap (by decide +kernel) List.mem_cons_self rfl (by decide +kernel)
  obtain ⟨hbelow, hselectors, -⟩ := selectors_of_path hleaf (by decide) (by decide)
  exact ⟨hbelow, hselectors, by decide⟩

end Rule

end Theming
