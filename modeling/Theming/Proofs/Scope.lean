import Theming.Proofs.Template.Pattern
import Theming.Scope

/-!
# What engines do with the texts of rules

A text in which no tag opens does not come before the engine at all, so it is kept as it is whatever the engine is.  Of
an engine that expands texts with placeholders no more is asked than that it prints plain text and the selector of the
scope (`PrintsPrefix`); then a pattern with placeholders in its gaps becomes the pattern with that selector in them.
-/

namespace Theming

variable {ε : Type} (engine : Template.Engine ε)

/-! ### Texts without tags -/

/-- No tag opens in the text; a comment may. -/
structure Template.IsUntagged (s : List Char) : Prop where
  print : ¬['{', '{'] <:+: s
  statement : ¬['{', '%'] <:+: s

namespace Template.IsUntagged

instance decidable (s : List Char) : Decidable (IsUntagged s) :=
  decidable_of_iff (¬Text.contains ['{', '{'] s = true ∧ ¬Text.contains ['{', '%'] s = true) <| by
    rw [Text.contains_iff_infix, Text.contains_iff_infix]
    exact ⟨fun h => ⟨h.1, h.2⟩, fun h => ⟨h.print, h.statement⟩⟩

theorem of_infix {s t : List Char} (hs : IsUntagged s) (h : t <:+: s) : IsUntagged t :=
  ⟨fun ht => hs.print (ht.trans h), fun ht => hs.statement (ht.trans h)⟩

theorem of_not_mem {s : List Char} (hs : '{' ∉ s) : IsUntagged s :=
  ⟨fun h => hs (h.subset List.mem_cons_self), fun h => hs (h.subset List.mem_cons_self)⟩

theorem expand_eq {s : List Char} (hs : IsUntagged s) (scope : Scope) : scope.expand engine s = .ok s := by
  have hprint := hs.print
  have hstatement := hs.statement
  rw [← Text.contains_iff_infix, Bool.not_eq_true] at hprint hstatement
  rw [Scope.expand, hprint, hstatement]
  rfl

end Template.IsUntagged

/-! ### Texts with placeholders -/

/-- The engine prints plain text as it is, but for one line break at the end of the template, and the placeholder as the
selector of the scope. -/
def Template.Engine.PrintsPrefix : Prop :=
  ∀ (selector : String) (t : Pattern), some '{' ∉ t →
    engine ⟨some selector⟩ (t.fill Rule.placeholder.toList) = .ok (t.dropLastBreak.fill selector.toList)

variable {engine}

theorem Template.Engine.PrintsPrefix.expand_fill (h : engine.PrintsPrefix) (selector : String) {t : Pattern}
    (ht : some '{' ∉ t) :
    Scope.expand engine ⟨some selector⟩ (t.fill Rule.placeholder.toList) =
      .ok (if none ∈ t then t.dropLastBreak.fill selector.toList else t.fill selector.toList) := by
  obtain ⟨s, rfl | ⟨u, rfl⟩⟩ := t.exists_lead
  · -- without a gap the text is no template, and keeps its end
    have hs : '{' ∉ s := by simpa using ht
    simp [(Template.IsUntagged.of_not_mem hs).expand_eq]
  · have hprint :
        Text.contains ['{', '{'] (Pattern.fill Rule.placeholder.toList (s.map some ++ none :: u)) = true := by
      rw [Text.contains_iff_infix, Pattern.fill_append, Pattern.fill_map_some, Pattern.fill_none_cons]
      exact ⟨s, " prefix \x7d\x7d".toList ++ Pattern.fill Rule.placeholder.toList u, by simp [Rule.placeholder]⟩
    rw [Scope.expand, hprint, Bool.true_or, if_pos rfl, h selector _ ht, if_pos (by simp)]

/-! ### Class prefixes -/

namespace Scope

/-- What stands in front of a name in a class selector. -/
def classStart (clsPrefix : String) : List Char := '.' :: clsPrefix.toList ++ ['-']

theorem toList_classStart (clsPrefix : String) : ("." ++ clsPrefix ++ "-").toList = classStart clsPrefix := by
  simp [classStart]

theorem isTrimmed_classStart (clsPrefix : String) : Text.IsTrimmed (classStart clsPrefix) where
  head := by simp [classStart, Text.isBlank]
  last := by
    intro c hc
    rw [classStart, Option.mem_def, List.getLast?_concat, Option.some.injEq] at hc
    rw [← hc]
    rfl

theorem expand_ofPrefix_fill (h : engine.PrintsPrefix) (clsPrefix : String) {t : Pattern} (ht : some '{' ∉ t) :
    (ofPrefix clsPrefix).expand engine (t.fill Rule.placeholder.toList) =
      .ok (if none ∈ t then t.dropLastBreak.fill (classStart clsPrefix) else t.fill (classStart clsPrefix)) := by
  rw [ofPrefix, h.expand_fill _ ht, toList_classStart]

end Scope

end Theming
