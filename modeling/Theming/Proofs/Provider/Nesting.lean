import Theming.Proofs.Merging
import Theming.Proofs.Resolution.NestedProviders

/-!
# Nesting as a monoid

Providers form a monoid under nesting, with the empty provider as its unit.  So a chain of providers amounts to the
same provider however its scopes are put together (`nested_monoid`).
-/

namespace Theming

namespace Provider

/-- Nesting part by part: overrides are merged, and so is the global theme, whether or not the inner one is empty. -/
theorem nested_eq (p parent : Provider) :
    p.nested parent = {
      clsPrefix := p.clsPrefix.or parent.clsPrefix
      bordered := p.bordered.or parent.bordered
      nameSpace := p.nameSpace.or parent.nameSpace
      theme := {
        common := p.theme.common.or parent.theme.common
        components := NameMap.mergeWith Definition.merge parent.theme.components p.theme.components }
      overrides := parent.overrides.merge p.overrides } :=
  congrArg (fun theme => { p.nested parent with theme }) (theme_nested p parent)

theorem nested_assoc (a b c : Provider) : (a.nested b).nested c = a.nested (b.nested c) := by
  simp only [nested_eq, Option.or_assoc, GlobalOverrides.merge_assoc, NameMap.mergeWith_assoc]

theorem empty_nested (a : Provider) : nested {} a = a := by
  simp only [nested_eq, Option.none_or, GlobalOverrides.merge_empty, NameMap.mergeWith_empty]

theorem nested_empty (a : Provider) : a.nested {} = a := by
  simp only [nested_eq, Option.or_none, GlobalOverrides.empty_merge, NameMap.empty_mergeWith]

/-- Nesting the providers of a chain from the outside inwards, inside a provider around them all. -/
theorem foldr_nested (ps : List Provider) (p : Provider) : ps.foldr nested p = (ps.foldr nested {}).nested p := by
  induction ps with
  | nil => exact (empty_nested p).symm
  | cons q ps ih => rw [List.foldr_cons, ih, List.foldr_cons, nested_assoc]

end Provider

/-- What a chain of providers amounts to, in any grouping. -/
theorem Collapses.eq_foldr {ps : List Provider} {p : Provider} (h : Collapses ps p) : p = ps.foldr Provider.nested {} := by
  induction h with
  | single p => exact p.nested_empty.symm
  | nested _ _ ihp ihq => rw [List.foldr_append, ← ihq, Provider.foldr_nested, ← ihp]

/-- Nesting is associative, and the empty provider is its unit on both sides, for all that a provider says: class
prefix, bordered flag, namespace, definitions with their generators and peers, and overrides.  A chain of providers
amounts to one provider only, and an empty global theme is treated as the general rule has it. -/
theorem nested_monoid :
    (∀ a b c : Provider, (a.nested b).nested c = a.nested (b.nested c)) ∧
    (∀ a : Provider, Provider.nested {} a = a ∧ a.nested {} = a) ∧
    (∀ ps p q, Collapses ps p → Collapses ps q → p = q) ∧
    ∀ p parent : Provider, (p.nested parent).theme =
      { common := p.theme.common.or parent.theme.common
        components := NameMap.mergeWith Definition.merge parent.theme.components p.theme.components } := by
  refine ⟨Provider.nested_assoc, fun a => ⟨a.empty_nested, a.nested_empty⟩, ?_, theme_nested⟩
  intro ps p q hp hq
  rw [hp.eq_foldr, hq.eq_foldr]

/-- Between two scopes with a global theme there is one without, so its parent's theme is taken over on the one side
and what has been taken over is merged on the other. -/
theorem nested_monoid_app :
    let icon (s : String) : Definition := (Definition.new "").withCommon (NameMap.insert ∅ "color" (.text s))
    let theme (s : String) : GlobalTheme := { components := NameMap.insert ∅ "Button" (icon s) }
    let inner : Provider := { theme := theme "red" }
    let middle : Provider := { clsPrefix := some "app" }
    let outer : Provider := { clsPrefix := some "n", theme := { theme "blue" with common := some ∅ } }
    Collapses [inner, middle, outer] ((inner.nested middle).nested outer) ∧
      Collapses [inner, middle, outer] (inner.nested (middle.nested outer)) ∧
      (inner.nested middle).nested outer = inner.nested (middle.nested outer) ∧
      ((inner.nested middle).nested outer).clsPrefix = some "app" := by
  intro icon theme inner middle outer
  have hleft : Collapses [inner, middle, outer] ((inner.nested middle).nested outer) :=
    .nested (.nested (.single inner) (.single middle)) (.single outer)
  have hright : Collapses [inner, middle, outer] (inner.nested (middle.nested outer)) :=
    .nested (.single inner) (.nested (.single middle) (.single outer))
  exact ⟨hleft, hright, nested_monoid.2.2.1 _ _ _ hleft hright, rfl⟩

end Theming
