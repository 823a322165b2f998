import Theming.Proofs.Resolution.NestedProviders

/-!
# What a component reads of its provider

Of all that a provider says, the theme of a component depends on four things, its slice: the common tokens of the
application, the definition and the overrides of this component, and the common overrides.  A provider that is missing
has the slice of an empty one.  Nesting makes the slice of the nested provider from the slices of the two
(`Provider.slice_nested`), so nothing else leaks in through the providers around it either (`resolve_isolated`).
-/

namespace Theming

namespace Provider

/-- What a provider says that concerns one component. -/
structure Slice where
  common : Option TokenMap
  definition : Option Definition
  commonOverrides : Option TokenMap
  patch : Option Override

def slice (p : Provider) (id : String) : Slice where
  common := p.theme.common
  definition := p.theme.components.get? id
  commonOverrides := p.overrides.common
  patch := p.overrides.components.get? id

/-- The slice of a provider inside another one. -/
def Slice.nested (s parent : Slice) : Slice where
  common := s.common.or parent.common
  definition := Option.merge Definition.merge parent.definition s.definition
  commonOverrides := mergeCommon parent.commonOverrides s.commonOverrides
  patch := Option.merge Override.merge parent.patch s.patch

theorem slice_nested (p parent : Provider) (id : String) :
    (p.nested parent).slice id = (p.slice id).nested (parent.slice id) := by
  have hdefinition : (p.nested parent).theme.components.get? id =
      Option.merge Definition.merge (parent.theme.components.get? id) (p.theme.components.get? id) := by
    rw [theme_nested]
    exact NameMap.get?_mergeWith Definition.merge _ _ id
  have hpatch : (p.nested parent).overrides.components.get? id =
      Option.merge Override.merge (parent.overrides.components.get? id) (p.overrides.components.get? id) :=
    NameMap.get?_mergeWith Override.merge _ _ id
  have hcommon : (p.nested parent).theme.common = p.theme.common.or parent.theme.common := by
    rw [theme_nested]
  rw [slice, hdefinition, hpatch, hcommon]
  rfl

/-- What a provider has for other components is not in the slice, nor is what concerns no theme. -/
theorem slice_of_other (p : Provider) {id other : String} (h : other ≠ id) (clsPrefix : Option String)
    (bordered : Option Bool) (nameSpace : Option String) (definition : Definition) (patch : Override) :
    slice { clsPrefix, bordered, nameSpace
            theme := { p.theme with components := p.theme.components.insert other definition }
            overrides := { p.overrides with components := p.overrides.components.insert other patch } } id =
      p.slice id := by
  unfold slice
  rw [NameMap.get?_insert, NameMap.get?_insert, if_neg h.symm, if_neg h.symm]

end Provider

section Slice

variable (id : String) (provider : Option Provider)

/-! ### Resolution reads the slice -/

theorem definitionOf_eq_slice : definitionOf provider id = ((provider.getD {}).slice id).definition := by
  cases provider <;> rfl

theorem patchOf_eq_slice : patchOf provider id = ((provider.getD {}).slice id).patch := by
  cases provider <;> rfl

theorem themeCommon_eq_slice : (provider.bind fun p => p.theme.common) = ((provider.getD {}).slice id).common := by
  cases provider <;> rfl

theorem overridesCommon_eq_slice :
    (provider.bind fun p => p.overrides.common) = ((provider.getD {}).slice id).commonOverrides := by
  cases provider <;> rfl

variable {id}

theorem resolve_eq_of_slice {p q : Option Provider} (h : (p.getD {}).slice id = (q.getD {}).slice id)
    (default : Definition) (inst : Instance) : resolve id default inst p = resolve id default inst q := by
  have hdefinition : definitionOf p id = definitionOf q id := by
    rw [definitionOf_eq_slice, definitionOf_eq_slice, h]
  have hpatch : patchOf p id = patchOf q id := by
    rw [patchOf_eq_slice, patchOf_eq_slice, h]
  have hcommon : (p.bind fun p => p.theme.common) = q.bind fun p => p.theme.common := by
    rw [themeCommon_eq_slice id, themeCommon_eq_slice id, h]
  have hoverrides : (p.bind fun p => p.overrides.common) = q.bind fun p => p.overrides.common := by
    rw [overridesCommon_eq_slice id, overridesCommon_eq_slice id, h]
  have hbase : baseOf id default inst p = baseOf id default inst q := by
    rw [baseOf, baseOf, hdefinition, hcommon]
  have hgenerator : generatorOf id default inst p = generatorOf id default inst q := by
    rw [generatorOf, generatorOf, hdefinition]
  have hcompose : ∀ base g, MergedTheme.compose id default inst p base g = .compose id default inst q base g := by
    intro base g
    simp only [MergedTheme.compose, hdefinition, hpatch, hoverrides]
  rw [resolve_eq, resolve_eq, hbase, hgenerator]
  simp only [hcompose]

end Slice

/-- Providers with the same slice for a component give it the same theme, or the same failure, and so they do inside any
common parent, where they have the same slice again.  So a missing provider and an empty one cannot be told apart, and
neither class prefix, bordered flag and namespace nor what a provider has for another component ever count. -/
theorem resolve_isolated {id : String} {p q : Option Provider} (h : (p.getD {}).slice id = (q.getD {}).slice id)
    (default : Definition) (inst : Instance) :
    resolve id default inst p = resolve id default inst q ∧
    (∀ parent : Provider,
      ((p.getD {}).nested parent).slice id = ((q.getD {}).nested parent).slice id ∧
      resolve id default inst (some ((p.getD {}).nested parent)) =
        resolve id default inst (some ((q.getD {}).nested parent))) ∧
    resolve id default inst none = resolve id default inst (some {}) ∧
    ∀ (r : Provider) other clsPrefix bordered nameSpace definition patch, other ≠ id →
      resolve id default inst (some {
        clsPrefix, bordered, nameSpace
        theme := { r.theme with components := r.theme.components.insert other definition }
        overrides := { r.overrides with components := r.overrides.components.insert other patch } }) =
      resolve id default inst (some r) := by
  refine ⟨resolve_eq_of_slice h default inst, fun parent => ?_, resolve_eq_of_slice rfl default inst, ?_⟩
  · have hnested : ((p.getD {}).nested parent).slice id = ((q.getD {}).nested parent).slice id := by
      rw [Provider.slice_nested, Provider.slice_nested, h]
    exact ⟨hnested, resolve_eq_of_slice (p := some _) (q := some _) hnested default inst⟩
  · intro r other clsPrefix bordered nameSpace definition patch hother
    have hsame := r.slice_of_other hother clsPrefix bordered nameSpace definition patch
    exact resolve_eq_of_slice (p := some _) (q := some r) hsame default inst

/-- To a button, a provider that is about inputs is no provider, on its own and inside another one; without a generator
both fail alike. -/
theorem resolve_isolated_button :
    let text (s : String) : TokenMap := NameMap.insert ∅ "color" (.text s)
    let default := (Definition.new "Button").withCommon (text "default")
    let copying := default.withGenerator fun common => common
    let input := ((Definition.new "Input").withCommon (text "input")).withGenerator fun _ => ∅
    let other : Provider := {
      clsPrefix := some "app", bordered := some true
      theme := { components := NameMap.insert ∅ "Input" input }
      overrides := { components := NameMap.insert ∅ "Input" (Override.empty.withToken "color" (.text "input")) } }
    let parent : Provider := { overrides := {
      components := NameMap.insert ∅ "Button" (Override.empty.withCommonToken "color" (.text "parent")) } }
    ((none : Option Provider).getD {}).slice "Button" = ((some other).getD {}).slice "Button" ∧
      resolve "Button" default {} (some other) = .error (.missingGenerator "Button") ∧
      resolve "Button" default {} none = .error (.missingGenerator "Button") ∧
      (∃ m, resolve "Button" copying {} none = .ok m ∧ resolve "Button" copying {} (some other) = .ok m ∧
        m.tokens.get? "color" = some (.text "default")) ∧
      ∃ m, resolve "Button" copying {} (some (Provider.nested {} parent)) = .ok m ∧
        resolve "Button" copying {} (some (other.nested parent)) = .ok m ∧
        m.tokens.get? "color" = some (.text "parent") := by
  intro text default copying input other parent
  have h : ((none : Option Provider).getD {}).slice "Button" = ((some other).getD {}).slice "Button" := rfl
  obtain ⟨hfailing, -⟩ := resolve_isolated h default {}
  obtain ⟨halone, hinside, -⟩ := resolve_isolated h copying {}
  refine ⟨h, ?_, rfl, ⟨_, rfl, halone.symm.trans rfl, rfl⟩, ⟨_, rfl, ((hinside parent).2).symm.trans rfl, rfl⟩⟩
  exact hfailing.symm.trans rfl

end Theming
