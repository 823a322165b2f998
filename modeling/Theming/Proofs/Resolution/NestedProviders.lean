import Theming.Proofs.Resolution.Precedence

/-!
# Resolution inside nested providers

Providers inside each other act as one.  What is read off it is what the innermost provider says that says anything,
with two exceptions: the overrides of components are read token by token, and so are the common tokens of their
definitions, although those of the application are taken as a whole.  From this follows where the tokens of a merged
theme come from when there are many providers (`resolve_collapsed`).
-/

namespace Theming

/-- What providers amount to, the innermost first, when they are placed inside each other in any grouping. -/
inductive Collapses : List Provider → Provider → Prop
  | single (p : Provider) : Collapses [p] p
  | nested {inner outer : List Provider} {p q : Provider} (hp : Collapses inner p) (hq : Collapses outer q) :
      Collapses (inner ++ outer) (p.nested q)

theorem exists_collapses {ps : List Provider} (h : ps ≠ []) : ∃ p, Collapses ps p := by
  induction ps with
  | nil => exact absurd rfl h
  | cons p ps ih =>
    cases ps with
    | nil => exact ⟨p, .single p⟩
    | cons q ps =>
      obtain ⟨r, hr⟩ := ih (by simp)
      exact ⟨p.nested r, .nested (.single p) hr⟩

/-! ### What is read off a nested provider -/

/-- A reading for which the parent of a provider answers only where the provider does not. -/
def Inherits {β : Type} (read : Provider → Option β) : Prop := ReadsTop (fun parent p : Provider => p.nested parent) read

theorem Inherits.of_collapses {β : Type} {read : Provider → Option β} (hread : Inherits read) {ps : List Provider}
    {p : Provider} (h : Collapses ps p) : read p = firstPresent (ps.map read) := by
  induction h with
  | single p => simp
  | nested _ _ ihp ihq =>
    rw [List.map_append, firstPresent_append, ← ihp, ← ihq]
    exact hread _ _

/-- That an empty theme makes way for the parent's changes nothing. -/
theorem theme_nested (p parent : Provider) :
    (p.nested parent).theme =
      { common := p.theme.common.or parent.theme.common
        components := NameMap.mergeWith Definition.merge parent.theme.components p.theme.components } := by
  obtain ⟨_, _, _, ⟨common, components⟩, _⟩ := p
  cases common with
  | some t => rfl
  | none =>
    cases components with
    -- the only empty theme, and layering it changes nothing either
    | nil => rfl
    | cons name d h rest => rfl

theorem inherits_themeCommon : Inherits fun p => p.theme.common := fun parent p => by
  show (p.nested parent).theme.common = _
  rw [theme_nested]

theorem inherits_definition {β : Type} {read : Definition → Option β} (hread : ReadsTop Definition.merge read)
    (id : String) : Inherits fun p => (p.theme.components.get? id).bind read := fun parent p => by
  show ((p.nested parent).theme.components.get? id).bind read = _
  rw [theme_nested]
  exact hread.bind_get?_mergeWith _ _ id

theorem inherits_overridesCommon (name : String) : Inherits fun p => p.overrides.common.bind (Entries.get? name) :=
  fun parent p => (readsTop_get? name).bind_merge parent.overrides.common p.overrides.common

theorem inherits_patch {β : Type} {read : Override → Option β} (hread : ReadsTop Override.merge read) (id : String) :
    Inherits fun p => (p.overrides.components.get? id).bind read :=
  fun parent p => hread.bind_get?_mergeWith parent.overrides.components p.overrides.components id

/-! ### Merged themes -/

/-- With providers inside each other, the innermost first, tokens come from the instance, then from the overrides of
the component in each provider, then from those of each application, and then from the base; the definitions of the
component are one layer of the base, in which each provider's tokens lie on those of the providers around it. -/
theorem resolve_collapsed {ps : List Provider} {p : Provider} (hps : Collapses ps p) {id : String}
    {default : Definition} {inst : Instance} {m : MergedTheme} (h : resolve id default inst (some p) = .ok m) :
    ∃ own base g,
      (∀ name, own.bind (Entries.get? name) =
        lookup name (ps.map fun q => (q.theme.components.get? id).bind Definition.common)) ∧
      (own = none ↔ ∀ q ∈ ps, (q.theme.components.get? id).bind Definition.common = none) ∧
      firstPresent [inst.theme.bind Definition.common, own, firstPresent (ps.map fun q => q.theme.common),
        default.common] = some base ∧
      firstPresent ([inst.theme.bind Definition.generator] ++
        (ps.map fun q => (q.theme.components.get? id).bind Definition.generator) ++ [default.generator]) = some g ∧
      (∀ name, m.common.get? name = lookup name ([inst.overrides.bind Override.common] ++
        (ps.map fun q => (q.overrides.components.get? id).bind Override.common) ++
        (ps.map fun q => q.overrides.common) ++ [some base, default.common])) ∧
      ∀ name, m.tokens.get? name = lookup name ([inst.overrides.map Override.tokens] ++
        (ps.map fun q => (q.overrides.components.get? id).map Override.tokens) ++
        [inst.builtin.map Override.tokens, some (g m.common)]) := by
  obtain ⟨base, g, hb, hg, rfl⟩ := (resolve_eq_ok_iff ..).1 h
  refine ⟨(p.theme.components.get? id).bind Definition.common, base, g, fun name => ?_, ?_, ?_, ?_, fun name => ?_,
    fun name => ?_⟩
  · have hread := (inherits_definition (Definition.readsTop_common name) id).of_collapses hps
    simp only [lookup, List.map_map, Function.comp_def, Option.bind_assoc]
    exact hread
  · have hread := (inherits_definition Definition.readsTop_hasCommon id).of_collapses hps
    have habsent : (p.theme.components.get? id).bind Definition.common = none ↔
        ∀ d ∈ ps.map fun q => q.theme.components.get? id, d.bind Definition.common = none :=
      bind_eq_none_iff_of_firstPresent (by simpa [Function.comp_def] using hread)
    simpa using habsent
  · rw [← inherits_themeCommon.of_collapses hps, ← hb]
    rfl
  · have hread := (inherits_definition Definition.readsTop_generator id).of_collapses hps
    rw [firstPresent_append, firstPresent_append, ← hread, ← hg]
    simp [generatorOf, definitionOf, Option.or_assoc]
  · have hpatch := (inherits_patch (Override.readsTop_common? name) id).of_collapses hps
    have hcommon := (inherits_overridesCommon name).of_collapses hps
    rw [get?_common_compose]
    simp only [commonLayers, patchOf, lookup_append, lookup_cons, Override.bind_common, Option.bind_some, lookup_map,
      ← hpatch, ← hcommon]
    simp [Option.or_assoc]
  · have hpatch := (inherits_patch (Override.readsTop_token? name) id).of_collapses hps
    rw [get?_tokens_compose]
    simp only [ownLayers, patchOf, lookup_append, lookup_cons, Override.bind_tokens, Option.bind_some, lookup_map,
      ← hpatch]
    simp [Option.or_assoc]

/-- Of two providers around each other, the outer one's overrides of the component beat what the inner one has for the
whole application, and its definition shows where the inner one's has nothing. -/
theorem resolve_collapsed_button :
    let text (names : List String) (s : String) : TokenMap := NameMap.ofList (names.map fun n => (n, .text s))
    let default := ((Definition.new "Button").withCommon (text ["a", "b", "c", "d"] "default")).withGenerator
      fun common => common
    let inner : Provider := {
      theme := { components := NameMap.insert ∅ "Button" ((Definition.new "").withCommon (text ["a"] "inner")) }
      overrides := { common := some (text ["c"] "inner application") } }
    let outer : Provider := {
      theme := { components := NameMap.insert ∅ "Button" ((Definition.new "").withCommon (text ["a", "b"] "outer")) }
      overrides := {
        components := NameMap.insert ∅ "Button" (Override.empty.withCommonToken "c" (.text "outer component")) } }
    ∃ m, resolve "Button" default {} (some (inner.nested outer)) = .ok m ∧
      m.common.get? "a" = some (.text "inner") ∧ m.common.get? "b" = some (.text "outer") ∧
      m.common.get? "c" = some (.text "outer component") ∧ m.common.get? "d" = some (.text "default") ∧
      m.tokens.get? "c" = some (.text "outer component") := by
  intro text default inner outer
  have hps : Collapses [inner, outer] (inner.nested outer) := .nested (.single inner) (.single outer)
  obtain ⟨m, h⟩ : ∃ m, resolve "Button" default {} (some (inner.nested outer)) = .ok m :=
    ⟨_, (resolve_eq_ok_iff ..).2 ⟨_, _, rfl, rfl, rfl⟩⟩
  obtain ⟨own, base, g, hown, hnone, hbase, hg, hcommon, htokens⟩ := resolve_collapsed hps h
  cases own with
  | none => cases hnone.1 rfl inner (by simp)
  | some own =>
    cases hbase
    cases hg
    have ha : base.get? "a" = some (.text "inner") := hown "a"
    have hb : base.get? "b" = some (.text "outer") := hown "b"
    have hd : base.get? "d" = none := hown "d"
    have hmc : m.common.get? "c" = some (.text "outer component") := hcommon "c"
    refine ⟨m, h, ?_, ?_, hmc, ?_, ?_⟩
    · rw [hcommon, lookup_append, lookup_cons, Option.bind_some, ha]
      rfl
    · rw [hcommon, lookup_append, lookup_cons, Option.bind_some, hb]
      rfl
    · rw [hcommon, lookup_append, lookup_cons, Option.bind_some, hd]
      rfl
    · rw [htokens, lookup_append, lookup_cons, lookup_cons, Option.bind_some, hmc]
      rfl

end Theming
