import Theming.Proofs.Layers

/-!
# Where the tokens of a merged theme come from

Every token of a merged theme is the one of the first layer that has it.  For common tokens these are the overrides of
the instance, of the component and of the application, then the base, which is one whole map, then the default theme;
for own tokens they are the overrides of the instance and of the component, the built-in ones, and what the generator
makes of the merged common tokens (`resolve_precedence`).
-/

namespace Theming

/-! ### The layers of a theme -/

/-- The provider's definition of a component. -/
def definitionOf (provider : Option Provider) (id : String) : Option Definition :=
  provider.bind fun p => p.theme.components.get? id

/-- The provider's overrides of a component. -/
def patchOf (provider : Option Provider) (id : String) : Option Override :=
  provider.bind fun p => p.overrides.components.get? id

/-- The common tokens to start from: all of the first layer that has any. -/
def baseOf (id : String) (default : Definition) (inst : Instance) (provider : Option Provider) : Option TokenMap :=
  firstPresent [inst.theme.bind Definition.common, (definitionOf provider id).bind Definition.common,
    provider.bind fun p => p.theme.common, default.common]

def generatorOf (id : String) (default : Definition) (inst : Instance) (provider : Option Provider) :
    Option Generator :=
  firstPresent [inst.theme.bind Definition.generator, (definitionOf provider id).bind Definition.generator,
    default.generator]

/-- What common tokens are read from, the strongest layer first. -/
def commonLayers (id : String) (default : Definition) (inst : Instance) (provider : Option Provider)
    (base : TokenMap) : List (Option TokenMap) :=
  [inst.overrides.bind Override.common, (patchOf provider id).bind Override.common,
    provider.bind fun p => p.overrides.common, some base, default.common]

/-- What own tokens are read from, the strongest layer first. -/
def ownLayers (id : String) (inst : Instance) (provider : Option Provider) (generated : TokenMap) :
    List (Option TokenMap) :=
  [inst.overrides.map Override.tokens, (patchOf provider id).map Override.tokens,
    inst.builtin.map Override.tokens, some generated]

/-! ### Resolution as a choice and a layering -/

/-- The layers put together, once base and generator are settled. -/
def MergedTheme.compose (id : String) (default : Definition) (inst : Instance) (provider : Option Provider)
    (base : TokenMap) (g : Generator) : MergedTheme :=
  let common := layered NameMap.merge ((default.common.map (base.underlay ·)).getD base)
    [provider.bind fun p => p.overrides.common, (patchOf provider id).bind Override.common,
      inst.overrides.bind Override.common]
  { common
    tokens := layered NameMap.merge (g common)
      [inst.builtin.map Override.tokens, (patchOf provider id).map Override.tokens,
        inst.overrides.map Override.tokens]
    peers := layered (NameMap.mergeWith Definition.merge) default.peers
      [(definitionOf provider id).map Peered.peers, inst.theme.map Peered.peers]
    peerOverrides := layered (NameMap.mergeWith Override.merge) ∅
      [(patchOf provider id).map Peered.peers, inst.overrides.map Peered.peers] }

section Resolve

variable (id : String) (default : Definition) (inst : Instance) (provider : Option Provider)

theorem resolve_eq :
    resolve id default inst provider =
      match baseOf id default inst provider, generatorOf id default inst provider with
      | none, _ => .error (.missingCommon id)
      | some _, none => .error (.missingGenerator id)
      | some base, some g => .ok (.compose id default inst provider base g) := by
  unfold resolve
  extract_lets definition patch
  have hb : (inst.theme.bind Definition.common).or ((definition.bind Definition.common).or
      ((provider.bind fun p => p.theme.common).or default.common)) = baseOf id default inst provider := by
    simp [baseOf, definition, definitionOf]
  have hg : (inst.theme.bind Definition.generator).or ((definition.bind Definition.generator).or
      default.generator) = generatorOf id default inst provider := by
    simp [generatorOf, definition, definitionOf]
  rw [hb]
  cases baseOf id default inst provider with
  | none => rfl
  | some base =>
    dsimp only
    rw [hg]
    cases generatorOf id default inst provider with
    | none => rfl
    | some g => rfl

theorem resolve_eq_ok_iff {m : MergedTheme} :
    resolve id default inst provider = .ok m ↔
      ∃ base g, baseOf id default inst provider = some base ∧ generatorOf id default inst provider = some g ∧
        m = .compose id default inst provider base g := by
  rw [resolve_eq]
  cases baseOf id default inst provider with
  | none => simp
  | some base =>
    cases generatorOf id default inst provider with
    | none => simp
    | some g => simp [eq_comm]

/-- The default theme fills in what the base lacks. -/
private theorem get?_filled (base : TokenMap) (filling : Option TokenMap) (name : String) :
    ((filling.map (base.underlay ·)).getD base).get? name = lookup name [some base, filling] := by
  cases filling with
  | none => simp
  | some t => simp [NameMap.get?_underlay]

theorem get?_common_compose (base : TokenMap) (g : Generator) (name : String) :
    (MergedTheme.compose id default inst provider base g).common.get? name =
      lookup name (commonLayers id default inst provider base) := by
  have filled := get?_filled base default.common name
  simp only [lookup_cons, lookup_nil, Option.or_none, Option.bind_some] at filled
  show (layered NameMap.merge _ _).get? name = _
  rw [get?_layered]
  simp [commonLayers, filled]

theorem get?_tokens_compose (base : TokenMap) (g : Generator) (name : String) :
    (MergedTheme.compose id default inst provider base g).tokens.get? name =
      lookup name (ownLayers id inst provider (g (MergedTheme.compose id default inst provider base g).common)) :=
  get?_layered _ _ name

theorem bind_peers_compose {β : Type} {read : Definition → Option β} (hread : ReadsTop Definition.merge read)
    (base : TokenMap) (g : Generator) (name : String) (path : List String) :
    (((MergedTheme.compose id default inst provider base g).peers.get? name).bind (·.at? path)).bind read =
      firstPresent ([inst.theme, definitionOf provider id, some default].map fun d =>
        (d.bind (·.at? (name :: path))).bind read) :=
  hread.bind_peers_layered default.peers [definitionOf provider id, inst.theme] name path

theorem bind_peerOverrides_compose {β : Type} {read : Override → Option β} (hread : ReadsTop Override.merge read)
    (base : TokenMap) (g : Generator) (name : String) (path : List String) :
    (((MergedTheme.compose id default inst provider base g).peerOverrides.get? name).bind (·.at? path)).bind read =
      firstPresent ([inst.overrides, patchOf provider id].map fun o => (o.bind (·.at? (name :: path))).bind read) := by
  have h := hread.bind_peers_layered ∅ [patchOf provider id, inst.overrides] name path
  exact h.trans (by simp)

end Resolve

/-- A map that reads as layers has the names of all of them, and no other. -/
theorem mem_keys_of_get?_eq_lookup {t : TokenMap} {layers : List (Option TokenMap)}
    (h : ∀ name, t.get? name = lookup name layers) (name : String) :
    name ∈ t.keys ↔ ∃ layer, some layer ∈ layers ∧ name ∈ layer.keys := by
  rw [t.mem_keys_iff, h name, lookup_isSome_iff]

/-- Every token of a merged theme is that of the first layer with its name, and there are no other names.  The base of
the common tokens is a single map, below which only the default theme shows. -/
theorem resolve_precedence {id : String} {default : Definition} {inst : Instance} {provider : Option Provider}
    {m : MergedTheme} (h : resolve id default inst provider = .ok m) :
    ∃ base g, baseOf id default inst provider = some base ∧ generatorOf id default inst provider = some g ∧
      (∀ name, m.common.get? name = lookup name (commonLayers id default inst provider base)) ∧
      (∀ name, m.tokens.get? name = lookup name (ownLayers id inst provider (g m.common))) ∧
      (∀ name, name ∈ m.common.keys ↔
        ∃ t, some t ∈ commonLayers id default inst provider base ∧ name ∈ t.keys) ∧
      (∀ name, name ∈ m.tokens.keys ↔
        ∃ t, some t ∈ ownLayers id inst provider (g m.common) ∧ name ∈ t.keys) ∧
      ∀ t, default.common = some t → ∀ name ∈ t.keys, name ∈ m.common.keys := by
  obtain ⟨base, g, hb, hg, rfl⟩ := (resolve_eq_ok_iff ..).1 h
  have hcommon := get?_common_compose id default inst provider base g
  have htokens := get?_tokens_compose id default inst provider base g
  have hkeys := mem_keys_of_get?_eq_lookup hcommon
  refine ⟨base, g, hb, hg, hcommon, htokens, hkeys, mem_keys_of_get?_eq_lookup htokens, ?_⟩
  intro t ht name hn
  exact (hkeys name).2 ⟨t, by simp [commonLayers, ht], hn⟩

/-- With something in most of the layers, the tokens come from seven different ones. -/
theorem resolve_precedence_button :
    let text (names : List String) (s : String) : TokenMap := NameMap.ofList (names.map fun n => (n, .text s))
    let default := ((Definition.new "Button").withCommon (text ["a", "b", "c", "d"] "default")).withGenerator
      fun common => common
    let inst : Instance := {
      overrides := some (Override.empty.withCommonToken "a" (.text "instance"))
      builtin := some (.mk { tokens := text ["b", "c"] "builtin" } ∅) }
    let provider : Provider := {
      theme := { components := NameMap.insert ∅ "Button" ((Definition.new "").withCommon (text ["a", "c"] "base")) }
      overrides := {
        common := some (text ["a", "b"] "application")
        components := NameMap.insert ∅ "Button" (Override.empty.withToken "b" (.text "component")) } }
    ∃ m, resolve "Button" default inst (some provider) = .ok m ∧
      m.common.get? "a" = some (.text "instance") ∧ m.common.get? "b" = some (.text "application") ∧
      m.common.get? "c" = some (.text "base") ∧ m.common.get? "d" = some (.text "default") ∧
      m.tokens.get? "a" = some (.text "instance") ∧ m.tokens.get? "b" = some (.text "component") ∧
      m.tokens.get? "c" = some (.text "builtin") := by
  intro text default inst provider
  obtain ⟨m, h⟩ : ∃ m, resolve "Button" default inst (some provider) = .ok m :=
    ⟨_, (resolve_eq_ok_iff ..).2 ⟨_, _, rfl, rfl, rfl⟩⟩
  obtain ⟨base, g, hb, hg, hcommon, htokens, -⟩ := resolve_precedence h
  cases hb
  cases hg
  have ha : m.common.get? "a" = some (.text "instance") := by rw [hcommon]; rfl
  refine ⟨m, h, ha, ?_, ?_, ?_, ?_, ?_, ?_⟩
  · rw [hcommon]; rfl
  · rw [hcommon]; rfl
  · rw [hcommon]; rfl
  · rw [htokens]
    simp only [ownLayers, lookup_cons, lookup_nil, Option.or_none]
    exact ha
  · rw [htokens]; rfl
  · rw [htokens]; rfl

end Theming
