import Theming.Proofs.Resolution.Precedence

/-!
# Peers of a merged theme

The peers of a merged theme are those of the default theme, of the provider's definition of the component and of the
instance's theme, laid on each other at every path; the overrides of its peers are those of the provider's overrides of
the component and of the instance.  A definition or an override stands at a path if one of these has one there, and
each part of it is that of the strongest layer that has the part (`resolve_peers`).
-/

namespace Theming

/-- At every path of peers, what a merged theme has is there if one of the layers has something there, and so are its
common tokens; name, generator and each token are those of the strongest layer that has them.  Nothing else counts:
neither the built-in overrides nor what a provider has for other components. -/
theorem resolve_peers {id : String} {default : Definition} {inst : Instance} {provider : Option Provider}
    {m : MergedTheme} (h : resolve id default inst provider = .ok m) :
    (∀ name path,
      let layers := [inst.theme, definitionOf provider id, some default].map (·.bind (·.at? (name :: path)))
      let merged := (m.peers.get? name).bind (·.at? path)
      (merged = none ↔ ∀ d ∈ layers, d = none) ∧
      (merged.bind Definition.common = none ↔ ∀ d ∈ layers, d.bind Definition.common = none) ∧
      (∀ key, (merged.bind Definition.common).bind (Entries.get? key) =
        lookup key (layers.map (·.bind Definition.common))) ∧
      merged.bind Definition.generator = firstPresent (layers.map (·.bind Definition.generator)) ∧
      merged.bind Definition.name? = firstPresent (layers.map (·.bind Definition.name?))) ∧
    (∀ name path,
      let layers := [inst.overrides, patchOf provider id].map (·.bind (·.at? (name :: path)))
      let merged := (m.peerOverrides.get? name).bind (·.at? path)
      (merged = none ↔ ∀ o ∈ layers, o = none) ∧
      (merged.bind Override.common = none ↔ ∀ o ∈ layers, o.bind Override.common = none) ∧
      (∀ key, (merged.bind Override.common).bind (Entries.get? key) =
        lookup key (layers.map (·.bind Override.common))) ∧
      ∀ key, (merged.map Override.tokens).bind (Entries.get? key) =
        lookup key (layers.map (·.map Override.tokens))) ∧
    ∀ inst' provider' m', resolve id default inst' provider' = .ok m' →
      inst'.theme = inst.theme → inst'.overrides = inst.overrides →
      definitionOf provider' id = definitionOf provider id → patchOf provider' id = patchOf provider id →
      m'.peers = m.peers ∧ m'.peerOverrides = m.peerOverrides := by
  obtain ⟨base, g, -, -, rfl⟩ := (resolve_eq_ok_iff ..).1 h
  refine ⟨fun name path => ?_, fun name path => ?_, ?_⟩
  · intro layers merged
    have hread : ∀ {β : Type} {read : Definition → Option β}, ReadsTop Definition.merge read →
        merged.bind read = firstPresent (layers.map (·.bind read)) := fun hread =>
      bind_peers_compose id default inst provider hread base g name path
    refine ⟨?_, bind_eq_none_iff_of_firstPresent (hread Definition.readsTop_hasCommon), fun key => ?_,
      hread Definition.readsTop_generator, hread Definition.readsTop_name?⟩
    · have hpresent := bind_eq_none_iff_of_firstPresent (hread (readsTop_present Definition.merge))
      simpa using hpresent
    · rw [Option.bind_assoc, hread (Definition.readsTop_common key)]
      simp [lookup, Function.comp_def, Option.bind_assoc]
  · intro layers merged
    have hread : ∀ {β : Type} {read : Override → Option β}, ReadsTop Override.merge read →
        merged.bind read = firstPresent (layers.map (·.bind read)) := fun hread =>
      bind_peerOverrides_compose id default inst provider hread base g name path
    refine ⟨?_, bind_eq_none_iff_of_firstPresent (hread Override.readsTop_hasCommon), fun key => ?_, fun key => ?_⟩
    · have hpresent := bind_eq_none_iff_of_firstPresent (hread (readsTop_present Override.merge))
      simpa using hpresent
    · rw [Override.bind_common, hread (Override.readsTop_common? key), lookup_map]
      simp [Override.bind_common]
    · rw [Override.bind_tokens, hread (Override.readsTop_token? key), lookup_map]
      simp [Override.bind_tokens]
  · intro inst' provider' m' h' htheme hoverrides hdefinition hpatch
    obtain ⟨base', g', -, -, rfl⟩ := (resolve_eq_ok_iff ..).1 h'
    constructor
    · simp only [MergedTheme.compose, htheme, hdefinition]
    · simp only [MergedTheme.compose, hoverrides, hpatch]

/-- A peer that all layers have, one inside it that only the instance has, and overrides of both. -/
theorem resolve_peers_icon :
    let text (names : List String) (s : String) : TokenMap := NameMap.ofList (names.map fun n => (n, .text s))
    let icon (name : String) (tokens : TokenMap) : Definition := (Definition.new name).withCommon tokens
    let default := (((Definition.new "Button").withCommon ∅).withGenerator fun _ => ∅).withPeer "Icon"
      (icon "Icon" (text ["a", "b"] "default"))
    let inst : Instance := {
      theme := some ((Definition.new "").withPeer "Icon"
        ((icon "" (text ["a"] "instance")).withPeer "Glyph" (Definition.new "Glyph")))
      overrides := some (Override.empty.withPeer "Icon" (Override.empty.withToken "x" (.text "instance")))
      builtin := some (Override.empty.withPeer "Icon" (Override.empty.withToken "z" (.text "builtin"))) }
    let definition := (Definition.new "").withPeer "Icon" (icon "Provided" (text ["a", "c"] "provider"))
    let patch := Override.empty.withPeer "Icon" (((Override.empty.withToken "x" (.text "provider")).withToken "y"
      (.text "provider")).withPeer "Glyph" (Override.empty.withCommonToken "w" (.text "provider")))
    let provider : Provider := {
      theme := { components := NameMap.insert ∅ "Button" definition }
      overrides := { components := NameMap.insert ∅ "Button" patch } }
    ∃ m, resolve "Button" default inst (some provider) = .ok m ∧
      (m.peers.get? "Icon").bind Definition.name? = some "Provided" ∧
      ((m.peers.get? "Icon").bind Definition.common).bind (Entries.get? "a") = some (.text "instance") ∧
      ((m.peers.get? "Icon").bind Definition.common).bind (Entries.get? "b") = some (.text "default") ∧
      ((m.peers.get? "Icon").bind (·.at? ["Glyph"])).bind Definition.name? = some "Glyph" ∧
      ((m.peerOverrides.get? "Icon").map Override.tokens).bind (Entries.get? "x") = some (.text "instance") ∧
      ((m.peerOverrides.get? "Icon").map Override.tokens).bind (Entries.get? "y") = some (.text "provider") ∧
      ((m.peerOverrides.get? "Icon").map Override.tokens).bind (Entries.get? "z") = none ∧
      (((m.peerOverrides.get? "Icon").bind (·.at? ["Glyph"])).bind Override.common).bind (Entries.get? "w") =
        some (.text "provider") := by
  intro text icon default inst definition patch provider
  obtain ⟨m, h⟩ : ∃ m, resolve "Button" default inst (some provider) = .ok m := ⟨_, rfl⟩
  obtain ⟨hpeers, hpatches, -⟩ := resolve_peers h
  obtain ⟨-, -, hcommon, -, hname⟩ := hpeers "Icon" []
  obtain ⟨-, -, -, -, hglyph⟩ := hpeers "Icon" ["Glyph"]
  obtain ⟨-, -, -, htokens⟩ := hpatches "Icon" []
  obtain ⟨-, -, hw, -⟩ := hpatches "Icon" ["Glyph"]
  simp only [Peered.at?, Option.bind_fun_some] at hcommon hname htokens
  exact ⟨m, h, hname, hcommon "a", hcommon "b", hglyph, htokens "x", htokens "y", htokens "z", hw "w"⟩

end Theming
