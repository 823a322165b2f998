import Theming.Proofs.Config.Members

/-!
# What overrides say

What is read from an object is told by its members, name by name: each section is read from what stands under its name,
and everything else from the members that stand outside the sections (`Override.Means`, `GlobalOverrides.Means`).
-/

namespace Theming

/-- The members of a value, if it is an object. -/
def Value.members : Value → List (String × Value)
  | .object members => members
  | _ => []

/-- The members of what stands under the name of a section. -/
def sectionMembers (name : String) (members : List (String × Value)) : List (String × Value) :=
  (named name members).flatMap Value.members

/-- Common tokens are there if there is a section of them that is not null, and are those in it, of each name the last
one. -/
structure MeansCommon (members : List (String × Value)) (common : Option TokenMap) : Prop where
  absent : common = none ↔ ∀ v ∈ named "common" members, v = .null
  tokens (m : TokenMap) (name : String) : common = some m →
    m.get? name = (named name (sectionMembers "common" members)).getLast?.bind Token.ofValue?

/-- The peers are those in the section of peers, and the own tokens are the members outside the sections, of each name
the last one. -/
structure Override.Means (members : List (String × Value)) (o : Override) : Prop where
  common : MeansCommon members o.common
  peers (name : String) :
    o.peers.get? name = (named name (sectionMembers "peers" members)).getLast?.bind ofValue?
  tokens (name : String) :
    o.tokens.get? name = if IsOwnName name then (named name members).getLast?.bind Token.ofValue? else none

/-- The components are the members outside the common section, of each name the last one. -/
structure GlobalOverrides.Means (members : List (String × Value)) (o : GlobalOverrides) : Prop where
  common : MeansCommon members o.common
  components (name : String) :
    o.components.get? name = if name ≠ "common" then (named name members).getLast?.bind Override.ofValue? else none

theorem TokenMap.of_atMostOne? {vs : List Value} {c : Option (Option TokenMap)}
    (h : atMostOne? ofOptional? vs = some c) :
    (∀ v ∈ vs, v = .null) ∧ c.getD none = none ∨
      ∃ inner ts, vs = [.object inner] ∧ readMembers? Token.ofValue? inner = some ts ∧
        c.getD none = some (NameMap.ofList ts) := by
  rcases atMostOne?_cases h with ⟨rfl, rfl⟩ | ⟨v, a, rfl, ha, rfl⟩
  · exact .inl ⟨nofun, rfl⟩
  · cases v with
    | null =>
      obtain rfl := Option.some.inj ha
      exact .inl ⟨by simp, rfl⟩
    | object inner =>
      obtain ⟨m, hm, rfl⟩ := Option.map_eq_some_iff.1 ha
      obtain ⟨ts, hts, rfl⟩ := Option.map_eq_some_iff.1 hm
      exact .inr ⟨inner, ts, rfl, hts, rfl⟩
    | _ => cases ha

theorem means_common {members : List (String × Value)} {c : Option (Option TokenMap)}
    (h : atMostOne? TokenMap.ofOptional? (named "common" members) = some c) : MeansCommon members (c.getD none) := by
  rcases TokenMap.of_atMostOne? h with ⟨hnull, hc⟩ | ⟨inner, ts, hvs, hts, hc⟩
  · exact ⟨by simpa [hc] using hnull, fun m name hm => by rw [hc] at hm; cases hm⟩
  · refine ⟨by simp [hc, hvs], fun m name hm => ?_⟩
    obtain rfl := Option.some.inj (hc.symm.trans hm)
    rw [sectionMembers, hvs, get?_ofList_of_readMembers? hts]
    simp [Value.members]

namespace Override

/-- Whatever is read is read section by section. -/
theorem exists_of_ofValue? {v : Value} {o : Override} (h : ofValue? v = some o) :
    ∃ m : Members Token, o = .mk { common := m.common.getD none, tokens := NameMap.ofList m.others } (m.peers.getD ∅) ∧
      atMostOne? TokenMap.ofOptional? (named "common" v.members) = some m.common ∧
      atMostOne? ofPeers? (named "peers" v.members) = some m.peers ∧
      readMembers? Token.ofValue? (v.members.filter fun p => IsOwnName p.1) = some m.others := by
  cases v with
  | object members =>
    obtain ⟨m, hm, ho⟩ := Option.bind_eq_some_iff.1 h
    exact ⟨m, (Option.some.inj ho).symm, ofMembers?_eq_some_iff.1 hm⟩
  | _ => cases h

theorem peers_of_atMostOne? {vs : List Value} {c : Option (NameMap Override)} (h : atMostOne? ofPeers? vs = some c) :
    ∃ ps, readMembers? ofValue? (vs.flatMap Value.members) = some ps ∧ c.getD ∅ = NameMap.ofList ps := by
  rcases atMostOne?_cases h with ⟨rfl, rfl⟩ | ⟨v, a, rfl, ha, rfl⟩
  · exact ⟨[], rfl, rfl⟩
  · cases v with
    | object inner =>
      rw [ofPeers?_object] at ha
      obtain ⟨ps, hps, rfl⟩ := Option.map_eq_some_iff.1 ha
      exact ⟨ps, by simpa [Value.members] using hps, rfl⟩
    | _ => cases ha

theorem means_of_ofValue? {v : Value} {o : Override} (h : ofValue? v = some o) : Means v.members o := by
  obtain ⟨m, rfl, hcommon, hpeers, htokens⟩ := exists_of_ofValue? h
  obtain ⟨ps, hps, hofList⟩ := peers_of_atMostOne? hpeers
  refine ⟨means_common hcommon, fun name => ?_, fun name => ?_⟩
  · exact (congrArg _ hofList).trans (get?_ofList_of_readMembers? hps name)
  · refine (get?_ofList_of_readMembers? htokens name).trans ?_
    rw [named_filter fun n => decide (IsOwnName n)]
    simp only [decide_eq_true_iff]
    split <;> rfl

end Override

namespace GlobalOverrides

theorem exists_of_ofValue? {v : Value} {o : GlobalOverrides} (h : ofValue? v = some o) :
    ∃ (m : Override.Members Override),
      o = { common := m.common.getD none, components := NameMap.ofList m.others } ∧
      atMostOne? TokenMap.ofOptional? (named "common" v.members) = some m.common ∧
      readMembers? Override.ofValue? (v.members.filter fun p => p.1 ≠ "common") = some m.others := by
  cases v with
  | object members =>
    obtain ⟨m, hm, ho⟩ := Option.bind_eq_some_iff.1 h
    obtain ⟨hcommon, -, hothers⟩ := ofMembers?_eq_some_iff.1 hm
    exact ⟨m, (Option.some.inj ho).symm, hcommon, hothers⟩
  | _ => cases h

theorem means_of_ofValue? {v : Value} {o : GlobalOverrides} (h : ofValue? v = some o) : Means v.members o := by
  obtain ⟨m, rfl, hcommon, hothers⟩ := exists_of_ofValue? h
  refine ⟨means_common hcommon, fun name => (get?_ofList_of_readMembers? hothers name).trans ?_⟩
  rw [named_filter fun n => decide (n ≠ "common")]
  simp only [decide_eq_true_iff]
  split <;> rfl

end GlobalOverrides

end Theming
