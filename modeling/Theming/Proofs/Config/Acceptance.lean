import Theming.Proofs.Config.Members
import Theming.Proofs.Value

/-!
# Which values are overrides

An override is an object with at most one member for each of its sections, whose other members are tokens
(`IsOverride`); the overrides of an application are laid out like it, with overrides in place of tokens
(`IsGlobalOverrides`).  These are the values that are read, and no others are (`Override.isSome_ofValue?_iff`,
`GlobalOverrides.isSome_ofValue?_iff`).
-/

namespace Theming

/-- A flag, a number or a text. -/
def Value.IsScalar : Value → Prop
  | .flag _ | .number _ | .text _ => True
  | _ => False

/-- Null, or an object of tokens. -/
def IsCommonSection (v : Value) : Prop := v = .null ∨ ∃ members, v = .object members ∧ ∀ m ∈ members, m.2.IsScalar

/-- An object with at most one common section and at most one section of peers, which are overrides again, and otherwise
with tokens. -/
inductive IsOverride : Value → Prop
  | object {members : List (String × Value)}
      (oneCommon : (named "common" members).length ≤ 1)
      (common : ∀ v ∈ named "common" members, IsCommonSection v)
      (onePeers : (named "peers" members).length ≤ 1)
      (peers : ∀ v ∈ named "peers" members, ∃ inner, v = .object inner)
      (peer : ∀ inner, .object inner ∈ named "peers" members → ∀ name v, (name, v) ∈ inner → IsOverride v)
      (tokens : ∀ name v, (name, v) ∈ members → IsOwnName name → v.IsScalar) :
      IsOverride (.object members)

/-- An object with at most one common section, and otherwise with overrides. -/
inductive IsGlobalOverrides : Value → Prop
  | object {members : List (String × Value)}
      (oneCommon : (named "common" members).length ≤ 1)
      (common : ∀ v ∈ named "common" members, IsCommonSection v)
      (components : ∀ name v, (name, v) ∈ members → name ≠ "common" → IsOverride v) :
      IsGlobalOverrides (.object members)

theorem Token.isSome_ofValue?_iff {v : Value} : (Token.ofValue? v).isSome = true ↔ v.IsScalar := by
  cases v <;> simp [Token.ofValue?, Value.IsScalar]

theorem TokenMap.isSome_ofOptional?_iff {v : Value} : (ofOptional? v).isSome = true ↔ IsCommonSection v := by
  cases v with
  | null => simp [ofOptional?, IsCommonSection]
  | object members =>
    have hmembers : (ofMembers? members).isSome = true ↔ ∀ m ∈ members, m.2.IsScalar := by
      rw [ofMembers?, Option.isSome_map]
      exact isSome_readMembers?_iff.trans (by simp only [Token.isSome_ofValue?_iff])
    simpa [ofOptional?, ofValue?, IsCommonSection] using hmembers
  | _ => simp [ofOptional?, ofValue?, IsCommonSection]

/-! ### Overrides -/

namespace Override

theorem isSome_ofPeers?_iff {v : Value} :
    (ofPeers? v).isSome = true ↔ ∃ inner, v = .object inner ∧ ∀ m ∈ inner, (ofValue? m.2).isSome = true := by
  cases v with
  | object inner => simp [ofPeers?_object, isSome_readMembers?_iff]
  | _ => simp [ofPeers?]

/-- An object is an override just if its sections and its other members are what they should be. -/
theorem isSome_ofValue?_object_iff {members : List (String × Value)} :
    (ofValue? (.object members)).isSome = true ↔
      ((named "common" members).length ≤ 1 ∧ ∀ v ∈ named "common" members, IsCommonSection v) ∧
      ((named "peers" members).length ≤ 1 ∧ ∀ v ∈ named "peers" members,
        ∃ inner, v = .object inner ∧ ∀ m ∈ inner, (ofValue? m.2).isSome = true) ∧
      ∀ m ∈ members, IsOwnName m.1 → m.2.IsScalar := by
  have hmembers : (ofValue? (.object members)).isSome = (ofMembers? members).isSome := by
    rw [ofValue?]
    cases ofMembers? members <;> rfl
  simp only [hmembers, isSome_ofMembers?_iff, isSome_atMostOne?_iff, isSome_readMembers?_iff,
    TokenMap.isSome_ofOptional?_iff, isSome_ofPeers?_iff, Token.isSome_ofValue?_iff, List.mem_filter,
    decide_eq_true_iff, and_imp]

theorem isSome_ofValue?_iff {v : Value} : (ofValue? v).isSome = true ↔ IsOverride v := by
  constructor
  · -- peers are looked up in their section, so the induction is on how deep the value is
    intro h
    induction hd : v.depth using Nat.strongRecOn generalizing v with
    | ind d ih =>
      cases v with
      | object members =>
        obtain ⟨⟨oneCommon, common⟩, ⟨onePeers, peers⟩, tokens⟩ := isSome_ofValue?_object_iff.1 h
        refine .object oneCommon common onePeers (fun v hv => ?_) (fun inner hinner name u hu => ?_)
          fun name v hv => tokens (name, v) hv
        · obtain ⟨inner, hv', -⟩ := peers v hv
          exact ⟨inner, hv'⟩
        · obtain ⟨inner', heq, hread⟩ := peers _ hinner
          obtain rfl := Value.object.inj heq
          have hlt := Nat.lt_trans (Value.depth_lt_of_mem hu) (Value.depth_lt_of_mem (mem_named_iff.1 hinner))
          exact ih u.depth (hd ▸ hlt) (hread (name, u) hu) rfl
      | _ => cases h
  · intro h
    induction h with
    | object oneCommon common onePeers peers _ tokens ih =>
      refine isSome_ofValue?_object_iff.2 ⟨⟨oneCommon, common⟩, ⟨onePeers, fun v hv => ?_⟩, fun m => tokens m.1 m.2⟩
      obtain ⟨inner, rfl⟩ := peers v hv
      exact ⟨inner, rfl, fun m hm => ih inner hv m.1 m.2 hm⟩

end Override

/-! ### Overrides of an application -/

namespace GlobalOverrides

theorem isSome_ofValue?_object_iff {members : List (String × Value)} :
    (ofValue? (.object members)).isSome = true ↔
      ((named "common" members).length ≤ 1 ∧ ∀ v ∈ named "common" members, IsCommonSection v) ∧
      ∀ m ∈ members, m.1 ≠ "common" → IsOverride m.2 := by
  have hmembers : (ofValue? (.object members)).isSome = (ofMembers? members).isSome := by
    rw [ofValue?]
    cases ofMembers? members <;> rfl
  simp only [hmembers, isSome_ofMembers?_iff, isSome_atMostOne?_iff, isSome_readMembers?_iff,
    TokenMap.isSome_ofOptional?_iff, Override.isSome_ofValue?_iff, List.mem_filter, decide_eq_true_iff, and_imp]

theorem isSome_ofValue?_iff {v : Value} : (ofValue? v).isSome = true ↔ IsGlobalOverrides v := by
  constructor
  · intro h
    cases v with
    | object members =>
      obtain ⟨⟨oneCommon, common⟩, components⟩ := isSome_ofValue?_object_iff.1 h
      exact .object oneCommon common fun name v hv => components (name, v) hv
    | _ => cases h
  · rintro ⟨oneCommon, common, components⟩
    exact isSome_ofValue?_object_iff.2 ⟨⟨oneCommon, common⟩, fun m hm => components m.1 m.2 hm⟩

end GlobalOverrides

end Theming
