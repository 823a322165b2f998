import Theming.Proofs.Config.Equality
import Theming.Proofs.Config.Members
import Theming.Proofs.Value

/-!
# Configurations as values

Own tokens and components stand in one object with the sections, so one that has the name of a section is not read back.
That is all that can go wrong between configurations and values: with free names a configuration is read back
(`ofValue?_toValue`), and whatever is read has free names and says no more than the value that it is read from
(`within_of_ofValue?`).
-/

namespace Theming

/-! ### Tokens -/

namespace Token

theorem ofValue?_toValue (t : Token) : ofValue? t.toValue = some t := by
  cases t <;> rfl

theorem toValue_of_ofValue? {v : Value} {t : Token} (h : ofValue? v = some t) : t.toValue = v := by
  cases v <;> cases h <;> rfl

theorem depth_toValue (t : Token) : t.toValue.depth = 0 := by
  cases t <;> rfl

theorem leaves_toValue (t : Token) : t.toValue.leaves = [t.toValue] := by
  cases t <;> rfl

theorem toValue_mem_leaves (t : Token) : t.toValue ∈ t.toValue.leaves := by
  rw [leaves_toValue]
  exact List.mem_singleton_self _

end Token

namespace TokenMap

theorem ofValue?_toValue (m : TokenMap) : ofValue? m.toValue = some m := by
  have hread : ∀ p : String × Token, (Token.ofValue? p.2.toValue).map (p.1, ·) = some p := by
    intro p
    rw [p.2.ofValue?_toValue, Option.map_some]
  rw [toValue, ofValue?, ofMembers?, toMembers, mapM_map_eq_some hread, Option.map_some, NameMap.ofList_toList]

theorem depth_toValue (m : TokenMap) : m.toValue.depth = 1 := by
  have hmembers : Value.objectDepth m.toMembers ≤ 0 := by
    refine Value.objectDepth_le_iff.2 fun name v hv => ?_
    obtain ⟨p, -, hp⟩ := List.mem_map.1 hv
    obtain ⟨-, rfl⟩ := Prod.mk.inj hp
    exact Nat.le_of_eq p.2.depth_toValue
  rw [toValue, Value.depth, Nat.le_zero.1 hmembers]

theorem mem_toMembers_iff {m : TokenMap} {name : String} {v : Value} :
    (name, v) ∈ m.toMembers ↔ ∃ t, (name, t) ∈ m.toList ∧ t.toValue = v := by
  simp [toMembers]

theorem mem_leaves_toValue_iff {m : TokenMap} {l : Value} : l ∈ m.toValue.leaves ↔ ∃ t ∈ m.values, t.toValue = l := by
  rw [toValue, Value.mem_leaves_object]
  constructor
  · rintro ⟨name, v, hv, hl⟩
    obtain ⟨t, ht, rfl⟩ := mem_toMembers_iff.1 hv
    rw [Token.leaves_toValue, List.mem_singleton] at hl
    exact ⟨t, Entries.mem_values_iff.2 ⟨name, ht⟩, hl.symm⟩
  · rintro ⟨t, ht, rfl⟩
    obtain ⟨name, hname⟩ := Entries.mem_values_iff.1 ht
    exact ⟨name, t.toValue, mem_toMembers_iff.2 ⟨t, hname, rfl⟩, t.toValue_mem_leaves⟩

/-- What is read as a common section is in the text. -/
theorem of_ofOptional? {v : Value} {m : TokenMap} (h : ofOptional? v = some (some m)) :
    (∀ t ∈ m.values, t.toValue ∈ v.leaves) ∧ m.toValue.depth ≤ v.depth := by
  have hm : ofValue? v = some m := by
    unfold ofOptional? at h
    split at h
    · cases h
    · obtain ⟨m', hm', hsome⟩ := Option.map_eq_some_iff.1 h
      rwa [Option.some.inj hsome] at hm'
  cases v with
  | object members =>
    obtain ⟨pairs, hpairs, rfl⟩ := Option.map_eq_some_iff.1 hm
    refine ⟨fun t ht => ?_, by rw [depth_toValue]; exact Nat.succ_pos _⟩
    obtain ⟨name, hname⟩ := Entries.mem_values_iff.1 ht
    obtain ⟨u, hu, hread⟩ := exists_of_mem_readMembers? hpairs (NameMap.mem_of_mem_ofList hname)
    obtain rfl := Token.toValue_of_ofValue? hread
    exact Value.mem_leaves_object.2 ⟨name, t.toValue, hu, t.toValue_mem_leaves⟩
  | _ => cases hm

theorem mem_sectionMember_iff {common : Option TokenMap} {name : String} {v : Value} :
    (name, v) ∈ sectionMember common ↔ ∃ m, common = some m ∧ name = "common" ∧ v = m.toValue := by
  cases common <;> simp [sectionMember]

end TokenMap

/-! ### Overrides -/

/-- The configuration says no more than the value does, and it is written with names that are read back. -/
structure Within {α : Type} (toValue : α → Value) (tokens : α → List Token) (hasFreeNames : α → Prop) (v : Value)
    (x : α) : Prop where
  names : hasFreeNames x
  values : ∀ t ∈ tokens x, t.toValue ∈ v.leaves
  depth : (toValue x).depth ≤ v.depth

namespace Override

/-- The members of the sections of an override. -/
def peersMember (peers : NameMap Override) : List (String × Value) :=
  if peers.isEmpty then [] else [("peers", .object (toEntries peers))]

theorem toValue_mk (patch : Patch) (peers : NameMap Override) :
    toValue (.mk patch peers) =
      .object (TokenMap.sectionMember patch.common ++ peersMember peers ++ patch.tokens.toMembers) := rfl

theorem mem_peersMember {peers : NameMap Override} {name : String} {v : Value} (h : (name, v) ∈ peersMember peers) :
    v = .object (toEntries peers) := by
  unfold peersMember at h
  split at h
  · cases h
  · simp at h
    exact h.2

theorem toEntries_eq_map {bound : Option String} (m : Entries Override bound) :
    toEntries m = m.toList.map fun p => (p.1, toValue p.2) := by
  induction m with
  | nil => rfl
  | cons name o _ rest ih => rw [toEntries, ih, Entries.toList, List.map_cons]

theorem mem_toEntries_iff {bound : Option String} {m : Entries Override bound} {name : String} {v : Value} :
    (name, v) ∈ toEntries m ↔ ∃ o, (name, o) ∈ m.toList ∧ toValue o = v := by
  rw [toEntries_eq_map]
  simp

/-! Reading what has been written. -/

theorem ofMembers?_tokens {ps : List (String × Token)} (hcommon : "common" ∉ ps.map Prod.fst)
    (hpeers : "peers" ∉ ps.map Prod.fst) :
    ofMembers? (ps.map fun p => (p.1, p.2.toValue)) = some { others := ps } := by
  induction ps with
  | nil => rfl
  | cons p ps ih =>
    simp only [List.map_cons, List.mem_cons, not_or] at hcommon hpeers
    rw [List.map_cons, ofMembers?, ih hcommon.2 hpeers.2]
    simp [Ne.symm hcommon.1, Ne.symm hpeers.1, Token.ofValue?_toValue]

theorem ofMembers?_peersMember {peers : NameMap Override} (hpeers : ofEntries? (toEntries peers) = some peers.toList)
    {rest : List (String × Value)} {others : List (String × Token)} (hrest : ofMembers? rest = some { others }) :
    ofMembers? (peersMember peers ++ rest) =
      some { peers := if peers.isEmpty then none else some peers, others } := by
  unfold peersMember
  split
  · exact hrest
  · have hread : ofPeers? (.object (toEntries peers)) = some peers := by
      rw [ofPeers?, hpeers, Option.map_some, NameMap.ofList_toList]
    rw [List.singleton_append, ofMembers?, hrest]
    simp [hread]

theorem ofMembers?_sectionMember (common : Option TokenMap) {rest : List (String × Value)}
    {peers : Option (NameMap Override)} {others : List (String × Token)}
    (hrest : ofMembers? rest = some { peers, others }) :
    ofMembers? (TokenMap.sectionMember common ++ rest) = some { common := common.map some, peers, others } := by
  cases common with
  | none => exact hrest
  | some m =>
    have hread : TokenMap.ofOptional? m.toValue = some (some m) := congrArg (Option.map some) m.ofValue?_toValue
    rw [TokenMap.sectionMember, List.singleton_append, ofMembers?, hrest]
    simp [hread]

mutual

theorem ofValue?_toValue : (o : Peered Patch) → HasFreeNames o → ofValue? (toValue o) = some o
  | .mk patch peers, h => by
    rw [HasFreeNames, patches] at h
    obtain ⟨hcommon, hpeers⟩ := h patch List.mem_cons_self
    have hentries := ofEntries?_toEntries peers fun p hp => h p (List.mem_cons_of_mem patch hp)
    have hread := ofMembers?_sectionMember patch.common
      (ofMembers?_peersMember hentries (ofMembers?_tokens hcommon hpeers))
    have hcommonRead : (patch.common.map some).getD none = patch.common := by
      cases patch.common <;> rfl
    have hpeersRead : (if peers.isEmpty then none else some peers).getD ∅ = peers := by
      split
      · exact (Entries.eq_nil_of_isEmpty ‹_›).symm
      · rfl
    rw [toValue_mk, ofValue?, List.append_assoc, TokenMap.toMembers, hread]
    simp only [Option.bind_eq_bind, Option.bind_some, hcommonRead, hpeersRead, NameMap.ofList_toList]
    rfl
termination_by structural o => o

theorem ofEntries?_toEntries : {bound : Option String} → (m : Entries (Peered Patch) bound) →
    (∀ p ∈ peerPatches m, p.HasFreeNames) → ofEntries? (toEntries m) = some m.toList
  | _, .nil, _ => rfl
  | _, .cons name o _ rest, h => by
    rw [peerPatches] at h
    rw [toEntries, ofEntries?, ofValue?_toValue o fun p hp => h p (List.mem_append_left _ hp),
      ofEntries?_toEntries rest fun p hp => h p (List.mem_append_right _ hp)]
    rfl
termination_by structural _ m => m

end

/-! What has been read. -/

/-- What can have been read from the members of an object: sections that are in it, and other members that have none of
the reserved names and are read by `read`. -/
structure ReadFrom {α : Type} (reserved : List String) (read : Value → Option α) (members : List (String × Value))
    (m : Members α) : Prop where
  common : ∀ c, m.common = some c → ∃ v, ("common", v) ∈ members ∧ TokenMap.ofOptional? v = some c
  peers : ∀ ps, m.peers = some ps → ∃ v, ("peers", v) ∈ members ∧ ofPeers? v = some ps
  others : ∀ name a, (name, a) ∈ m.others → name ∉ reserved ∧ ∃ v, (name, v) ∈ members ∧ read v = some a

theorem readFrom_of_ofMembers? {members : List (String × Value)} {m : Members Token}
    (h : ofMembers? members = some m) : ReadFrom ["common", "peers"] Token.ofValue? members m := by
  obtain ⟨hcommon, hpeers, hothers⟩ := ofMembers?_eq_some_iff.1 h
  refine ⟨fun c => exists_of_atMostOne? hcommon, fun ps => exists_of_atMostOne? hpeers, fun name t ht => ?_⟩
  obtain ⟨v, hv, hread⟩ := exists_of_mem_readMembers? hothers ht
  obtain ⟨hmem, hname⟩ := List.mem_filter.1 hv
  exact ⟨by simpa [IsOwnName] using of_decide_eq_true hname, v, hmem, hread⟩

/-- Overrides that say no more than the members of an object, written with names that are read back. -/
structure EntriesWithin (members : List (String × Value)) (m : NameMap Override) : Prop where
  names : ∀ p ∈ peerPatches m, p.HasFreeNames
  values : ∀ t ∈ (peerPatches m).flatMap Patch.values, t.toValue ∈ (Value.object members).leaves
  depth : Value.objectDepth (toEntries m) ≤ Value.objectDepth members

theorem entriesWithin_ofList {members : List (String × Value)} {pairs : List (String × Override)}
    (h : ∀ name o, (name, o) ∈ pairs → ∃ v, (name, v) ∈ members ∧ Within toValue values HasFreeNames v o) :
    EntriesWithin members (NameMap.ofList pairs) := by
  have hall : ∀ o ∈ (NameMap.ofList pairs).values,
      ∃ name v, (name, v) ∈ members ∧ Within toValue values HasFreeNames v o := by
    intro o ho
    obtain ⟨name, hname⟩ := Entries.mem_values_iff.1 ho
    exact ⟨name, h name o (NameMap.mem_of_mem_ofList hname)⟩
  refine ⟨fun p hp => ?_, fun t ht => ?_, Value.objectDepth_le_iff.2 fun name v hv => ?_⟩
  · rw [peerPatches_eq_flatMap] at hp
    obtain ⟨o, ho, hpo⟩ := List.mem_flatMap.1 hp
    obtain ⟨name, v, -, hwithin⟩ := hall o ho
    exact hwithin.names p hpo
  · rw [peerPatches_eq_flatMap, List.flatMap_assoc] at ht
    obtain ⟨o, ho, hto⟩ := List.mem_flatMap.1 ht
    obtain ⟨name, v, hv, hwithin⟩ := hall o ho
    exact Value.mem_leaves_object.2 ⟨name, v, hv, hwithin.values t hto⟩
  · obtain ⟨o, ho, rfl⟩ := mem_toEntries_iff.1 hv
    obtain ⟨u, hu, hwithin⟩ := h name o (NameMap.mem_of_mem_ofList ho)
    exact Nat.le_trans hwithin.depth (Value.objectDepth_le_iff.1 (Nat.le_refl _) name u hu)

/-- The tokens of a common section that has been read are in the object, which is no less deep. -/
theorem common_within {members : List (String × Value)} {common : Option (Option TokenMap)}
    (h : ∀ c, common = some c → ∃ v, ("common", v) ∈ members ∧ TokenMap.ofOptional? v = some c) :
    (∀ t ∈ ((common.getD none).map Entries.values).getD [], t.toValue ∈ (Value.object members).leaves) ∧
      ∀ name v, (name, v) ∈ TokenMap.sectionMember (common.getD none) → v.depth ≤ Value.objectDepth members := by
  cases common with
  | none => exact ⟨nofun, nofun⟩
  | some c =>
    cases c with
    | none => exact ⟨nofun, nofun⟩
    | some m =>
      obtain ⟨u, hu, hread⟩ := h (some m) rfl
      obtain ⟨hvalues, hdepth⟩ := TokenMap.of_ofOptional? hread
      refine ⟨fun t ht => Value.mem_leaves_object.2 ⟨"common", u, hu, hvalues t ht⟩, fun name v hv => ?_⟩
      obtain ⟨m', hm', -, rfl⟩ := TokenMap.mem_sectionMember_iff.1 hv
      obtain rfl : m = m' := Option.some.inj hm'
      exact Nat.le_trans hdepth (Value.objectDepth_le_iff.1 (Nat.le_refl _) "common" u hu)

/-- The peers that have been read say no more than their section, given that this holds of what is nested less deep. -/
theorem peers_within {members : List (String × Value)} {peers : Option (NameMap Override)}
    (h : ∀ ps, peers = some ps → ∃ v, ("peers", v) ∈ members ∧ ofPeers? v = some ps)
    (ih : ∀ v o, v.depth < (Value.object members).depth → ofValue? v = some o →
      Within toValue values HasFreeNames v o) :
    (∀ p ∈ peerPatches (peers.getD ∅), p.HasFreeNames) ∧
      (∀ t ∈ (peerPatches (peers.getD ∅)).flatMap Patch.values, t.toValue ∈ (Value.object members).leaves) ∧
      ∀ name v, (name, v) ∈ peersMember (peers.getD ∅) → v.depth ≤ Value.objectDepth members := by
  cases peers with
  | none => exact ⟨nofun, nofun, nofun⟩
  | some ps =>
    obtain ⟨u, hu, hread⟩ := h ps rfl
    cases u with
    | object inner =>
      rw [ofPeers?_object] at hread
      obtain ⟨pairs, hpairs, rfl⟩ := Option.map_eq_some_iff.1 hread
      have hinner : EntriesWithin inner (NameMap.ofList pairs) := by
        refine entriesWithin_ofList fun name o ho => ?_
        obtain ⟨v, hv, hreadOne⟩ := exists_of_mem_readMembers? hpairs ho
        have hlt := Nat.lt_trans (Value.depth_lt_of_mem hv) (Value.depth_lt_of_mem hu)
        exact ⟨v, hv, ih v o hlt hreadOne⟩
      refine ⟨hinner.names, fun t ht => ?_, fun name v hv => ?_⟩
      · exact Value.mem_leaves_object.2 ⟨"peers", _, hu, hinner.values t ht⟩
      · obtain rfl := mem_peersMember hv
        have hdepth := Value.objectDepth_le_iff.1 (Nat.le_refl _) "peers" _ hu
        exact Nat.le_trans (Nat.succ_le_succ hinner.depth) hdepth
    | _ => cases hread

/-- The own tokens that have been read have names of their own, and are in the object. -/
theorem tokens_within {members : List (String × Value)} {others : List (String × Token)}
    (h : ∀ name t, (name, t) ∈ others →
      name ∉ ["common", "peers"] ∧ ∃ v, (name, v) ∈ members ∧ Token.ofValue? v = some t) :
    ("common" ∉ (NameMap.ofList others).keys ∧ "peers" ∉ (NameMap.ofList others).keys) ∧
      ∀ t ∈ (NameMap.ofList others).values, t.toValue ∈ (Value.object members).leaves := by
  have hkeys : ∀ name ∈ (NameMap.ofList others).keys, name ∉ ["common", "peers"] := by
    intro name hname
    obtain ⟨⟨n, t⟩, ht, rfl⟩ := List.mem_map.1 hname
    exact (h n t (NameMap.mem_of_mem_ofList ht)).1
  refine ⟨⟨fun hc => hkeys _ hc (by simp), fun hp => hkeys _ hp (by simp)⟩, fun t ht => ?_⟩
  obtain ⟨name, hname⟩ := Entries.mem_values_iff.1 ht
  obtain ⟨-, v, hv, hread⟩ := h name t (NameMap.mem_of_mem_ofList hname)
  obtain rfl := Token.toValue_of_ofValue? hread
  exact Value.mem_leaves_object.2 ⟨name, t.toValue, hv, t.toValue_mem_leaves⟩

/-- What is read says no more than the value that it is read from. -/
theorem within_of_ofValue? {v : Value} {o : Override} (h : ofValue? v = some o) :
    Within toValue values HasFreeNames v o := by
  -- what is read as peers is looked up in the members, so the induction is on how deep the value is
  induction hd : v.depth using Nat.strongRecOn generalizing v o with
  | ind d ih =>
    cases v with
    | object members =>
      obtain ⟨m, hm, ho⟩ := Option.bind_eq_some_iff.1 h
      obtain rfl := Option.some.inj ho
      have hread := readFrom_of_ofMembers? hm
      obtain ⟨hcommonValues, hcommonDepth⟩ := common_within hread.common
      obtain ⟨hpeersNames, hpeersValues, hpeersDepth⟩ :=
        peers_within hread.peers fun u o hu hreadOne => ih u.depth (hd ▸ hu) hreadOne rfl
      obtain ⟨htokensNames, htokensValues⟩ := tokens_within hread.others
      refine ⟨?_, ?_, ?_⟩
      · intro p hp
        rw [patches] at hp
        rcases List.mem_cons.1 hp with rfl | hp
        · exact htokensNames
        · exact hpeersNames p hp
      · intro t ht
        rw [values, patches, List.flatMap_cons, Patch.values, List.append_assoc, List.mem_append, List.mem_append] at ht
        rcases ht with ht | ht | ht
        · exact hcommonValues t ht
        · exact htokensValues t ht
        · exact hpeersValues t ht
      · rw [toValue_mk]
        refine Nat.succ_le_succ (Value.objectDepth_le_iff.2 fun name u hu => ?_)
        rw [List.mem_append, List.mem_append] at hu
        rcases hu with (hu | hu) | hu
        · exact hcommonDepth name u hu
        · exact hpeersDepth name u hu
        · obtain ⟨t, -, rfl⟩ := TokenMap.mem_toMembers_iff.1 hu
          rw [t.depth_toValue]
          exact Nat.zero_le _
    | _ => cases h

/-! What is written. -/

mutual

/-- A written override is made of its tokens. -/
theorem leaves_toValue : (o : Peered Patch) → ∀ l ∈ (toValue o).leaves, ∃ t ∈ values o, t.toValue = l
  | .mk patch peers, l, hl => by
    rw [toValue_mk, Value.mem_leaves_object] at hl
    obtain ⟨name, v, hv, hlv⟩ := hl
    rw [values, patches, List.flatMap_cons, Patch.values]
    rw [List.mem_append, List.mem_append] at hv
    rcases hv with (hv | hv) | hv
    · obtain ⟨m, hm, -, rfl⟩ := TokenMap.mem_sectionMember_iff.1 hv
      obtain ⟨t, ht, rfl⟩ := TokenMap.mem_leaves_toValue_iff.1 hlv
      exact ⟨t, by simp [hm, ht], rfl⟩
    · obtain rfl := mem_peersMember hv
      obtain ⟨t, ht, rfl⟩ := leaves_toEntries peers l hlv
      exact ⟨t, List.mem_append_right _ ht, rfl⟩
    · have htokens : l ∈ patch.tokens.toValue.leaves := Value.mem_leaves_object.2 ⟨name, v, hv, hlv⟩
      obtain ⟨t, ht, rfl⟩ := TokenMap.mem_leaves_toValue_iff.1 htokens
      exact ⟨t, by simp [ht], rfl⟩
termination_by structural o => o

theorem leaves_toEntries : {bound : Option String} → (m : Entries (Peered Patch) bound) →
    ∀ l ∈ Value.memberLeaves (toEntries m), ∃ t ∈ (peerPatches m).flatMap Patch.values, t.toValue = l
  | _, .nil, _, hl => nomatch hl
  | _, .cons name o _ rest, l, hl => by
    rw [peerPatches, List.flatMap_append]
    rw [toEntries, Value.memberLeaves, List.mem_append] at hl
    rcases hl with hl | hl
    · obtain ⟨t, ht, rfl⟩ := leaves_toValue o l hl
      exact ⟨t, List.mem_append_left _ ht, rfl⟩
    · obtain ⟨t, ht, rfl⟩ := leaves_toEntries rest l hl
      exact ⟨t, List.mem_append_right _ ht, rfl⟩
termination_by structural _ m => m

end

end Override

/-! ### Overrides of an application -/

namespace GlobalOverrides

theorem ofMembers?_components {ps : List (String × Override)} (hcommon : "common" ∉ ps.map Prod.fst)
    (hread : ∀ name o, (name, o) ∈ ps → Override.ofValue? (Override.toValue o) = some o) :
    ofMembers? (ps.map fun p => (p.1, Override.toValue p.2)) = some { others := ps } := by
  induction ps with
  | nil => rfl
  | cons p ps ih =>
    simp only [List.map_cons, List.mem_cons, not_or] at hcommon
    rw [List.map_cons, ofMembers?, ih hcommon.2 fun name o ho => hread name o (List.mem_cons_of_mem p ho)]
    simp [Ne.symm hcommon.1, hread p.1 p.2 List.mem_cons_self]

theorem ofMembers?_sectionMember (common : Option TokenMap) {rest : List (String × Value)}
    {others : List (String × Override)} (hrest : ofMembers? rest = some { others }) :
    ofMembers? (TokenMap.sectionMember common ++ rest) = some { common := common.map some, others } := by
  cases common with
  | none => exact hrest
  | some m =>
    have hread : TokenMap.ofOptional? m.toValue = some (some m) := congrArg (Option.map some) m.ofValue?_toValue
    rw [TokenMap.sectionMember, List.singleton_append, ofMembers?, hrest]
    simp [hread]

theorem ofValue?_toValue {o : GlobalOverrides} (h : o.HasFreeNames) : ofValue? o.toValue = some o := by
  obtain ⟨hcommon, hpatches⟩ := h
  rw [patches, Override.peerPatches_eq_flatMap] at hpatches
  have hcomponents : ∀ name c, (name, c) ∈ o.components.toList → Override.ofValue? (Override.toValue c) = some c := by
    intro name c hc
    refine Override.ofValue?_toValue c fun p hp => hpatches p (List.mem_flatMap.2 ⟨c, ?_, hp⟩)
    exact Entries.mem_values_iff.2 ⟨name, hc⟩
  have hread := ofMembers?_sectionMember o.common (ofMembers?_components hcommon hcomponents)
  have hcommonRead : (o.common.map some).getD none = o.common := by
    cases o.common <;> rfl
  rw [toValue, ofValue?, Override.toEntries_eq_map, hread]
  simp only [Option.bind_eq_bind, Option.bind_some, hcommonRead, NameMap.ofList_toList]
  rfl

theorem leaves_toValue {o : GlobalOverrides} {l : Value} (h : l ∈ o.toValue.leaves) :
    ∃ t ∈ o.values, t.toValue = l := by
  rw [toValue, Value.mem_leaves_object] at h
  obtain ⟨name, v, hv, hlv⟩ := h
  rcases List.mem_append.1 hv with hv | hv
  · obtain ⟨m, hm, -, rfl⟩ := TokenMap.mem_sectionMember_iff.1 hv
    obtain ⟨t, ht, rfl⟩ := TokenMap.mem_leaves_toValue_iff.1 hlv
    exact ⟨t, by simp [values, hm, ht], rfl⟩
  · have hentries : l ∈ Value.memberLeaves (Override.toEntries o.components) :=
      Value.mem_leaves_object.2 ⟨name, v, hv, hlv⟩
    obtain ⟨t, ht, rfl⟩ := Override.leaves_toEntries o.components l hentries
    exact ⟨t, List.mem_append_right _ ht, rfl⟩

theorem readFrom_of_ofMembers? {members : List (String × Value)} {m : Override.Members Override}
    (h : ofMembers? members = some m) : Override.ReadFrom ["common"] Override.ofValue? members m := by
  obtain ⟨hcommon, hpeers, hothers⟩ := ofMembers?_eq_some_iff.1 h
  refine ⟨fun c => exists_of_atMostOne? hcommon, fun ps hps => ?_, fun name o ho => ?_⟩
  · rw [hpeers] at hps
    cases hps
  · obtain ⟨v, hv, hread⟩ := exists_of_mem_readMembers? hothers ho
    obtain ⟨hmem, hname⟩ := List.mem_filter.1 hv
    exact ⟨by simpa using hname, v, hmem, hread⟩

theorem within_of_ofValue? {v : Value} {o : GlobalOverrides} (h : ofValue? v = some o) :
    Within toValue values HasFreeNames v o := by
  cases v with
  | object members =>
    obtain ⟨m, hm, ho⟩ := Option.bind_eq_some_iff.1 h
    obtain rfl := Option.some.inj ho
    have hread := readFrom_of_ofMembers? hm
    obtain ⟨hcommonValues, hcommonDepth⟩ := Override.common_within hread.common
    have hcomponents : Override.EntriesWithin members (NameMap.ofList m.others) := by
      refine Override.entriesWithin_ofList fun name o ho => ?_
      obtain ⟨-, v, hv, hreadOne⟩ := hread.others name o ho
      exact ⟨v, hv, Override.within_of_ofValue? hreadOne⟩
    refine ⟨⟨fun hkey => ?_, hcomponents.names⟩, fun t ht => ?_, ?_⟩
    · obtain ⟨⟨name, o⟩, ho, hname⟩ := List.mem_map.1 hkey
      have hfree := (hread.others name o (NameMap.mem_of_mem_ofList ho)).1
      exact hfree (List.mem_singleton.2 hname)
    · rcases List.mem_append.1 ht with ht | ht
      · exact hcommonValues t ht
      · exact hcomponents.values t ht
    · rw [toValue]
      refine Nat.succ_le_succ (Value.objectDepth_le_iff.2 fun name u hu => ?_)
      rcases List.mem_append.1 hu with hu | hu
      · exact hcommonDepth name u hu
      · exact Value.objectDepth_le_iff.1 hcomponents.depth name u hu
  | _ => cases h

end GlobalOverrides

end Theming
