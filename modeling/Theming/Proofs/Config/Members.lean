import Theming.Config.Layout
import Theming.Proofs.Failure
import Theming.Proofs.NameMap

/-!
# Reading an object by its sections

The members of an object are read one after another, each into the section or among the other members where its name puts
it.  Section by section this is the same (`Override.ofMembers?_eq`, `GlobalOverrides.ofMembers?_eq`): what stands under
the name of a section is read, if it is there once, and the members with other names are read one by one.
-/

namespace Theming

/-! ### Sections -/

/-- What is read in a section, of which there may be one. -/
def atMostOne? {α : Type} (read : Value → Option α) : List Value → Option (Option α)
  | [] => some none
  | [v] => (read v).map some
  | _ => none

section AtMostOne

variable {α : Type} {read : Value → Option α} {v : Value} {vs : List Value}

theorem atMostOne?_cons :
    atMostOne? read (v :: vs) =
      (atMostOne? read vs).bind fun old => if old.isSome then none else (read v).map some := by
  match vs with
  | [] => rfl
  | [w] => cases h : read w <;> simp [atMostOne?, h]
  | w :: u :: vs => rfl

theorem isSome_atMostOne?_iff :
    (atMostOne? read vs).isSome = true ↔ vs.length ≤ 1 ∧ ∀ v ∈ vs, (read v).isSome = true := by
  match vs with
  | [] => simp [atMostOne?]
  | [v] => simp [atMostOne?]
  | v :: w :: vs => simp [atMostOne?]

theorem atMostOne?_cases {c : Option α} (h : atMostOne? read vs = some c) :
    vs = [] ∧ c = none ∨ ∃ v a, vs = [v] ∧ read v = some a ∧ c = some a := by
  match vs with
  | [] => exact .inl ⟨rfl, (Option.some.inj h).symm⟩
  | [v] =>
    obtain ⟨a, ha, rfl⟩ := Option.map_eq_some_iff.1 h
    exact .inr ⟨v, a, rfl, ha, rfl⟩
  | v :: w :: vs => cases h

/-- What has been read in a section stands under its name. -/
theorem exists_of_atMostOne? {members : List (String × Value)} {name : String} {c : Option α}
    (h : atMostOne? read (named name members) = some c) {a : α} (ha : c = some a) :
    ∃ v, (name, v) ∈ members ∧ read v = some a := by
  rcases atMostOne?_cases h with ⟨-, rfl⟩ | ⟨v, b, hv, hb, rfl⟩
  · cases ha
  · obtain rfl := Option.some.inj ha
    exact ⟨v, mem_named_iff.1 (by simp [hv]), hb⟩

end AtMostOne

/-! ### Other members -/

/-- The members read one by one, with their names. -/
def readMembers? {α : Type} (read : Value → Option α) (members : List (String × Value)) : Option (List (String × α)) :=
  members.mapM fun m => (read m.2).map (m.1, ·)

section ReadMembers

variable {α : Type} {read : Value → Option α} {members : List (String × Value)} {ps : List (String × α)}

theorem isSome_readMembers?_iff :
    (readMembers? read members).isSome = true ↔ ∀ m ∈ members, (read m.2).isSome = true := by
  simp only [readMembers?, isSome_mapM_iff, Option.isSome_map]

theorem readMembers?_cons (m : String × Value) (members : List (String × Value)) :
    readMembers? read (m :: members) = (read m.2).bind fun a => (readMembers? read members).map ((m.1, a) :: ·) := by
  rw [readMembers?, List.mapM_cons]
  cases read m.2 <;> cases h : readMembers? read members <;> simp_all [readMembers?]

theorem readMembers?_cons_eq_some_iff {m : String × Value} :
    readMembers? read (m :: members) = some ps ↔
      ∃ a qs, read m.2 = some a ∧ readMembers? read members = some qs ∧ (m.1, a) :: qs = ps := by
  simp only [readMembers?_cons, Option.bind_eq_some_iff, Option.map_eq_some_iff, exists_and_left]

/-- What has been read is one of the members. -/
theorem exists_of_mem_readMembers? (h : readMembers? read members = some ps) {name : String} {a : α}
    (ha : (name, a) ∈ ps) : ∃ v, (name, v) ∈ members ∧ read v = some a := by
  obtain ⟨⟨n, v⟩, hv, hpair⟩ := exists_of_mem_mapM h ha
  obtain ⟨b, hread, heq⟩ := Option.map_eq_some_iff.1 hpair
  obtain ⟨rfl, rfl⟩ := Prod.mk.inj heq
  exact ⟨v, hv, hread⟩

/-- The values that go with a name are read one by one. -/
theorem named_of_readMembers? (h : readMembers? read members = some ps) (name : String) :
    (named name members).mapM read = some (named name ps) := by
  induction members generalizing ps with
  | nil =>
    obtain rfl := Option.some.inj h
    rfl
  | cons m members ih =>
    obtain ⟨a, qs, ha, hqs, rfl⟩ := readMembers?_cons_eq_some_iff.1 h
    rw [named_cons, named_cons]
    by_cases hname : m.1 = name
    · rw [if_pos hname, if_pos hname, List.mapM_cons, ha, ih hqs]
      rfl
    · rw [if_neg hname, if_neg hname, ih hqs]

/-- The last value of a name is the one that is kept. -/
theorem get?_ofList_of_readMembers? (h : readMembers? read members = some ps) (name : String) :
    (NameMap.ofList ps).get? name = (named name members).getLast?.bind read := by
  have hlast := getLast?_of_mapM (named_of_readMembers? h name)
  rw [NameMap.get?_ofList]
  cases hv : (named name members).getLast? <;> cases ha : (named name ps).getLast? <;> simp_all

/-- A name has a value that has been read just where it has one that is made of the same member in another way. -/
theorem get?_ofList_cases {β : Type} (h : readMembers? read members = some ps) (make : Value → β) (name : String) :
    (NameMap.ofList ps).get? name = none ∧
        (NameMap.ofList (members.map fun m => (m.1, make m.2))).get? name = none ∨
      ∃ v a, read v = some a ∧ (NameMap.ofList ps).get? name = some a ∧
        (NameMap.ofList (members.map fun m => (m.1, make m.2))).get? name = some (make v) := by
  rw [get?_ofList_of_readMembers? h, NameMap.get?_ofList, named_map, List.getLast?_map]
  cases hlast : (named name members).getLast? with
  | none => exact .inl ⟨rfl, rfl⟩
  | some v =>
    have hv : (name, v) ∈ members := mem_named_iff.1 (List.mem_of_getLast? hlast)
    obtain ⟨a, ha⟩ := Option.isSome_iff_exists.1 (isSome_readMembers?_iff.1 (Option.isSome_of_eq_some h) (name, v) hv)
    exact .inr ⟨v, a, ha, ha, rfl⟩

end ReadMembers

/-- Members whose names are kept are found among those that are kept. -/
theorem named_filter {β : Type} (keep : String → Bool) (name : String) (members : List (String × β)) :
    named name (members.filter fun m => keep m.1) = if keep name = true then named name members else [] := by
  induction members with
  | nil => simp [named]
  | cons m members ih =>
    by_cases hname : m.1 = name
    · subst hname
      by_cases hkeep : keep m.1 = true <;> simp_all [named_cons]
    · rw [named_cons, if_neg hname, ← ih, List.filter_cons]
      split <;> simp [named_cons, hname]

/-! ### Overrides -/

/-- Neither section of an override has this name. -/
def IsOwnName (name : String) : Prop := name ≠ "common" ∧ name ≠ "peers"

instance decidableIsOwnName (name : String) : Decidable (IsOwnName name) :=
  inferInstanceAs (Decidable (name ≠ "common" ∧ name ≠ "peers"))

namespace Override

theorem ofEntries?_eq (members : List (String × Value)) : ofEntries? members = readMembers? ofValue? members := by
  induction members with
  | nil => rfl
  | cons m members ih =>
    obtain ⟨name, v⟩ := m
    rw [ofEntries?, ih, readMembers?_cons]
    cases ofValue? v <;> cases readMembers? ofValue? members <;> rfl

theorem ofPeers?_object (inner : List (String × Value)) :
    ofPeers? (.object inner) = (readMembers? ofValue? inner).map NameMap.ofList := by
  rw [ofPeers?, ofEntries?_eq]

/-- An object is read section by section. -/
theorem ofMembers?_eq (members : List (String × Value)) :
    ofMembers? members = (atMostOne? TokenMap.ofOptional? (named "common" members)).bind fun common =>
      (atMostOne? ofPeers? (named "peers" members)).bind fun peers =>
      (readMembers? Token.ofValue? (members.filter fun m => IsOwnName m.1)).map fun others =>
      { common, peers, others } := by
  induction members with
  | nil => rfl
  | cons first members ih =>
    obtain ⟨name, v⟩ := first
    rw [ofMembers?, ih]
    generalize hc : atMostOne? TokenMap.ofOptional? (named "common" members) = common
    generalize hp : atMostOne? ofPeers? (named "peers" members) = peers
    generalize ho : readMembers? Token.ofValue? (members.filter fun m => IsOwnName m.1) = others
    -- the first member goes into one of the three parts, and the others stay as they are
    by_cases hcommon : name = "common"
    · have hpeers : name ≠ "peers" := by simp [hcommon]
      have hown : ¬ IsOwnName name := fun h => h.1 hcommon
      simp only [named_cons, if_pos hcommon, if_neg hpeers, atMostOne?_cons, hc, hp]
      rw [List.filter_cons_of_neg (by simpa using hown), ho]
      rcases common with _ | _ | _ <;> cases peers <;> cases others <;> cases TokenMap.ofOptional? v <;> simp
    · by_cases hpeers : name = "peers"
      · have hown : ¬ IsOwnName name := fun h => h.2 hpeers
        simp only [named_cons, if_neg hcommon, if_pos hpeers, atMostOne?_cons, hc, hp]
        rw [List.filter_cons_of_neg (by simpa using hown), ho]
        cases common <;> rcases peers with _ | _ | _ <;> cases others <;> cases ofPeers? v <;> simp
      · have hown : IsOwnName name := ⟨hcommon, hpeers⟩
        simp only [named_cons, if_neg hcommon, if_neg hpeers, hc, hp]
        rw [List.filter_cons_of_pos (by simpa using hown), readMembers?_cons, ho]
        cases common <;> cases peers <;> cases others <;> cases Token.ofValue? v <;> rfl

theorem ofMembers?_eq_some_iff {members : List (String × Value)} {m : Members Token} :
    ofMembers? members = some m ↔
      atMostOne? TokenMap.ofOptional? (named "common" members) = some m.common ∧
      atMostOne? ofPeers? (named "peers" members) = some m.peers ∧
      readMembers? Token.ofValue? (members.filter fun p => IsOwnName p.1) = some m.others := by
  obtain ⟨common, peers, others⟩ := m
  simp [ofMembers?_eq, Option.bind_eq_some_iff]

theorem isSome_ofMembers?_iff {members : List (String × Value)} :
    (ofMembers? members).isSome = true ↔
      (atMostOne? TokenMap.ofOptional? (named "common" members)).isSome = true ∧
      (atMostOne? ofPeers? (named "peers" members)).isSome = true ∧
      (readMembers? Token.ofValue? (members.filter fun p => IsOwnName p.1)).isSome = true := by
  rw [ofMembers?_eq]
  cases atMostOne? TokenMap.ofOptional? (named "common" members) <;>
    cases atMostOne? ofPeers? (named "peers" members) <;> simp

end Override

/-! ### Overrides of an application -/

namespace GlobalOverrides

/-- An object is read as its common section and its components. -/
theorem ofMembers?_eq (members : List (String × Value)) :
    ofMembers? members = (atMostOne? TokenMap.ofOptional? (named "common" members)).bind fun common =>
      (readMembers? Override.ofValue? (members.filter fun m => m.1 ≠ "common")).map fun others =>
      { common, others } := by
  induction members with
  | nil => rfl
  | cons first members ih =>
    obtain ⟨name, v⟩ := first
    rw [ofMembers?, ih]
    generalize hc : atMostOne? TokenMap.ofOptional? (named "common" members) = common
    generalize ho : readMembers? Override.ofValue? (members.filter fun m => m.1 ≠ "common") = others
    by_cases hcommon : name = "common"
    · simp only [named_cons, if_pos hcommon, atMostOne?_cons, hc]
      rw [List.filter_cons_of_neg (by simpa using hcommon), ho]
      rcases common with _ | _ | _ <;> cases others <;> cases TokenMap.ofOptional? v <;> simp
    · simp only [named_cons, if_neg hcommon, hc]
      rw [List.filter_cons_of_pos (by simpa using hcommon), readMembers?_cons, ho]
      cases common <;> cases others <;> cases Override.ofValue? v <;> rfl

theorem ofMembers?_eq_some_iff {members : List (String × Value)} {m : Override.Members Override} :
    ofMembers? members = some m ↔
      atMostOne? TokenMap.ofOptional? (named "common" members) = some m.common ∧ m.peers = none ∧
      readMembers? Override.ofValue? (members.filter fun p => p.1 ≠ "common") = some m.others := by
  obtain ⟨common, peers, others⟩ := m
  simp only [ofMembers?_eq, Option.bind_eq_some_iff, Option.map_eq_some_iff, Override.Members.mk.injEq]
  constructor
  · rintro ⟨_, hc, _, ho, rfl, rfl, rfl⟩
    exact ⟨hc, rfl, ho⟩
  · rintro ⟨hc, rfl, ho⟩
    exact ⟨common, hc, others, ho, rfl, rfl, rfl⟩

theorem isSome_ofMembers?_iff {members : List (String × Value)} :
    (ofMembers? members).isSome = true ↔
      (atMostOne? TokenMap.ofOptional? (named "common" members)).isSome = true ∧
      (readMembers? Override.ofValue? (members.filter fun p => p.1 ≠ "common")).isSome = true := by
  rw [ofMembers?_eq]
  cases atMostOne? TokenMap.ofOptional? (named "common" members) <;> simp

end GlobalOverrides

end Theming
