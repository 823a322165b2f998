import Theming.Proofs.Config.Values
import Theming.Proofs.Json.RoundTrip

/-!
# Reading back configurations

A configuration that is written as JSON text is read back if no token and no component has the name of a section and all
numbers are finite, and only then; and all that is ever read is of this kind (`json_roundTrips`).  This is as far as the
text is not nested too deep for the reader, and the numbers are read back from their texts.
-/

namespace Theming

/-! ### Texts of values -/

/-- The number is read back from its text. -/
def Token.IsReadBack : Token → Prop
  | .number x => Json.number? (Json.numberText x) = some (some x)
  | _ => True

instance : (t : Token) → Decidable t.IsReadBack
  | .number x => inferInstanceAs (Decidable (Json.number? (Json.numberText x) = some (some x)))
  | .flag _ | .text _ => inferInstanceAs (Decidable True)

theorem Token.isReadBack_toValue {t : Token} (h : t.IsReadBack) : Json.IsReadBack t.toValue := by
  cases t with
  | flag b => trivial
  | number x => exact h
  | text s => trivial

theorem Token.isFinite_of_holdsFinite {v : Value} (h : Json.HoldsFinite v) {t : Token} (ht : t.toValue ∈ v.leaves) :
    t.IsFinite := by
  cases t with
  | flag b => trivial
  | number x => exact h x ht
  | text s => trivial

theorem Value.parse?_json {v : Value} (h : ∀ l ∈ v.leaves, Json.IsReadBack l) :
    Json.parse? v.json.toList = some v := by
  rw [Value.json, String.toList_ofList, Json.parse?_write h]

/-! ### Round trips -/

section RoundTrips

variable {α : Type} [BEq α] (toValue : α → Value) (ofJson? : String → Option α) (tokens : α → List Token)
  (hasFreeNames : α → Prop)

/-- What is read back of a type of configuration.  A configuration whose finite numbers are read back, and whose text is
not nested too deep, is read back itself if its names are free and its numbers are finite, and otherwise nothing that is
equal to it is read.  A configuration that has been read from any text has free names and finite numbers, so if the
numbers are read back it is read from its own text too. -/
structure RoundTrips : Prop where
  iff (x : α) : (toValue x).depth ≤ Json.maxDepth → (∀ t ∈ tokens x, t.IsFinite → t.IsReadBack) →
    ((∃ y, ofJson? (toValue x).json = some y ∧ (y == x) = true) ↔ hasFreeNames x ∧ ∀ t ∈ tokens x, t.IsFinite)
  exact (x : α) : (toValue x).depth ≤ Json.maxDepth → (∀ t ∈ tokens x, t.IsReadBack) → hasFreeNames x →
    ofJson? (toValue x).json = some x
  again (source : String) (x : α) : ofJson? source = some x →
    hasFreeNames x ∧ (∀ t ∈ tokens x, t.IsFinite) ∧
      ((∀ t ∈ tokens x, t.IsReadBack) → ofJson? (toValue x).json = some x)

variable {toValue ofJson? tokens hasFreeNames}

theorem roundTrips_of
    (hwrite : ∀ x, (toValue x).depth ≤ Json.maxDepth → (∀ t ∈ tokens x, t.IsReadBack) → hasFreeNames x →
      ofJson? (toValue x).json = some x)
    (hread : ∀ source x, ofJson? source = some x →
      hasFreeNames x ∧ (∀ t ∈ tokens x, t.IsFinite) ∧ (toValue x).depth ≤ Json.maxDepth)
    (hself : ∀ x, (∀ t ∈ tokens x, t.IsFinite) → (x == x) = true)
    (hbeq : ∀ x y, (x == y) = true → (hasFreeNames x → hasFreeNames y) ∧ AllEqual (tokens x) (tokens y)) :
    RoundTrips toValue ofJson? tokens hasFreeNames where
  iff x hdepth hnumbers := by
    constructor
    · -- what is read has free names and finite numbers, and equality passes both on to `x`
      rintro ⟨y, hy, hyx⟩
      obtain ⟨hnames, hfinite, -⟩ := hread _ y hy
      obtain ⟨hnamesBeq, htokens⟩ := hbeq y x hyx
      exact ⟨hnamesBeq hnames, htokens.isFinite hfinite⟩
    · rintro ⟨hnames, hfinite⟩
      exact ⟨x, hwrite x hdepth (fun t ht => hnumbers t ht (hfinite t ht)) hnames, hself x hfinite⟩
  exact := hwrite
  again source x hx := by
    obtain ⟨hnames, hfinite, hdepth⟩ := hread source x hx
    exact ⟨hnames, hfinite, fun hnumbers => hwrite x hdepth hnumbers hnames⟩

omit [BEq α] in
/-- Writing, for a type that is made from values. -/
theorem ofJson?_json {read : Value → Option α} (hleaves : ∀ x, ∀ l ∈ (toValue x).leaves, ∃ t ∈ tokens x, t.toValue = l)
    (hread : ∀ x, hasFreeNames x → read (toValue x) = some x) {x : α} (hdepth : (toValue x).depth ≤ Json.maxDepth)
    (hnumbers : ∀ t ∈ tokens x, t.IsReadBack) (hnames : hasFreeNames x) :
    Value.ofJson? read (toValue x).json = some x := by
  have hparse := Value.parse?_json fun l hl => by
    obtain ⟨t, ht, rfl⟩ := hleaves x l hl
    exact Token.isReadBack_toValue (hnumbers t ht)
  rw [Value.ofJson?, hparse, Option.bind_some, if_pos hdepth, hread x hnames]

omit [BEq α] in
/-- Reading, for a type that is made from values. -/
theorem of_ofJson? {read : Value → Option α}
    (hwithin : ∀ v x, read v = some x → Within toValue tokens hasFreeNames v x) {source : String} {x : α}
    (h : Value.ofJson? read source = some x) :
    hasFreeNames x ∧ (∀ t ∈ tokens x, t.IsFinite) ∧ (toValue x).depth ≤ Json.maxDepth := by
  obtain ⟨v, hv, h⟩ := Option.bind_eq_some_iff.1 h
  split_ifs at h with hdepth
  have hx := hwithin v x h
  have hfinite := Json.holdsFinite_of_parse? hv
  exact ⟨hx.names, fun t ht => Token.isFinite_of_holdsFinite hfinite (hx.values t ht), Nat.le_trans hx.depth hdepth⟩

end RoundTrips

theorem Override.json_roundTrips :
    RoundTrips Override.toValue Override.ofJson? Override.values Override.HasFreeNames :=
  roundTrips_of (fun _ => ofJson?_json leaves_toValue ofValue?_toValue)
    (fun _ _ => of_ofJson? fun _ _ => within_of_ofValue?) beq_self
    fun _ _ h => ⟨HasFreeNames.of_beq h, allEqual_values h⟩

theorem GlobalOverrides.json_roundTrips :
    RoundTrips GlobalOverrides.toValue GlobalOverrides.ofJson? GlobalOverrides.values GlobalOverrides.HasFreeNames :=
  roundTrips_of (fun _ => ofJson?_json (fun _ _ => leaves_toValue) fun _ => ofValue?_toValue)
    (fun _ _ => of_ofJson? fun _ _ => within_of_ofValue?) (fun _ => beq_self)
    fun _ _ h => ⟨HasFreeNames.of_beq h, allEqual_values h⟩

/-! ### Settings -/

namespace Settings

/-! What has been read. -/

section Read

variable {α : Type} {r : Reader α}

theorem Found.overrides_of_add? {f f' : Found} {name : String} {a : α} (h : f.add? r name a = some f') :
    f'.overrides = f.overrides ∨ ∃ o, f'.overrides = some o ∧ r.overrides? a = some o := by
  unfold Found.add? at h
  split_ifs at h
  · obtain ⟨x, -, rfl⟩ := Option.map_eq_some_iff.1 h
    exact .inl rfl
  · obtain ⟨x, -, rfl⟩ := Option.map_eq_some_iff.1 h
    exact .inl rfl
  · obtain ⟨x, -, rfl⟩ := Option.map_eq_some_iff.1 h
    exact .inl rfl
  · obtain ⟨x, hx, rfl⟩ := Option.map_eq_some_iff.1 h
    unfold once at hx
    split_ifs at hx
    obtain ⟨o, ho, rfl⟩ := Option.map_eq_some_iff.1 hx
    exact .inr ⟨o, rfl, ho⟩
  · exact .inl (by rw [Option.some.inj h])

theorem Found.overrides_of_foldlM {members : List (String × α)} {f f' : Found}
    (h : members.foldlM (fun (f : Found) m => f.add? r m.1 m.2) f = some f') {o : GlobalOverrides}
    (ho : f'.overrides = some o) : f.overrides = some o ∨ ∃ m ∈ members, r.overrides? m.2 = some o := by
  induction members generalizing f with
  | nil =>
    obtain rfl := Option.some.inj h
    exact .inl ho
  | cons m members ih =>
    rw [List.foldlM_cons] at h
    obtain ⟨next, hnext, h⟩ := Option.bind_eq_some_iff.1 h
    rcases ih h with hnextOverrides | ⟨m', hm', hread⟩
    · rcases Found.overrides_of_add? hnext with hkept | ⟨o', ho', hread⟩
      · exact .inl (hkept ▸ hnextOverrides)
      · obtain rfl := Option.some.inj (ho'.symm.trans hnextOverrides)
        exact .inr ⟨m, List.mem_cons_self, hread⟩
    · exact .inr ⟨m', List.mem_cons_of_mem m hm', hread⟩

/-- The overrides in settings are empty, or one of the members has been read as them. -/
theorem overrides_of_ofMembers? {members : List (String × α)} {s : Settings} (h : ofMembers? r members = some s) :
    s.overrides = {} ∨ ∃ m ∈ members, r.overrides? m.2 = some s.overrides := by
  obtain ⟨f, hf, rfl⟩ := Option.map_eq_some_iff.1 h
  cases ho : f.overrides with
  | none => exact .inl (by simp [Found.settings, ho])
  | some o =>
    have hsettings : f.settings.overrides = o := by simp [Found.settings, ho]
    rw [hsettings]
    rcases Found.overrides_of_foldlM hf ho with hnone | hsome
    · cases hnone
    · exact .inr hsome

end Read

/-- The overrides in settings that are read from JSON text. -/
theorem overrides_of_ofJson? {source : String} {s : Settings} (h : ofJson? source = some s) :
    s.overrides = {} ∨ ∃ v u, Json.parse? source.toList = some v ∧ (∀ l ∈ u.leaves, l ∈ v.leaves) ∧
      u.depth < Json.maxDepth ∧ GlobalOverrides.ofValue? u = some s.overrides := by
  have hreader : ∀ u, jsonReader.overrides? u = some s.overrides →
      u.depth < Json.maxDepth ∧ GlobalOverrides.ofValue? u = some s.overrides := by
    intro u hu
    simp only [jsonReader] at hu
    split_ifs at hu with hdepth
    exact ⟨hdepth, hu⟩
  unfold ofJson? at h
  split at h
  · rename_i members hparse
    refine (overrides_of_ofMembers? h).imp_right fun ⟨⟨name, u⟩, hu, hread⟩ => ?_
    exact ⟨_, u, hparse, fun l hl => Value.mem_leaves_object.2 ⟨name, u, hu, hl⟩, hreader u hread⟩
  · rename_i items hparse
    split_ifs at h
    refine (overrides_of_ofMembers? h).imp_right fun ⟨⟨name, u⟩, hu, hread⟩ => ?_
    refine ⟨_, u, hparse, fun l hl => ?_, hreader u hread⟩
    rw [Value.leaves, Value.leavesAll_eq_flatMap]
    exact List.mem_flatMap.2 ⟨u, (List.of_mem_zip hu).2, hl⟩
  · cases h

/-! What is written. -/

/-- A member for a setting that may be missing. -/
def optionalMember (name : String) (v : Option Value) : List (String × Value) := (v.map fun v => (name, v)).toList

def toMembers (s : Settings) : List (String × Value) :=
  optionalMember "cls_prefix" (s.clsPrefix.map .text) ++ optionalMember "bordered" (s.bordered.map .flag) ++
    optionalMember "namespace" (s.nameSpace.map .text) ++ [("theme_overrides", s.overrides.toValue)]

theorem toValue_eq (s : Settings) : s.toValue = .object s.toMembers := rfl

theorem mem_optionalMember_iff {name n : String} {v : Value} {u : Option Value} :
    (n, v) ∈ optionalMember name u ↔ n = name ∧ u = some v := by
  cases u <;> simp [optionalMember, eq_comm]

theorem mem_toMembers {s : Settings} {name : String} {v : Value} (h : (name, v) ∈ s.toMembers) :
    v = s.overrides.toValue ∨ (∃ b, v = .flag b) ∨ ∃ t, v = .text t := by
  simp only [toMembers, List.mem_append, mem_optionalMember_iff, List.mem_singleton, Prod.mk.injEq,
    Option.map_eq_some_iff] at h
  rcases h with ((⟨-, t, -, rfl⟩ | ⟨-, b, -, rfl⟩) | ⟨-, t, -, rfl⟩) | ⟨-, rfl⟩
  · exact .inr (.inr ⟨t, rfl⟩)
  · exact .inr (.inl ⟨b, rfl⟩)
  · exact .inr (.inr ⟨t, rfl⟩)
  · exact .inl rfl

theorem depth_toValue_le_iff (s : Settings) :
    s.toValue.depth ≤ Json.maxDepth ↔ s.overrides.toValue.depth < Json.maxDepth := by
  have hmem : ("theme_overrides", s.overrides.toValue) ∈ s.toMembers := by simp [toMembers]
  refine ⟨fun h => Nat.lt_of_lt_of_le (Value.depth_lt_of_mem hmem) h, fun h => ?_⟩
  refine Nat.succ_le_of_lt (Nat.lt_succ_of_le (Value.objectDepth_le_iff.2 fun name v hv => ?_))
  rcases mem_toMembers hv with rfl | ⟨b, rfl⟩ | ⟨t, rfl⟩
  · exact Nat.le_of_lt_succ h
  · exact Nat.zero_le _
  · exact Nat.zero_le _

theorem isReadBack_of_mem_leaves {s : Settings} (hnumbers : ∀ t ∈ s.values, t.IsReadBack) :
    ∀ l ∈ s.toValue.leaves, Json.IsReadBack l := by
  intro l hl
  rw [toValue_eq, Value.mem_leaves_object] at hl
  obtain ⟨name, v, hv, hl⟩ := hl
  rcases mem_toMembers hv with rfl | ⟨b, rfl⟩ | ⟨t, rfl⟩
  · obtain ⟨t, ht, rfl⟩ := GlobalOverrides.leaves_toValue hl
    exact Token.isReadBack_toValue (hnumbers t ht)
  · obtain rfl := List.mem_singleton.1 hl
    trivial
  · obtain rfl := List.mem_singleton.1 hl
    trivial

theorem ofMembers?_toMembers {s : Settings} (hdepth : s.overrides.toValue.depth < Json.maxDepth)
    (hnames : s.HasFreeNames) : ofMembers? jsonReader s.toMembers = some s := by
  have hread : jsonReader.overrides? s.overrides.toValue = some s.overrides := by
    simp only [jsonReader, hdepth, if_true, GlobalOverrides.ofValue?_toValue hnames]
  have htext : ∀ t, jsonReader.text? (.text t) = some (some t) := fun _ => rfl
  have hflag : ∀ b, jsonReader.flag? (.flag b) = some (some b) := fun _ => rfl
  obtain ⟨clsPrefix, bordered, nameSpace, overrides⟩ := s
  cases clsPrefix <;> cases bordered <;> cases nameSpace <;>
    simp [toMembers, optionalMember, ofMembers?, Found.add?, once, htext, hflag, hread, Found.settings]

theorem json_roundTrips : RoundTrips toValue ofJson? values HasFreeNames := by
  refine roundTrips_of ?_ ?_ (fun _ => beq_self)
    fun _ _ h => ⟨fun hx => GlobalOverrides.HasFreeNames.of_beq (beq_overrides h) hx,
      GlobalOverrides.allEqual_values (beq_overrides h)⟩
  · intro s hdepth hnumbers hnames
    have hparse := Value.parse?_json (isReadBack_of_mem_leaves hnumbers)
    rw [toValue_eq] at hparse
    rw [ofJson?, toValue_eq, hparse]
    exact ofMembers?_toMembers ((depth_toValue_le_iff s).1 hdepth) hnames
  · intro source s h
    rw [depth_toValue_le_iff, HasFreeNames, values]
    rcases overrides_of_ofJson? h with hempty | ⟨v, u, hparse, hleaves, hdepth, hread⟩
    · -- settings without overrides, so there is nothing that could go wrong
      rw [hempty]
      exact ⟨⟨nofun, nofun⟩, nofun, by decide⟩
    · have hwithin := GlobalOverrides.within_of_ofValue? hread
      have hfinite := Json.holdsFinite_of_parse? hparse
      exact ⟨hwithin.names, fun t ht => Token.isFinite_of_holdsFinite hfinite (hleaves _ (hwithin.values t ht)),
        Nat.lt_of_le_of_lt hwithin.depth hdepth⟩

end Settings

/-! ### Configurations -/

/-- Overrides, those of an application and settings are read back from their JSON text, unless a token or a component
has the name of a section or a number is not finite. -/
theorem configurations_roundTrip :
    RoundTrips Override.toValue Override.ofJson? Override.values Override.HasFreeNames ∧
    RoundTrips GlobalOverrides.toValue GlobalOverrides.ofJson? GlobalOverrides.values GlobalOverrides.HasFreeNames ∧
    RoundTrips Settings.toValue Settings.ofJson? Settings.values Settings.HasFreeNames :=
  ⟨Override.json_roundTrips, GlobalOverrides.json_roundTrips, Settings.json_roundTrips⟩

/-- An override with both sections, numbers and a text that is written with escapes. -/
theorem configurations_roundTrip_button :
    let icon := Override.empty.withToken "size" (.number 1.5)
    let base := Override.empty.withCommonToken "font" (.text "\"A\"\n")
    let button := (base.withToken "radius" (.number 3)).withPeer "Icon" icon
    (Override.toValue button).json = String.join [
      "\x7b\"common\":\x7b\"font\":\"\\\"A\\\"\\n\"\x7d,",
      "\"peers\":\x7b\"Icon\":\x7b\"size\":1.5\x7d\x7d,\"radius\":3.0\x7d"] ∧
    (Override.toValue button).depth ≤ Json.maxDepth ∧ (∀ t ∈ button.values, t.IsReadBack) ∧ button.HasFreeNames ∧
    Override.ofJson? (Override.toValue button).json = some button := by
  intro icon base button
  have hdepth : (Override.toValue button).depth ≤ Json.maxDepth := by decide
  have hnumbers : ∀ t ∈ button.values, t.IsReadBack := by decide +kernel
  have hnames : button.HasFreeNames := by decide
  exact ⟨by decide +kernel, hdepth, hnumbers, hnames, configurations_roundTrip.1.exact button hdepth hnumbers hnames⟩

end Theming
