import Mathlib.Data.List.Induction
import Theming.Proofs.Config.Acceptance
import Theming.Proofs.Config.Meaning
import Theming.Provider.Settings

/-!
# Overrides read and built

What is read from a value can also be built by calls, one for each token and for each peer, in the order of the members
(`Override.calls`).  Calls make a common section when they put a token into it, so a section that is there but empty is
read and never built.  This is the only difference (`override_values`).
-/

namespace Theming

/-! ### Calls -/

/-- The members that are tokens, one by one. -/
def tokenMembers (members : List (String × Value)) : List (String × Token) :=
  members.filterMap fun m => (Token.ofValue? m.2).map (m.1, ·)

theorem tokenMembers_of_readMembers? {members : List (String × Value)} {ts : List (String × Token)}
    (h : readMembers? Token.ofValue? members = some ts) : tokenMembers members = ts := by
  induction members generalizing ts with
  | nil => exact Option.some.inj h
  | cons m members ih =>
    obtain ⟨t, rest, ht, hrest, rfl⟩ := readMembers?_cons_eq_some_iff.1 h
    rw [tokenMembers, List.filterMap_cons, ht, ← tokenMembers, ih hrest]
    rfl

namespace Override

/-- A call that adds to an override. -/
inductive Call
  | token (name : String) (t : Token)
  | commonToken (name : String) (t : Token)
  | peer (name : String) (o : Override)

namespace Call

def apply (o : Override) : Call → Override
  | .token name t => o.withToken name t
  | .commonToken name t => o.withCommonToken name t
  | .peer name p => o.withPeer name p

def token? : Call → Option (String × Token)
  | .token name t => some (name, t)
  | _ => none

def commonToken? : Call → Option (String × Token)
  | .commonToken name t => some (name, t)
  | _ => none

def peer? : Call → Option (String × Override)
  | .peer name p => some (name, p)
  | _ => none

end Call

/-- The override that calls build, the first one first. -/
def build (calls : List Call) : Override := calls.foldl Call.apply .empty

mutual

/-- The calls for the members of an object, in their order: those of a section for the members of the section. -/
def calls : Value → List Call
  | .object members => memberCalls members
  | _ => []
termination_by structural v => v

def memberCalls : List (String × Value) → List Call
  | [] => []
  | (name, v) :: rest =>
    (if name = "common" then (tokenMembers v.members).map fun p => .commonToken p.1 p.2
      else if name = "peers" then peerCalls v
      else (Token.ofValue? v).toList.map (.token name)) ++ memberCalls rest
termination_by structural ms => ms

def peerCalls : Value → List Call
  | .object inner => eachPeerCall inner
  | _ => []
termination_by structural v => v

def eachPeerCall : List (String × Value) → List Call
  | [] => []
  | (name, v) :: rest => .peer name (build (calls v)) :: eachPeerCall rest
termination_by structural ms => ms

end

/-- A common section, if there is a token to be put into it. -/
def sectionOf (ts : List (String × Token)) : Option TokenMap := if ts = [] then none else some (NameMap.ofList ts)

theorem sectionOf_append_singleton (ts : List (String × Token)) (name : String) (t : Token) :
    sectionOf (ts ++ [(name, t)]) = some (((sectionOf ts).getD ∅).insert name t) := by
  have hend : ts ++ [(name, t)] ≠ [] := by simp
  rw [sectionOf, if_neg hend, NameMap.ofList_append_singleton, sectionOf]
  by_cases hts : ts = []
  · rw [if_pos hts, hts]
    rfl
  · rw [if_neg hts]
    rfl

/-- Each kind of call builds its own part, whatever calls of other kinds stand between. -/
theorem build_eq (calls : List Call) :
    build calls =
      .mk { common := sectionOf (calls.filterMap Call.commonToken?)
            tokens := NameMap.ofList (calls.filterMap Call.token?) }
        (NameMap.ofList (calls.filterMap Call.peer?)) := by
  induction calls using List.reverseRecOn with
  | nil => rfl
  | append_singleton calls c ih =>
    -- the last call adds to one of the parts, and the others stay as they are
    rw [build, List.foldl_append, ← build, ih]
    cases c <;>
      simp only [List.filterMap_append, List.filterMap_cons, List.filterMap_nil, List.append_nil, Call.token?,
        Call.commonToken?, Call.peer?, NameMap.ofList_append_singleton, sectionOf_append_singleton] <;> rfl

theorem peerCalls_eq (v : Value) : peerCalls v = v.members.map fun m => .peer m.1 (build (calls m.2)) := by
  have heach : ∀ inner : List (String × Value),
      eachPeerCall inner = inner.map fun m => .peer m.1 (build (calls m.2)) := by
    intro inner
    induction inner with
    | nil => rfl
    | cons m inner ih => rw [eachPeerCall, ih, List.map_cons]
  cases v with
  | object inner => exact heach inner
  | _ => rfl

/-- The calls of each kind are those for the members of one part. -/
theorem memberCalls_parts (members : List (String × Value)) :
    (memberCalls members).filterMap Call.commonToken? = tokenMembers (sectionMembers "common" members) ∧
    (memberCalls members).filterMap Call.peer? =
      (sectionMembers "peers" members).map (fun m => (m.1, build (calls m.2))) ∧
    (memberCalls members).filterMap Call.token? = tokenMembers (members.filter fun m => IsOwnName m.1) := by
  induction members with
  | nil => exact ⟨rfl, rfl, rfl⟩
  | cons m members ih =>
    obtain ⟨name, v⟩ := m
    obtain ⟨hcommon, hpeers, htokens⟩ := ih
    simp only [memberCalls, List.filterMap_append, hcommon, hpeers, htokens, sectionMembers, named_cons]
    by_cases hc : name = "common"
    · subst hc
      simp [tokenMembers, IsOwnName, Function.comp_def, Call.commonToken?, Call.peer?, Call.token?]
    · by_cases hp : name = "peers"
      · subst hp
        simp [peerCalls_eq, tokenMembers, IsOwnName, Function.comp_def, Call.commonToken?, Call.peer?, Call.token?]
      · have hown : IsOwnName name := ⟨hc, hp⟩
        cases hread : Token.ofValue? v <;>
          simp [hc, hp, hown, hread, tokenMembers, Call.commonToken?, Call.peer?, Call.token?]

theorem build_calls (v : Value) :
    build (calls v) =
      .mk { common := sectionOf (tokenMembers (sectionMembers "common" v.members))
            tokens := NameMap.ofList (tokenMembers (v.members.filter fun m => IsOwnName m.1)) }
        (NameMap.ofList ((sectionMembers "peers" v.members).map fun m => (m.1, build (calls m.2)))) := by
  have hcalls : calls v = memberCalls v.members := by
    cases v <;> rfl
  obtain ⟨hcommon, hpeers, htokens⟩ := memberCalls_parts v.members
  rw [hcalls, build_eq, hcommon, hpeers, htokens]

end Override

/-! ### Empty sections -/

/-- The common section is left out if there is nothing in it. -/
def Patch.withoutEmptySection (p : Patch) : Patch := { p with common := p.common.filter fun m => !m.isEmpty }

theorem Patch.withoutEmptySection_eq_iff {p : Patch} : p.withoutEmptySection = p ↔ p.common ≠ some ∅ := by
  obtain ⟨common, tokens⟩ := p
  cases common with
  | none => simp [withoutEmptySection]
  | some m =>
    cases m with
    | nil => exact iff_of_false (by simp [withoutEmptySection, Option.filter, Entries.isEmpty]) (fun h => h rfl)
    | cons name t follows rest =>
      refine iff_of_true rfl fun h => ?_
      cases h

namespace Override

theorem sectionOf_eq_filter (ts : List (String × Token)) :
    sectionOf ts = (some (NameMap.ofList ts)).filter fun m => !m.isEmpty := by
  cases ts with
  | nil => rfl
  | cons p ts =>
    have hfilled : (NameMap.ofList (p :: ts)).isEmpty = false := by
      rw [Bool.eq_false_iff, ne_eq, Entries.isEmpty_iff]
      intro h
      have hlast := h p.1
      rw [NameMap.get?_ofList, named_cons, if_pos rfl] at hlast
      simp at hlast
    rw [Option.filter_some_pos (by simp [hfilled])]
    rfl

theorem own_build_calls {v : Value} {o : Override} (h : ofValue? v = some o) :
    (build (calls v)).own = o.own.withoutEmptySection := by
  obtain ⟨m, rfl, hcommon, -, htokens⟩ := exists_of_ofValue? h
  rw [build_calls, tokenMembers_of_readMembers? htokens]
  refine congrArg (Patch.mk · _) ?_
  rcases TokenMap.of_atMostOne? hcommon with ⟨hnull, hc⟩ | ⟨inner, ts, hvs, hts, hc⟩
  · have hnone : sectionMembers "common" v.members = [] := by
      refine List.flatMap_eq_nil_iff.2 fun u hu => ?_
      rw [hnull u hu]
      rfl
    rw [hnone]
    show _ = (m.common.getD none).filter _
    rw [hc]
    rfl
  · have hinner : sectionMembers "common" v.members = inner := by
      rw [sectionMembers, hvs]
      exact List.append_nil inner
    rw [hinner, tokenMembers_of_readMembers? hts, sectionOf_eq_filter, ← hc]
    rfl

/-- A peer that is read is built from the same value. -/
theorem peers_build_calls {v : Value} {o : Override} (h : ofValue? v = some o) (name : String) :
    o.peers.get? name = none ∧ (build (calls v)).peers.get? name = none ∨
      ∃ u p, ofValue? u = some p ∧ o.peers.get? name = some p ∧
        (build (calls v)).peers.get? name = some (build (calls u)) := by
  obtain ⟨m, rfl, -, hsection, -⟩ := exists_of_ofValue? h
  obtain ⟨ps, hps, hofList⟩ := peers_of_atMostOne? hsection
  rw [build_calls, hofList]
  exact get?_ofList_cases hps (fun u => build (calls u)) name

/-- What is read and what is built say the same at every path, but for sections without tokens. -/
theorem at?_build_calls {v : Value} {o : Override} (h : ofValue? v = some o) (path : List String) :
    ((build (calls v)).at? path).map Peered.own = ((o.at? path).map Peered.own).map Patch.withoutEmptySection := by
  -- each name of the path leads from a value to a member of its section of peers
  induction path generalizing v o with
  | nil => exact congrArg some (own_build_calls h)
  | cons name path ih =>
    rw [Peered.at?, Peered.at?]
    rcases peers_build_calls h name with ⟨hread, hbuilt⟩ | ⟨u, p, hp, hread, hbuilt⟩
    · rw [hread, hbuilt]
      rfl
    · rw [hread, hbuilt]
      exact ih hp

/-- No common section is there but empty, at any path. -/
def HasNoEmptySection (o : Override) : Prop := ∀ path (p : Override), o.at? path = some p → p.common ≠ some ∅

theorem build_calls_eq_iff {v : Value} {o : Override} (h : ofValue? v = some o) :
    build (calls v) = o ↔ o.HasNoEmptySection := by
  have hpath : ∀ path, ((build (calls v)).at? path).map Peered.own = (o.at? path).map Peered.own ↔
      ∀ p : Override, o.at? path = some p → p.common ≠ some ∅ := by
    intro path
    rw [at?_build_calls h]
    cases o.at? path with
    | none => simp
    | some p => simp [Patch.withoutEmptySection_eq_iff, common]
  constructor
  · rintro rfl path
    exact (hpath path).1 rfl
  · exact fun hno => Peered.ext_at? fun path => (hpath path).2 (hno path)

end Override

/-! ### Overrides of an application -/

namespace GlobalOverrides

/-- A call that adds to the overrides of an application. -/
inductive Call
  | common (tokens : TokenMap)
  | component (id : String) (o : Override)

namespace Call

def apply (o : GlobalOverrides) : Call → GlobalOverrides
  | .common tokens => o.withCommon tokens
  | .component id c => o.withComponent id c

def common? : Call → Option TokenMap
  | .common tokens => some tokens
  | _ => none

def component? : Call → Option (String × Override)
  | .component id c => some (id, c)
  | _ => none

end Call

/-- The overrides that calls build, the first one first. -/
def build (calls : List Call) : GlobalOverrides := calls.foldl Call.apply {}

/-- The tokens of a section that is an object. -/
def sectionTokens? : Value → Option TokenMap
  | .object members => some (NameMap.ofList (tokenMembers members))
  | _ => none

/-- The calls for a member. -/
def callsFor (m : String × Value) : List Call :=
  if m.1 = "common" then (sectionTokens? m.2).toList.map .common
  else [.component m.1 (Override.build (Override.calls m.2))]

/-- The calls for the members of an object, in their order. -/
def calls (v : Value) : List Call := v.members.flatMap callsFor

theorem build_eq (calls : List Call) :
    build calls =
      { common := (calls.filterMap Call.common?).getLast?
        components := NameMap.ofList (calls.filterMap Call.component?) } := by
  induction calls using List.reverseRecOn with
  | nil => rfl
  | append_singleton calls c ih =>
    rw [build, List.foldl_append, ← build, ih]
    cases c <;>
      simp only [List.filterMap_append, List.filterMap_cons, List.filterMap_nil, List.append_nil, Call.common?,
        Call.component?, NameMap.ofList_append_singleton, List.getLast?_concat] <;> rfl

theorem build_calls (v : Value) :
    build (calls v) =
      { common := ((named "common" v.members).filterMap sectionTokens?).getLast?
        components := NameMap.ofList ((v.members.filter fun m => m.1 ≠ "common").map fun m =>
          (m.1, Override.build (Override.calls m.2))) } := by
  have hparts : ∀ members : List (String × Value),
      (members.flatMap callsFor).filterMap Call.common? = (named "common" members).filterMap sectionTokens? ∧
      (members.flatMap callsFor).filterMap Call.component? =
        (members.filter fun m => m.1 ≠ "common").map fun m => (m.1, Override.build (Override.calls m.2)) := by
    intro members
    induction members with
    | nil => exact ⟨rfl, rfl⟩
    | cons m members ih =>
      simp only [List.flatMap_cons, List.filterMap_append, ih.1, ih.2, named_cons]
      by_cases hc : m.1 = "common"
      · cases hread : sectionTokens? m.2 <;> simp [callsFor, hc, hread, Call.common?, Call.component?]
      · simp [callsFor, hc, Call.common?, Call.component?]
  rw [calls, build_eq, (hparts v.members).1, (hparts v.members).2]

/-- The common tokens that are read are built, also if there are none in their section. -/
theorem common_build_calls {v : Value} {o : GlobalOverrides} (h : ofValue? v = some o) :
    (build (calls v)).common = o.common := by
  obtain ⟨m, rfl, hcommon, -⟩ := exists_of_ofValue? h
  rw [build_calls]
  show ((named "common" v.members).filterMap sectionTokens?).getLast? = m.common.getD none
  rcases TokenMap.of_atMostOne? hcommon with ⟨hnull, hc⟩ | ⟨inner, ts, hvs, hts, hc⟩
  · have hnone : (named "common" v.members).filterMap sectionTokens? = [] := by
      refine List.filterMap_eq_nil_iff.2 fun u hu => ?_
      rw [hnull u hu]
      rfl
    rw [hnone, hc]
    rfl
  · rw [hvs, hc, ← tokenMembers_of_readMembers? hts]
    rfl

/-- A component that is read is built from the same value. -/
theorem components_build_calls {v : Value} {o : GlobalOverrides} (h : ofValue? v = some o) (id : String) :
    o.components.get? id = none ∧ (build (calls v)).components.get? id = none ∨
      ∃ u c, Override.ofValue? u = some c ∧ o.components.get? id = some c ∧
        (build (calls v)).components.get? id = some (Override.build (Override.calls u)) := by
  obtain ⟨m, rfl, -, hothers⟩ := exists_of_ofValue? h
  rw [build_calls]
  exact get?_ofList_cases hothers (fun u => Override.build (Override.calls u)) id

/-- What is read and what is built say the same of every component at every path, but for sections without tokens. -/
theorem at?_build_calls {v : Value} {o : GlobalOverrides} (h : ofValue? v = some o) (id : String)
    (path : List String) :
    (((build (calls v)).components.get? id).bind (·.at? path)).map Peered.own =
      (((o.components.get? id).bind (·.at? path)).map Peered.own).map Patch.withoutEmptySection := by
  rcases components_build_calls h id with ⟨hread, hbuilt⟩ | ⟨u, c, hc, hread, hbuilt⟩
  · rw [hread, hbuilt]
    rfl
  · rw [hread, hbuilt]
    exact Override.at?_build_calls hc path

theorem build_calls_eq_iff {v : Value} {o : GlobalOverrides} (h : ofValue? v = some o) :
    build (calls v) = o ↔ ∀ id c, o.components.get? id = some c → Override.HasNoEmptySection c := by
  constructor
  · intro heq id c hc
    rcases components_build_calls h id with ⟨hread, -⟩ | ⟨u, c', hc', hread, hbuilt⟩
    · rw [hread] at hc
      cases hc
    · obtain rfl := Option.some.inj (hread.symm.trans hc)
      rw [heq, hread] at hbuilt
      exact (Override.build_calls_eq_iff hc').1 (Option.some.inj hbuilt).symm
  · intro hno
    have hcomponents : (build (calls v)).components = o.components := by
      refine Entries.ext_get? fun id => ?_
      rcases components_build_calls h id with ⟨hread, hbuilt⟩ | ⟨u, c, hc, hread, hbuilt⟩
      · rw [hread, hbuilt]
      · rw [hread, hbuilt, (Override.build_calls_eq_iff hc).2 (hno id c hread)]
    exact congrArg₂ GlobalOverrides.mk (common_build_calls h) hcomponents

end GlobalOverrides

/-! ### Texts -/

theorem exists_ofJson?_iff {α : Type} {read : Value → Option α} {accepts : Value → Prop}
    (h : ∀ v, (read v).isSome = true ↔ accepts v) (source : String) :
    (∃ a, Value.ofJson? read source = some a) ↔
      ∃ v, Json.parse? source.toList = some v ∧ v.depth ≤ Json.maxDepth ∧ accepts v := by
  simp only [← Option.isSome_iff_exists, Value.ofJson?]
  cases Json.parse? source.toList with
  | none => simp
  | some v =>
    by_cases hdepth : v.depth ≤ Json.maxDepth
    · simp [hdepth, h]
    · simp [hdepth]

/-- Just the values that are laid out as overrides are read, and so are the texts of such values that are not nested too
deep.  What is read says what the members of the object say.  It is what calls build for one member after another, up to
common sections that are there but empty, which are read as they are and which no calls build. -/
theorem override_values :
    (∀ v, (∃ o, Override.ofValue? v = some o) ↔ IsOverride v) ∧
    (∀ v o, Override.ofValue? v = some o →
      Override.Means v.members o ∧
      (∀ path, ((Override.build (Override.calls v)).at? path).map Peered.own =
        ((o.at? path).map Peered.own).map Patch.withoutEmptySection) ∧
      (Override.build (Override.calls v) = o ↔ o.HasNoEmptySection)) ∧
    (∀ v, (∃ o, GlobalOverrides.ofValue? v = some o) ↔ IsGlobalOverrides v) ∧
    (∀ v o, GlobalOverrides.ofValue? v = some o →
      GlobalOverrides.Means v.members o ∧
      (GlobalOverrides.build (GlobalOverrides.calls v)).common = o.common ∧
      (∀ id path, (((GlobalOverrides.build (GlobalOverrides.calls v)).components.get? id).bind
          (·.at? path)).map Peered.own =
        (((o.components.get? id).bind (·.at? path)).map Peered.own).map Patch.withoutEmptySection) ∧
      (GlobalOverrides.build (GlobalOverrides.calls v) = o ↔
        ∀ id c, o.components.get? id = some c → Override.HasNoEmptySection c)) ∧
    ∀ source,
      ((∃ o, Override.ofJson? source = some o) ↔
        ∃ v, Json.parse? source.toList = some v ∧ v.depth ≤ Json.maxDepth ∧ IsOverride v) ∧
      ((∃ o, GlobalOverrides.ofJson? source = some o) ↔
        ∃ v, Json.parse? source.toList = some v ∧ v.depth ≤ Json.maxDepth ∧ IsGlobalOverrides v) := by
  refine ⟨fun v => ?_, fun v o h => ?_, fun v => ?_, fun v o h => ?_, fun source => ⟨?_, ?_⟩⟩
  · rw [← Option.isSome_iff_exists, Override.isSome_ofValue?_iff]
  · exact ⟨Override.means_of_ofValue? h, Override.at?_build_calls h, Override.build_calls_eq_iff h⟩
  · rw [← Option.isSome_iff_exists, GlobalOverrides.isSome_ofValue?_iff]
  · exact ⟨GlobalOverrides.means_of_ofValue? h, GlobalOverrides.common_build_calls h, GlobalOverrides.at?_build_calls h,
      GlobalOverrides.build_calls_eq_iff h⟩
  · exact exists_ofJson?_iff (fun _ => Override.isSome_ofValue?_iff) source
  · exact exists_ofJson?_iff (fun _ => GlobalOverrides.isSome_ofValue?_iff) source

/-- A peer and an own token are said twice, and one of the peers has a common section that is null. -/
theorem override_values_button :
    let button : Value := .object [("textColor", .text "#000"), ("common", .object [("primaryColor", .text "#111")]),
      ("peers", .object [("Icon", .object [("color", .text "red")]),
        ("Icon", .object [("common", .null), ("color", .flag true)])]), ("textColor", .text "#fff")]
    ∃ o g, Override.ofValue? button = some o ∧ GlobalOverrides.ofValue? (.object [("Button", button)]) = some g ∧
      o.tokens.get? "textColor" = some (.text "#fff") ∧ g.components.get? "Button" = some o ∧
      Override.build (Override.calls button) = o ∧ o.HasNoEmptySection := by
  intro button
  have hread : Override.ofValue? button = some (Override.build (Override.calls button)) := rfl
  obtain ⟨g, hg⟩ := Option.isSome_iff_exists.1
    (rfl : (GlobalOverrides.ofValue? (.object [("Button", button)])).isSome = true)
  obtain ⟨-, hoverride, -, hglobal, -⟩ := override_values
  obtain ⟨hmeans, -, hbuilt⟩ := hoverride button _ hread
  refine ⟨_, g, hread, hg, ?_, ?_, rfl, hbuilt.1 rfl⟩
  · rw [hmeans.tokens]
    rfl
  · rw [(hglobal _ g hg).1.components]
    exact hread

/-- An empty common section is read as it is, and calls for its members build an override without any section. -/
theorem override_emptySection :
    let v : Value := .object [("common", .object [])]
    IsOverride v ∧ ∃ o, Override.ofValue? v = some o ∧ o.common = some ∅ ∧ o.isEmpty = false ∧
      (Override.build (Override.calls v)).common = none ∧ (Override.build (Override.calls v)).isEmpty = true ∧
      Override.build (Override.calls v) ≠ o := by
  intro v
  refine ⟨Override.isSome_ofValue?_iff.1 rfl, .mk { common := some ∅ } ∅, rfl, rfl, rfl, rfl, rfl, fun heq => ?_⟩
  have hcommon : (none : Option TokenMap) = some ∅ := congrArg Override.common heq
  cases hcommon

end Theming
