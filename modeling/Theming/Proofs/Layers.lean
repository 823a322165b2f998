import Theming.Theme.Merged

/-!
# Layers read one name at a time

Maps, definitions and overrides are laid on each other, and what is read off the result is what the uppermost layer
says that says anything.  `firstPresent` chooses among layers, the strongest first, `lookup` does so for one name, and
`ReadsTop` says of a reading that layering preserves it in this sense; the readings of maps and peers are of this kind
(`ReadsTop.at?`, `get?_layered`).
-/

namespace Theming

/-! ### The first value present -/

def firstPresent {β : Type} (candidates : List (Option β)) : Option β := candidates.findSome? id

section FirstPresent

variable {β : Type}

@[simp] theorem firstPresent_nil : firstPresent ([] : List (Option β)) = none := rfl

@[simp] theorem firstPresent_cons (a : Option β) (l : List (Option β)) :
    firstPresent (a :: l) = a.or (firstPresent l) := by
  cases a <;> rfl

theorem firstPresent_append (l l' : List (Option β)) :
    firstPresent (l ++ l') = (firstPresent l).or (firstPresent l') := by
  induction l with
  | nil => simp
  | cons a l ih => simp [ih, Option.or_assoc]

theorem firstPresent_eq_none_iff {l : List (Option β)} : firstPresent l = none ↔ ∀ a ∈ l, a = none := by
  induction l with
  | nil => simp
  | cons a l ih => simp [ih]

end FirstPresent

/-! ### Readings that layering preserves -/

/-- What `read` finds in two values laid on each other is what it finds in the upper one, or else in the lower one. -/
def ReadsTop {α β : Type} (combine : α → α → α) (read : α → Option β) : Prop :=
  ∀ base top, read (combine base top) = (read top).or (read base)

namespace ReadsTop

variable {α β : Type} {combine : α → α → α} {read : α → Option β}

theorem bind_merge (h : ReadsTop combine read) (base top : Option α) :
    (Option.merge combine base top).bind read = (top.bind read).or (base.bind read) := by
  cases base with
  | none => cases top <;> simp
  | some a =>
    cases top with
    | none => simp
    | some b => exact h a b

theorem bind_get?_mergeWith (h : ReadsTop combine read) (base top : NameMap α) (name : String) :
    ((NameMap.mergeWith combine base top).get? name).bind read =
      ((top.get? name).bind read).or ((base.get? name).bind read) := by
  rw [NameMap.get?_mergeWith]
  exact h.bind_merge _ _

theorem own (h : ReadsTop combine read) : ReadsTop (Peered.merge combine) fun p => read p.own := by
  intro base top
  show read (Peered.merge combine base top).own = _
  rw [Peered.own_merge]
  exact h _ _

/-- A reading of values with peers may be made at any path. -/
theorem at? {read : Peered α → Option β} (h : ReadsTop (Peered.merge combine) read) (path : List String) :
    ReadsTop (Peered.merge combine) fun p => (p.at? path).bind read := by
  intro base top
  show ((Peered.merge combine base top).at? path).bind read = _
  rw [Peered.at?_merge]
  exact h.bind_merge _ _

/-- Layers on a map answer before the map does, the last one first. -/
theorem bind_get?_layered (h : ReadsTop combine read) (m : NameMap α) (layers : List (Option (NameMap α)))
    (name : String) :
    ((layered (NameMap.mergeWith combine) m layers).get? name).bind read =
      firstPresent ((layers.reverse ++ [some m]).map (·.bind fun t => (t.get? name).bind read)) := by
  induction layers generalizing m with
  | nil => simp [layered]
  | cons layer layers ih =>
    have step : ((layer.elim m (NameMap.mergeWith combine m)).get? name).bind read =
        (layer.bind fun t => (t.get? name).bind read).or ((m.get? name).bind read) := by
      cases layer with
      | none => rfl
      | some top => exact h.bind_get?_mergeWith m top name
    rw [layered, List.foldl_cons, ← layered, ih]
    simp [firstPresent_append, step]

/-- Layers of peers, read at a path: each value laid on the map answers at the whole path, the last one first. -/
theorem bind_peers_layered {read : Peered α → Option β} (h : ReadsTop (Peered.merge combine) read)
    (m : NameMap (Peered α)) (layers : List (Option (Peered α))) (name : String) (path : List String) :
    (((layered (NameMap.mergeWith (Peered.merge combine)) m (layers.map (·.map Peered.peers))).get? name).bind
        (·.at? path)).bind read =
      firstPresent ((layers.reverse.map fun p => (p.bind (·.at? (name :: path))).bind read) ++
        [((m.get? name).bind (·.at? path)).bind read]) := by
  have hlayers := (h.at? path).bind_get?_layered m (layers.map (·.map Peered.peers)) name
  have hpeers : ∀ p : Option (Peered α), ((p.map Peered.peers).bind fun t => (t.get? name).bind fun q =>
      (q.at? path).bind read) = (p.bind (·.at? (name :: path))).bind read := by
    intro p
    cases p with
    | none => rfl
    | some p => simp [Peered.at?, Option.bind_assoc]
  rw [Option.bind_assoc, hlayers]
  simp [firstPresent_append, ← hpeers, Option.bind_assoc, Function.comp_def]

end ReadsTop

/-! ### Token maps -/

theorem readsTop_get? (name : String) : ReadsTop NameMap.merge (Entries.get? name : TokenMap → Option Token) :=
  fun base top => NameMap.get?_merge base top name

/-- Common tokens laid on each other are there if either are. -/
theorem present_mergeCommon (base top : Option TokenMap) :
    ((mergeCommon base top).map fun _ => ()) = (top.map fun _ => ()).or (base.map fun _ => ()) := by
  cases base <;> cases top <;> rfl

/-- The token that the first layer with the name has for it. -/
def lookup (name : String) (layers : List (Option TokenMap)) : Option Token :=
  firstPresent (layers.map (·.bind (Entries.get? name)))

section Lookup

variable {name : String}

@[simp] theorem lookup_nil : lookup name [] = none := rfl

@[simp] theorem lookup_cons (layer : Option TokenMap) (layers : List (Option TokenMap)) :
    lookup name (layer :: layers) = (layer.bind (Entries.get? name)).or (lookup name layers) :=
  firstPresent_cons _ _

theorem lookup_append (upper lower : List (Option TokenMap)) :
    lookup name (upper ++ lower) = (lookup name upper).or (lookup name lower) := by
  simp only [lookup, List.map_append, firstPresent_append]

theorem lookup_map {α : Type} (layer : α → Option TokenMap) (l : List α) :
    lookup name (l.map layer) = firstPresent (l.map fun a => (layer a).bind (Entries.get? name)) := by
  rw [lookup, List.map_map]
  rfl

theorem lookup_isSome_iff {layers : List (Option TokenMap)} :
    (lookup name layers).isSome = true ↔ ∃ t, some t ∈ layers ∧ name ∈ t.keys := by
  induction layers with
  | nil => simp
  | cons layer layers ih =>
    rw [lookup_cons, Option.isSome_or, Bool.or_eq_true, ih]
    cases layer with
    | none => simp
    | some top => simp [Entries.mem_keys_iff, or_and_right, exists_or]

end Lookup

theorem get?_layered (m : TokenMap) (layers : List (Option TokenMap)) (name : String) :
    (layered NameMap.merge m layers).get? name = lookup name (layers.reverse ++ [some m]) := by
  have upper : ReadsTop (fun _ v : Token => v) some := fun _ _ => rfl
  have h := upper.bind_get?_layered m layers name
  simp only [Option.bind_fun_some] at h
  exact h

/-- A part is missing from layers on each other just if it is missing from all of them. -/
theorem bind_eq_none_iff_of_firstPresent {α β : Type} {part : α → Option β} {merged : Option α}
    {layers : List (Option α)}
    (h : (merged.bind fun a => (part a).map fun _ => ()) =
      firstPresent (layers.map (·.bind fun a => (part a).map fun _ => ()))) :
    merged.bind part = none ↔ ∀ a ∈ layers, a.bind part = none := by
  have absent : ∀ a : Option α, (a.bind fun a => (part a).map fun _ => ()) = none ↔ a.bind part = none := by
    intro a
    cases a <;> simp
  rw [← absent, h, firstPresent_eq_none_iff]
  simp only [List.forall_mem_map, absent]

/-- Whether a layer is there at all. -/
theorem readsTop_present {α : Type} (combine : α → α → α) : ReadsTop combine fun a => (some a).map fun _ => () :=
  fun _ _ => rfl

/-! ### Parts of a definition -/

namespace Definition

/-- The name of a definition that has one. -/
def name? (d : Definition) : Option String := if d.name = "" then none else some d.name

theorem readsTop_name? : ReadsTop merge name? :=
  have upper : ReadsTop Family.merge fun f => if f.name = "" then none else some f.name := fun base top => by
    by_cases htop : top.name = ""
    · simp [Family.merge, htop]
    · simp [Family.merge, htop]
  upper.own

theorem readsTop_generator : ReadsTop merge generator :=
  have upper : ReadsTop Family.merge Family.generator := fun _ _ => rfl
  upper.own

theorem readsTop_common (name : String) : ReadsTop merge fun d => d.common.bind (Entries.get? name) :=
  have upper : ReadsTop Family.merge fun f => f.common.bind (Entries.get? name) := fun base top =>
    (readsTop_get? name).bind_merge base.common top.common
  upper.own

/-- Whether a definition has common tokens at all. -/
theorem readsTop_hasCommon : ReadsTop merge fun d => d.common.map fun _ => () :=
  have upper : ReadsTop Family.merge fun f => f.common.map fun _ => () := fun base top =>
    present_mergeCommon base.common top.common
  upper.own

end Definition

/-! ### Sections of an override -/

namespace Override

/-- What an override says about a common token. -/
def common? (name : String) (o : Override) : Option Token := o.common.bind (Entries.get? name)

/-- What an override says about an own token. -/
def token? (name : String) (o : Override) : Option Token := o.tokens.get? name

theorem bind_common (name : String) (o : Option Override) :
    (o.bind common).bind (Entries.get? name) = o.bind (common? name) := by
  cases o <;> rfl

theorem bind_tokens (name : String) (o : Option Override) :
    (o.map tokens).bind (Entries.get? name) = o.bind (token? name) := by
  cases o <;> rfl

theorem readsTop_common? (name : String) : ReadsTop merge (common? name) :=
  have upper : ReadsTop Patch.merge fun p => p.common.bind (Entries.get? name) := fun base top =>
    (readsTop_get? name).bind_merge base.common top.common
  upper.own

/-- Whether an override has common tokens at all. -/
theorem readsTop_hasCommon : ReadsTop merge fun o => o.common.map fun _ => () :=
  have upper : ReadsTop Patch.merge fun p => p.common.map fun _ => () := fun base top =>
    present_mergeCommon base.common top.common
  upper.own

theorem readsTop_token? (name : String) : ReadsTop merge (token? name) :=
  have upper : ReadsTop Patch.merge fun p => p.tokens.get? name := fun base top =>
    readsTop_get? name base.tokens top.tokens
  upper.own

end Override

end Theming
