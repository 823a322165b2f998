import Theming.NameMap

/-!
# Values with peers

A component embeds others, its peers, and what is said about a component may say the same kind of thing about each
peer by name, to any depth.  Layering goes down this tree: the values of one name are combined, and a peer that only
one side has is kept as it is (`at?_merge`).  A value is determined by what stands at its paths (`ext_at?`).
-/

namespace Theming

inductive Peered (α : Type) where
  | mk (own : α) (peers : Entries (Peered α) none)

namespace Peered

variable {α : Type}

def own : Peered α → α
  | .mk a _ => a

def peers : Peered α → NameMap (Peered α)
  | .mk _ ps => ps

/-- A value without peers. -/
def single (a : α) : Peered α := .mk a ∅

def setOwn (a : α) (p : Peered α) : Peered α := .mk a p.peers

def setPeer (name : String) (peer p : Peered α) : Peered α := .mk p.own (p.peers.insert name peer)

mutual

/-- Lays a value on `base`, combining the values at each path with the one of `base` first. -/
def merge (combine : α → α → α) (base : Peered α) : Peered α → Peered α
  | .mk a ps => .mk (combine base.own a) (mergePeers combine base.peers ps)
termination_by structural top => top

def mergePeers (combine : α → α → α) (base : NameMap (Peered α)) :
    {bound : Option String} → Entries (Peered α) bound → NameMap (Peered α)
  | _, .nil => base
  | _, .cons name p _ rest =>
    mergePeers combine
      (base.alter name (fun old => match old with | none => p | some q => merge combine q p) (.ofNone name)) rest
termination_by structural _ top => top

end

/-- The value at a path of peer names. -/
def at? (p : Peered α) : List String → Option (Peered α)
  | [] => some p
  | name :: path => (p.peers.get? name).bind fun q => q.at? path

mutual

def beq [BEq α] : Peered α → Peered α → Bool
  | .mk a ps, q => a == q.own && beqPeers ps q.peers
termination_by structural p => p

def beqPeers [BEq α] : {b c : Option String} → Entries (Peered α) b → Entries (Peered α) c → Bool
  | _, _, .nil, qs => qs.isEmpty
  | _, _, .cons name p _ ps, qs =>
    match qs with
    | .nil => false
    | .cons name' q _ qs => name == name' && beq p q && beqPeers ps qs
termination_by structural _ _ ps => ps

end

instance [BEq α] : BEq (Peered α) := ⟨beq⟩

/-! ### Values at paths -/

theorem merge_mk (combine : α → α → α) (base : Peered α) (a : α) (ps : NameMap (Peered α)) :
    merge combine base (.mk a ps) = .mk (combine base.own a) (NameMap.mergeWith (merge combine) base.peers ps) := by
  have go : ∀ {bound : Option String} (ps : Entries (Peered α) bound) (base : NameMap (Peered α)),
      mergePeers combine base ps =
        ps.foldl (fun m n p => m.alter n (fun old => old.elim p (merge combine · p)) (.ofNone n)) base := by
    intro bound ps
    induction ps with
    | nil => intro base; rw [mergePeers, Entries.foldl]
    | cons n p _ rest ih =>
      intro base
      rw [mergePeers, Entries.foldl, ih]
      congr 2
      funext old
      cases old <;> rfl
  rw [merge, go]
  rfl

theorem own_merge (combine : α → α → α) (base top : Peered α) :
    (merge combine base top).own = combine base.own top.own := by
  cases top with
  | mk a ps => rw [merge_mk]; rfl

theorem peers_merge (combine : α → α → α) (base top : Peered α) :
    (merge combine base top).peers = NameMap.mergeWith (merge combine) base.peers top.peers := by
  cases top with
  | mk a ps => rw [merge_mk]; rfl

/-- Layering combines the values at each path. -/
theorem at?_merge (combine : α → α → α) (base top : Peered α) (path : List String) :
    (merge combine base top).at? path = Option.merge (merge combine) (base.at? path) (top.at? path) := by
  induction path generalizing base top with
  | nil => rfl
  | cons name path ih =>
    rw [at?, at?, at?, peers_merge, NameMap.get?_mergeWith]
    cases base.peers.get? name <;> cases top.peers.get? name <;> simp [ih]

mutual

/-- Induction on peers: a property that passes from all peers of a value to the value holds of every value. -/
theorem induct {motive : Peered α → Prop}
    (step : ∀ a (ps : NameMap (Peered α)), (∀ name p, ps.get? name = some p → motive p) → motive (.mk a ps)) :
    (p : Peered α) → motive p
  | .mk a ps => step a ps (inductPeers step ps)

private theorem inductPeers {motive : Peered α → Prop}
    (step : ∀ a (ps : NameMap (Peered α)), (∀ name p, ps.get? name = some p → motive p) → motive (.mk a ps)) :
    {bound : Option String} → (ps : Entries (Peered α) bound) → (name : String) → (p : Peered α) →
      ps.get? name = some p → motive p
  | _, .nil, _, _, h => by simp [Entries.get?_nil] at h
  | _, .cons n q _ rest, name, p, h => by
    rw [Entries.get?_cons] at h
    split at h
    · exact Option.some.inj h ▸ induct step q
    · exact inductPeers step rest name p h

end

/-- A value is determined by what stands at its paths. -/
theorem ext_at? {p q : Peered α} (h : ∀ path, (p.at? path).map own = (q.at? path).map own) : p = q := by
  induction p using induct generalizing q with
  | step a ps ih =>
    obtain ⟨b, qs⟩ := q
    have own : a = b := by simpa [at?, Peered.own] using h []
    rw [own]
    congr 1
    refine Entries.ext_get? fun name => ?_
    have here := h [name]
    simp only [at?, peers] at here
    cases hp : ps.get? name with
    | none => cases hq : qs.get? name <;> simp_all
    | some p =>
      cases hq : qs.get? name with
      | none => simp_all
      | some q =>
        rw [ih name p hp fun path => ?_]
        simpa [at?, peers, hp, hq] using h (name :: path)

end Peered

end Theming
