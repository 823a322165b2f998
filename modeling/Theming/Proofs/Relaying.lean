import Theming.Proofs.Layers
import Theming.Proofs.Merging
import Theming.Proofs.NameMap

/-!
# Layers laid again

Of a layer that is laid twice only the upper copy counts.  Like associativity this passes from tokens to maps, from maps
to what is said about a single component, and from there to values with peers of any depth, so overrides, the overrides
of an application and definitions are monoids of this kind.  Nothing is lost on the way: what either layer has at a path
of peers, the merged layer has too (`merge_laws`).
-/

namespace Theming

variable {α β : Type}

/-- What lies below makes no difference once it is laid on top as well. -/
class Relays (combine : α → α → α) : Prop where
  relay (a b : α) : combine (combine a b) a = combine b a

/-! ### Maps and peers -/

/-- Where one side is missing, the other one is laid on itself. -/
instance (combine : α → α → α) [Std.IdempotentOp combine] [Relays combine] : Relays (Option.merge combine) where
  relay a b := by
    cases a with
    | none => cases b <;> rfl
    | some x =>
      cases b with
      | none => exact congrArg some (Std.IdempotentOp.idempotent x)
      | some y => exact congrArg some (Relays.relay x y)

namespace NameMap

variable (combine : β → β → β)

theorem mergeWith_self [Std.IdempotentOp combine] (m : NameMap β) : mergeWith combine m m = m := by
  have hvalues : Std.IdempotentOp (Option.merge combine) := inferInstance
  refine Entries.ext_get? fun name => ?_
  rw [get?_mergeWith, hvalues.idempotent]

theorem mergeWith_relay [Std.IdempotentOp combine] [Relays combine] (a b : NameMap β) :
    mergeWith combine (mergeWith combine a b) a = mergeWith combine b a := by
  refine Entries.ext_get? fun name => ?_
  simp only [get?_mergeWith]
  exact Relays.relay _ _

instance : Std.IdempotentOp (merge : NameMap β → NameMap β → NameMap β) :=
  have : Std.IdempotentOp fun _ v : β => v := ⟨fun _ => rfl⟩
  ⟨mergeWith_self fun _ v => v⟩

instance : Relays (merge : NameMap β → NameMap β → NameMap β) :=
  have : Std.IdempotentOp fun _ v : β => v := ⟨fun _ => rfl⟩
  have : Relays fun _ v : β => v := ⟨fun _ _ => rfl⟩
  ⟨mergeWith_relay fun _ v => v⟩

end NameMap

namespace Peered

variable (combine : α → α → α)

instance [Std.IdempotentOp combine] : Std.IdempotentOp (merge combine) where
  idempotent a := by
    have hvalues : Std.IdempotentOp (Option.merge combine) := inferInstance
    refine ext_at? fun path => ?_
    rw [map_own_at?_merge, hvalues.idempotent]

instance [Std.IdempotentOp combine] [Relays combine] : Relays (merge combine) where
  relay a b := by
    refine ext_at? fun path => ?_
    simp only [map_own_at?_merge]
    exact Relays.relay _ _

/-- A layer without peers that says nothing itself says nothing at all. -/
theorem single_merge {a : α} (h : ∀ b, combine a b = b) (p : Peered α) : merge combine (single a) p = p := by
  obtain ⟨b, ps⟩ := p
  rw [merge_mk]
  show mk (combine a b) (NameMap.mergeWith (merge combine) ∅ ps) = mk b ps
  rw [h, NameMap.empty_mergeWith]

theorem merge_single {a : α} (h : ∀ b, combine b a = b) (p : Peered α) : merge combine p (single a) = p := by
  obtain ⟨b, ps⟩ := p
  rw [single, merge_mk]
  show mk (combine b a) (NameMap.mergeWith (merge combine) ps ∅) = mk b ps
  rw [h, NameMap.mergeWith_empty]

end Peered

/-! ### Definitions and overrides -/

instance : Std.IdempotentOp mergeCommon := inferInstanceAs (Std.IdempotentOp (Option.merge NameMap.merge))

instance : Relays mergeCommon := inferInstanceAs (Relays (Option.merge NameMap.merge))

namespace Family

instance : Std.IdempotentOp merge where
  idempotent f := by
    simp only [merge, Std.IdempotentOp.idempotent, ite_self]

instance : Relays merge where
  relay a b := by
    simp only [merge, Family.mk.injEq]
    refine ⟨?_, Relays.relay _ _, ?_⟩
    · by_cases ha : a.name = ""
      · simp [ha]
      · simp [ha]
    · cases a.generator with
      | none => rw [Option.none_or, Option.none_or, Option.or_none]
      | some g => rfl

theorem empty_merge (f : Family) : merge {} f = f := by
  have hname : (if f.name = "" then "" else f.name) = f.name := by
    split
    · next h => exact h.symm
    · rfl
  simp only [merge, hname, none_mergeCommon, Option.or_none]

theorem merge_empty (f : Family) : f.merge {} = f := by
  simp only [merge, if_true, mergeCommon_none, Option.none_or]

end Family

namespace Patch

instance : Std.IdempotentOp merge where
  idempotent p := by
    simp only [merge, Std.IdempotentOp.idempotent]

instance : Relays merge where
  relay a b := by
    simp only [merge, Patch.mk.injEq]
    exact ⟨Relays.relay _ _, Relays.relay _ _⟩

theorem empty_merge (p : Patch) : merge {} p = p := by
  simp only [merge, none_mergeCommon, NameMap.merge, NameMap.empty_mergeWith]

theorem merge_empty (p : Patch) : p.merge {} = p := by
  simp only [merge, mergeCommon_none, NameMap.merge, NameMap.mergeWith_empty]

end Patch

instance : Std.IdempotentOp Definition.merge := inferInstanceAs (Std.IdempotentOp (Peered.merge Family.merge))

instance : Relays Definition.merge := inferInstanceAs (Relays (Peered.merge Family.merge))

instance : Std.IdempotentOp Override.merge := inferInstanceAs (Std.IdempotentOp (Peered.merge Patch.merge))

instance : Relays Override.merge := inferInstanceAs (Relays (Peered.merge Patch.merge))

/-! ### Nothing is lost -/

/-- In a merged value `read` finds nothing just where it finds nothing in either layer. -/
def Keeps (merge : α → α → α) (read : α → Option β) : Prop :=
  ∀ a b, read (merge a b) = none ↔ read a = none ∧ read b = none

namespace Keeps

variable {merge : α → α → α} {read : α → Option β}

theorem of_readsTop (h : ReadsTop merge read) : Keeps merge read := by
  intro a b
  rw [h a b, Option.or_eq_none_iff, and_comm]

/-- It is enough to know where `read` finds something. -/
theorem of_map (h : ReadsTop merge fun a => (read a).map fun _ => ()) : Keeps merge read := by
  intro a b
  have hmap := of_readsTop h a b
  simpa only [Option.map_eq_none_iff] using hmap

theorem bind_merge (h : Keeps merge read) (a b : Option α) :
    (Option.merge merge a b).bind read = none ↔ a.bind read = none ∧ b.bind read = none := by
  cases a with
  | none => simp
  | some x =>
    cases b with
    | none => simp
    | some y => exact h x y

theorem get? (h : Keeps merge read) (name : String) :
    Keeps (NameMap.mergeWith merge) fun m => (m.get? name).bind read := by
  intro a b
  show ((NameMap.mergeWith merge a b).get? name).bind read = none ↔ _
  rw [NameMap.get?_mergeWith]
  exact h.bind_merge _ _

theorem at? {combine : α → α → α} {read : Peered α → Option β} (h : Keeps (Peered.merge combine) read)
    (path : List String) : Keeps (Peered.merge combine) fun p => (p.at? path).bind read := by
  intro a b
  show ((Peered.merge combine a b).at? path).bind read = none ↔ _
  rw [Peered.at?_merge]
  exact h.bind_merge _ _

theorem peer {combine : α → α → α} (path : List String) : Keeps (Peered.merge combine) fun p => p.at? path := by
  have hself : Keeps (Peered.merge combine) some := fun _ _ => by simp
  have hat := hself.at? path
  simpa only [Option.bind_fun_some] using hat

theorem component {read : Override → Option β} (h : Keeps Override.merge read) (id : String) :
    Keeps GlobalOverrides.merge fun o => (o.components.get? id).bind read :=
  fun a b => h.get? id a.components b.components

end Keeps

namespace Override

theorem keeps_common : Keeps merge common := .of_map readsTop_hasCommon

theorem keeps_common? (name : String) : Keeps merge (common? name) := .of_readsTop (readsTop_common? name)

theorem keeps_token? (name : String) : Keeps merge (token? name) := .of_readsTop (readsTop_token? name)

theorem isEmpty_iff {o : Override} :
    o.isEmpty = true ↔ o.common = none ∧ (∀ name, o.at? [name] = none) ∧ ∀ name, o.token? name = none := by
  simp [isEmpty, Entries.isEmpty_iff, Peered.at?, token?, and_assoc]

theorem isEmpty_merge (a b : Override) : (a.merge b).isEmpty = true ↔ a.isEmpty = true ∧ b.isEmpty = true := by
  have hpeers : ∀ name, (a.merge b).at? [name] = none ↔ a.at? [name] = none ∧ b.at? [name] = none := fun name =>
    Keeps.peer [name] a b
  have htokens : ∀ name, (a.merge b).token? name = none ↔ a.token? name = none ∧ b.token? name = none := fun name =>
    keeps_token? name a b
  simp only [isEmpty_iff, keeps_common a b, hpeers, htokens, forall_and]
  constructor
  · rintro ⟨⟨ha, hb⟩, ⟨hpa, hpb⟩, hta, htb⟩
    exact ⟨⟨ha, hpa, hta⟩, hb, hpb, htb⟩
  · rintro ⟨⟨ha, hpa, hta⟩, hb, hpb, htb⟩
    exact ⟨⟨ha, hb⟩, ⟨hpa, hpb⟩, hta, htb⟩

end Override

namespace Definition

theorem keeps_common : Keeps merge common := .of_map readsTop_hasCommon

theorem keeps_generator : Keeps merge generator := .of_readsTop readsTop_generator

end Definition

/-! ### The laws -/

/-- How layers of one kind are laid on each other. -/
structure IsLayering (merge : α → α → α) (empty : α) : Prop where
  assoc (a b c : α) : merge (merge a b) c = merge a (merge b c)
  self (a : α) : merge a a = a
  again (a b : α) : merge (merge a b) a = merge b a
  empty_merge (a : α) : merge empty a = a
  merge_empty (a : α) : merge a empty = a

theorem IsLayering.peered {combine : α → α → α} [Std.Associative combine] [Std.IdempotentOp combine] [Relays combine]
    {empty : α} (hleft : ∀ a, combine empty a = a) (hright : ∀ a, combine a empty = a) :
    IsLayering (Peered.merge combine) (.single empty) where
  assoc := Std.Associative.assoc
  self := Std.IdempotentOp.idempotent
  again := Relays.relay
  empty_merge := Peered.single_merge combine hleft
  merge_empty := Peered.merge_single combine hright

theorem GlobalOverrides.isLayering : IsLayering merge {} where
  assoc := merge_assoc
  self a := by
    simp only [merge, Std.IdempotentOp.idempotent, NameMap.mergeWith_self]
  again a b := by
    simp only [merge, Relays.relay, NameMap.mergeWith_relay]
  empty_merge := empty_merge
  merge_empty := merge_empty

/-- Overrides, the overrides of an application and definitions may be put together in any grouping, a layer that is laid
again counts only where it lies highest, and what says nothing changes nothing.  An override made of two is empty just
if both are.  Peers to any depth, sections, tokens, generators and names are in a merged layer just if they are in one
of the two. -/
theorem merge_laws :
    IsLayering Override.merge Override.empty ∧ IsLayering GlobalOverrides.merge {} ∧
    IsLayering Definition.merge (Definition.new "") ∧
    (∀ a b : Override, (a.merge b).isEmpty = true ↔ a.isEmpty = true ∧ b.isEmpty = true) ∧
    (∀ (path : List String) (name : String),
      Keeps Override.merge (fun o => o.at? path) ∧
      Keeps Override.merge (fun o => (o.at? path).bind Override.common) ∧
      Keeps Override.merge (fun o => (o.at? path).bind (Override.common? name)) ∧
      Keeps Override.merge (fun o => (o.at? path).bind (Override.token? name))) ∧
    (∀ (id : String) (path : List String) (name : String),
      Keeps GlobalOverrides.merge (fun o => o.common) ∧
      Keeps GlobalOverrides.merge (fun o => o.common.bind (Entries.get? name)) ∧
      Keeps GlobalOverrides.merge (fun o => (o.components.get? id).bind fun c => c.at? path) ∧
      Keeps GlobalOverrides.merge (fun o => (o.components.get? id).bind fun c => (c.at? path).bind Override.common) ∧
      Keeps GlobalOverrides.merge (fun o =>
        (o.components.get? id).bind fun c => (c.at? path).bind (Override.common? name)) ∧
      Keeps GlobalOverrides.merge (fun o =>
        (o.components.get? id).bind fun c => (c.at? path).bind (Override.token? name))) ∧
    ∀ (path : List String) (name : String),
      Keeps Definition.merge (fun d => d.at? path) ∧
      Keeps Definition.merge (fun d => (d.at? path).bind Definition.common) ∧
      Keeps Definition.merge (fun d => ((d.at? path).bind Definition.common).bind (Entries.get? name)) ∧
      Keeps Definition.merge (fun d => (d.at? path).bind Definition.generator) ∧
      Keeps Definition.merge (fun d => (d.at? path).bind Definition.name?) := by
  refine ⟨.peered Patch.empty_merge Patch.merge_empty, GlobalOverrides.isLayering,
    .peered Family.empty_merge Family.merge_empty, Override.isEmpty_merge, fun path name => ?_,
    fun id path name => ?_, fun path name => ?_⟩
  · exact ⟨.peer path, Override.keeps_common.at? path, (Override.keeps_common? name).at? path,
      (Override.keeps_token? name).at? path⟩
  · have hcommon : ReadsTop GlobalOverrides.merge fun o => o.common.map fun _ => () := fun base top =>
      present_mergeCommon base.common top.common
    have hkey : ReadsTop GlobalOverrides.merge fun o => o.common.bind (Entries.get? name) := fun base top =>
      (readsTop_get? name).bind_merge base.common top.common
    exact ⟨.of_map hcommon, .of_readsTop hkey, Keeps.component (.peer path) id,
      (Override.keeps_common.at? path).component id, ((Override.keeps_common? name).at? path).component id,
      ((Override.keeps_token? name).at? path).component id⟩
  · have hkey : Keeps Definition.merge fun d => d.common.bind (Entries.get? name) :=
      .of_readsTop (Definition.readsTop_common name)
    refine ⟨.peer path, Definition.keeps_common.at? path, ?_, Definition.keeps_generator.at? path,
      Keeps.at? (.of_readsTop Definition.readsTop_name?) path⟩
    simp only [Option.bind_assoc]
    exact hkey.at? path

end Theming
