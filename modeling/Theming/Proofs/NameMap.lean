import Mathlib.Data.List.Forall2
import Theming.NameMap

/-!
# The entries of maps

A map is collected from its entries again (`ofList_toList`), and a map that is collected has for each name the last
value that it is collected from (`get?_ofList`).  Two maps are equal, in the sense of their values, if they have the same
names and equal values.
-/

namespace Theming

namespace Entries

variable {β : Type} {bound : Option String}

/-- The values of a map, in the order of their names. -/
def values (m : Entries β bound) : List β := m.toList.map Prod.snd

theorem mem_toList_iff {m : Entries β bound} {name : String} {v : β} :
    (name, v) ∈ m.toList ↔ m.get? name = some v := by
  induction m with
  | nil => simp [toList, get?]
  | @cons bound n u hn rest ih =>
    rw [toList, List.mem_cons, Prod.mk.injEq, ih, get?_cons]
    by_cases hname : name = n
    · have hrest : rest.get? name = none :=
        rest.get?_eq_none fun h : n < name => String.lt_irrefl n (hname ▸ h)
      simp [hname, hname ▸ hrest, eq_comm]
    · simp [hname]

theorem mem_values_iff {m : Entries β bound} {v : β} : v ∈ m.values ↔ ∃ name, (name, v) ∈ m.toList := by
  simp [values]

theorem eq_nil_of_isEmpty {m : Entries β bound} (h : m.isEmpty = true) : m = .nil := by
  cases m with
  | nil => rfl
  | cons name v follows rest => cases h

theorem isEmpty_iff {m : Entries β bound} : m.isEmpty = true ↔ ∀ name, m.get? name = none := by
  cases m with
  | nil => simp [isEmpty, get?_nil]
  | cons name v follows rest =>
    refine ⟨fun h => ?_, fun h => ?_⟩
    · cases h
    · have hfirst := h name
      rw [get?_cons, if_pos rfl] at hfirst
      cases hfirst

theorem beq_iff [BEq β] {m m' : Entries β bound} :
    (m == m') = true ↔ m.keys = m'.keys ∧ List.Forall₂ (fun v w => (v == w) = true) m.values m'.values := by
  have hlist : ∀ ps qs : List (String × β), (ps == qs) = true ↔
      ps.map Prod.fst = qs.map Prod.fst ∧
        List.Forall₂ (fun v w => (v == w) = true) (ps.map Prod.snd) (qs.map Prod.snd) := by
    intro ps qs
    induction ps generalizing qs with
    | nil => cases qs <;> simp
    | cons p ps ih =>
      cases qs with
      | nil => simp
      | cons q qs =>
        have hpair : (p == q) = (p.1 == q.1 && p.2 == q.2) := rfl
        simp only [List.cons_beq_cons, ih, hpair, Bool.and_eq_true, beq_iff_eq, List.map_cons, List.cons.injEq,
          List.forall₂_cons]
        tauto
  exact hlist m.toList m'.toList

end Entries

/-! ### The values of a name -/

section Named

variable {β γ : Type} {name : String}

/-- The values that go with a name, in their order. -/
def named (name : String) (pairs : List (String × β)) : List β :=
  pairs.filterMap fun p => if p.1 = name then some p.2 else none

theorem named_cons (p : String × β) (pairs : List (String × β)) :
    named name (p :: pairs) = if p.1 = name then p.2 :: named name pairs else named name pairs := by
  by_cases h : p.1 = name <;> simp [named, h]

theorem named_append (ps qs : List (String × β)) : named name (ps ++ qs) = named name ps ++ named name qs :=
  List.filterMap_append

theorem mem_named_iff {pairs : List (String × β)} {v : β} : v ∈ named name pairs ↔ (name, v) ∈ pairs := by
  simp [named, and_comm]

theorem named_map (f : β → γ) (pairs : List (String × β)) :
    named name (pairs.map fun p => (p.1, f p.2)) = (named name pairs).map f := by
  induction pairs with
  | nil => rfl
  | cons p pairs ih =>
    rw [List.map_cons, named_cons, named_cons, ih]
    split <;> rfl

end Named

namespace NameMap

variable {β : Type}

/-- To insert what is there changes nothing. -/
theorem insert_of_get? {m : NameMap β} {name : String} {v : β} (h : m.get? name = some v) : m.insert name v = m := by
  refine Entries.ext_get? fun n => ?_
  rw [get?_insert]
  split
  · rename_i hn
    rw [hn, h]
  · rfl

theorem ofList_toList (m : NameMap β) : ofList m.toList = m := by
  have hfold : ∀ {bound : Option String} (es : Entries β bound) (base : NameMap β),
      es.toList.foldl (fun m p => insert m p.1 p.2) base =
        es.foldl (fun m name v => m.alter name (fun old => old.elim v fun _ => v) (.ofNone name)) base := by
    intro bound es
    induction es with
    | nil => exact fun base => rfl
    | cons name v _ rest ih =>
      intro base
      have hv : (fun old : Option β => old.elim v fun _ => v) = fun _ => v := by
        funext old
        cases old <;> rfl
      rw [Entries.toList, List.foldl_cons, ih, Entries.foldl, hv]
      rfl
  have hmerge : ofList m.toList = merge ∅ m := hfold m ∅
  refine Entries.ext_get? fun name => ?_
  rw [hmerge, get?_merge, Entries.get?_empty, Option.or_none]

theorem ofList_append_singleton (pairs : List (String × β)) (name : String) (v : β) :
    ofList (pairs ++ [(name, v)]) = (ofList pairs).insert name v := by
  rw [ofList, List.foldl_append]
  rfl

/-- The last value that goes with a name wins. -/
theorem get?_ofList (pairs : List (String × β)) (name : String) :
    (ofList pairs).get? name = (named name pairs).getLast? := by
  have hfold : ∀ base : NameMap β, (pairs.foldl (fun m p => insert m p.1 p.2) base).get? name =
      (named name pairs).getLast?.or (base.get? name) := by
    induction pairs with
    | nil => exact fun base => rfl
    | cons p pairs ih =>
      intro base
      rw [List.foldl_cons, ih, get?_insert, named_cons]
      by_cases hname : p.1 = name
      · rw [if_pos hname, if_pos hname.symm, List.getLast?_cons]
        cases (named name pairs).getLast? <;> rfl
      · rw [if_neg hname, if_neg (Ne.symm hname)]
  rw [ofList, hfold, Entries.get?_empty, Option.or_none]

theorem mem_of_mem_ofList {pairs : List (String × β)} {name : String} {v : β} (h : (name, v) ∈ (ofList pairs).toList) :
    (name, v) ∈ pairs := by
  rw [Entries.mem_toList_iff, get?_ofList] at h
  exact mem_named_iff.1 (List.mem_of_getLast? h)

end NameMap

end Theming
