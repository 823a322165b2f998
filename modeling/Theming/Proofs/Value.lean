import Mathlib.Data.List.Basic
import Theming.Value

/-!
# The parts of a value

A value is made of leaves, which are not lists or objects, and it is nested deeper than each of its parts.
-/

namespace Theming.Value

mutual

/-- What a value is made of, in order. -/
def leaves : Value → List Value
  | .list items => leavesAll items
  | .object members => memberLeaves members
  | v => [v]

def leavesAll : List Value → List Value
  | [] => []
  | v :: vs => v.leaves ++ leavesAll vs

def memberLeaves : List (String × Value) → List Value
  | [] => []
  | (_, v) :: ms => v.leaves ++ memberLeaves ms

end

theorem leavesAll_eq_flatMap (items : List Value) : leavesAll items = items.flatMap leaves := by
  induction items with
  | nil => rfl
  | cons v vs ih => rw [leavesAll, ih, List.flatMap_cons]

theorem memberLeaves_eq_flatMap (members : List (String × Value)) :
    memberLeaves members = members.flatMap fun m => m.2.leaves := by
  induction members with
  | nil => rfl
  | cons m ms ih => rw [memberLeaves, ih, List.flatMap_cons]

theorem mem_leaves_object {l : Value} {members : List (String × Value)} :
    l ∈ (object members).leaves ↔ ∃ name v, (name, v) ∈ members ∧ l ∈ v.leaves := by
  rw [leaves, memberLeaves_eq_flatMap, List.mem_flatMap, Prod.exists]

theorem objectDepth_le_iff {members : List (String × Value)} {d : Nat} :
    objectDepth members ≤ d ↔ ∀ name v, (name, v) ∈ members → v.depth ≤ d := by
  induction members with
  | nil => simp [objectDepth]
  | cons m ms ih =>
    obtain ⟨n, u⟩ := m
    simp only [objectDepth, Nat.max_le, ih, List.mem_cons, Prod.mk.injEq]
    constructor
    · rintro ⟨hu, hms⟩ name v (⟨-, rfl⟩ | hv)
      · exact hu
      · exact hms name v hv
    · exact fun h => ⟨h n u (.inl ⟨rfl, rfl⟩), fun name v hv => h name v (.inr hv)⟩

theorem depth_lt_of_mem {name : String} {v : Value} {members : List (String × Value)} (h : (name, v) ∈ members) :
    v.depth < (object members).depth :=
  Nat.lt_succ_of_le (objectDepth_le_iff.1 (Nat.le_refl _) name v h)

end Theming.Value
