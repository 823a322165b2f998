import Theming.Proofs.Registry.Calls
import Theming.Template.Expand

/-!
# Every id is mounted once

A run is any list of calls.  Until the next teardown the sheets of a registry only become more, an id has the sheet
that the first call for it asks for, and later calls for it change nothing (`run_mounts_once`).
-/

namespace Theming

open Template (partialEngine)

variable {ε : Type} {engine : Template.Engine ε}

/-- The call asks for a sheet under the id. -/
def Call.AsksFor (engine : Template.Engine ε) (c : Call) (id : String) : Prop :=
  ∃ s, c.sheet? engine = some s ∧ s.id = id

theorem Call.not_asksFor_iff {c : Call} {id : String} :
    ¬ c.AsksFor engine id ↔ (c.sheet? engine).filter (·.id == id) = none := by
  simp [AsksFor]

namespace Registry

/-! ### Runs -/

def run (engine : Template.Engine ε) (r : Registry) (calls : List Call) : Registry := calls.foldl (after engine) r

section Run

variable {r : Registry}

theorem run_cons (c : Call) (calls : List Call) : run engine r (c :: calls) = run engine (r.after engine c) calls := rfl

theorem run_append (calls later : List Call) : run engine r (calls ++ later) = run engine (run engine r calls) later :=
  List.foldl_append

theorem run_teardown (calls : List Call) : run engine r (calls ++ [.teardown]) = {} := by
  rw [run_append]
  rfl

theorem Consistent.run (hr : r.Consistent) (engine : Template.Engine ε) (calls : List Call) :
    (run engine r calls).Consistent := by
  induction calls generalizing r with
  | nil => exact hr
  | cons c calls ih => exact ih (hr.after engine c)

/-- Without a teardown, what is under an id is the sheet that was there, or else the first one asked for. -/
theorem Consistent.sheet?_run (hr : r.Consistent) {calls : List Call} (h : .teardown ∉ calls) (id : String) :
    (Registry.run engine r calls).sheet? id =
      (r.sheet? id).or (calls.findSome? fun c => (c.sheet? engine).filter (·.id == id)) := by
  -- for all registries at once, since the rest of the run starts from what the first call leaves
  induction calls generalizing r with
  | nil => simp [Registry.run]
  | cons c calls ih =>
    rw [List.mem_cons, not_or] at h
    rw [run_cons, ih (hr.after engine c) h.2, hr.sheet?_after (Ne.symm h.1), Option.or_assoc, List.findSome?_cons]
    cases (c.sheet? engine).filter (·.id == id) with
    | none => simp
    | some s => simp

theorem Consistent.sheet?_run_of_some (hr : r.Consistent) {calls : List Call} (h : .teardown ∉ calls) {id : String}
    {s : Sheet} (hs : r.sheet? id = some s) : (Registry.run engine r calls).sheet? id = some s := by
  rw [hr.sheet?_run h, hs]
  rfl

/-! ### Insertions -/

/-- The id of a call that is answered with an insertion. -/
def insertedId? (engine : Template.Engine ε) (r : Registry) (c : Call) : Option String :=
  match c.request?, r.answer engine c with
  | some (_, m), some (.ok .inserted) => some m.id
  | _, _ => none

/-- The ids of the insertions in a run, in order. -/
def insertions (engine : Template.Engine ε) (r : Registry) : List Call → List String
  | [] => []
  | c :: calls => (r.insertedId? engine c).toList ++ insertions engine (r.after engine c) calls

theorem insertedId?_eq (c : Call) : r.insertedId? engine c = (r.added? engine c).map Sheet.id := by
  unfold insertedId?
  by_cases hc : c = .teardown
  · subst hc
    rfl
  · obtain ⟨roots, m, hreq⟩ := Call.exists_request hc
    rcases call_cases (r := r) engine hc with ⟨s, hs, ha, -⟩ | ⟨hs, ha, -⟩
    · obtain ⟨css, -, -, rfl⟩ := (Call.sheet?_eq_some_iff hreq).1 (added?_eq_some_iff.1 hs).1
      rw [hreq, ha, hs]
      rfl
    · rw [hs]
      split
      · rename_i h
        exact absurd h ha
      · rfl

theorem ids_run {calls : List Call} (h : .teardown ∉ calls) :
    (run engine r calls).sheets.map Sheet.id = r.sheets.map Sheet.id ++ insertions engine r calls := by
  induction calls generalizing r with
  | nil => simp [run, insertions]
  | cons c calls ih =>
    rw [List.mem_cons, not_or] at h
    rw [run_cons, ih h.2, sheets_after (Ne.symm h.1), insertions, insertedId?_eq]
    cases r.added? engine c <;> simp

theorem Consistent.insertions_nodup (hr : r.Consistent) {calls : List Call} (h : .teardown ∉ calls) :
    (insertions engine r calls).Nodup := by
  have hnodup := (hr.run engine calls).nodup
  rw [ids_run h] at hnodup
  exact hnodup.of_append_right

/-- After an insertion and without a teardown, the sheet stays, and mounting under its id does nothing. -/
theorem Consistent.run_inserted (hr : r.Consistent) {c : Call} {later : List Call}
    (hc : r.answer engine c = some (.ok .inserted)) (h : .teardown ∉ later) :
    ∃ s, c.sheet? engine = some s ∧ (Registry.run engine r (c :: later)).sheet? s.id = some s ∧
      ∀ roots m, roots ≠ [] → m.id = s.id →
        (Registry.run engine r (c :: later)).mount engine roots m =
          (.ok .alreadyMounted, Registry.run engine r (c :: later)) := by
  obtain ⟨s, hs⟩ := answer_eq_inserted_iff.1 hc
  obtain ⟨hask, hnew⟩ := added?_eq_some_iff.1 hs
  have hne : c ≠ .teardown := by
    rintro rfl
    cases hask
  have hnone : r.sheet? s.id = none := by
    rw [hr.isMounted_eq] at hnew
    simpa using hnew
  have hafter : (r.after engine c).sheet? s.id = some s := by
    rw [hr.sheet?_after hne, hnone, hask]
    simp [Option.filter]
  have hstays : (Registry.run engine (r.after engine c) later).sheet? s.id = some s :=
    (hr.after engine c).sheet?_run_of_some h hafter
  refine ⟨s, hask, hstays, fun roots m hroots hm => ?_⟩
  have hmounted : (Registry.run engine r (c :: later)).isMounted m.id = true := by
    rw [(hr.run engine _).isMounted_eq, hm, run_cons, hstays]
    rfl
  exact mount_of_isMounted hroots hmounted

/-- In a run from the empty registry, the calls that are answered with an insertion are those that ask for a sheet
before any other does under its id. -/
theorem answer_run_eq_inserted_iff {epoch : List Call} (h : .teardown ∉ epoch) {c : Call} {s : Sheet}
    (hs : c.sheet? engine = some s) :
    (run engine {} epoch).answer engine c = some (.ok .inserted) ↔ ∀ d ∈ epoch, ¬ d.AsksFor engine s.id := by
  have hmounted := (consistent_empty.run engine epoch).isMounted_eq s.id
  rw [consistent_empty.sheet?_run h] at hmounted
  have hiff :
      (run engine {} epoch).answer engine c = some (.ok .inserted) ↔ (run engine {} epoch).isMounted s.id = false := by
    rw [answer_eq_inserted_iff]
    constructor
    · rintro ⟨t, ht⟩
      obtain ⟨hask, hnew⟩ := added?_eq_some_iff.1 ht
      cases hs.symm.trans hask
      exact hnew
    · intro hnew
      exact ⟨s, added?_eq_some_iff.2 ⟨hs, hnew⟩⟩
  rw [hiff, hmounted, Option.isSome_eq_false_iff, Option.isNone_iff_eq_none, Option.or_eq_none_iff,
    List.findSome?_eq_none_iff]
  simp only [Call.not_asksFor_iff]
  exact and_iff_right rfl

end Run

/-- What holds after any run.  Ids and sheets fit each other, and no id is there twice.  A call that is not a teardown
leaves the sheets as they are and adds at most one; one that fails changes nothing.  After an insertion the sheet stays
until a teardown, and to mount anything under its id does nothing.  From one teardown to the next an id is inserted at
most once, by the first call that asks for it. -/
theorem run_mounts_once (engine : Template.Engine ε) (calls : List Call) :
    let r := run engine {} calls
    (∀ id, (id ∈ r.ids ↔ id ∈ r.sheets.map Sheet.id) ∧ r.isMounted id = (r.sheet? id).isSome ∧
      (r.isMounted id = true ↔ ∃ s ∈ r.sheets, s.id = id) ∧
      ∀ s, r.sheet? id = some s ↔ s ∈ r.sheets ∧ s.id = id) ∧
    (r.sheets.map Sheet.id).Nodup ∧ r.ids.Nodup ∧ r.size = r.ids.length ∧
    (∀ c ≠ .teardown, r.sheets <+: (r.after engine c).sheets ∧ (r.after engine c).size ≤ r.size + 1) ∧
    (∀ c roots m, c.request? = some (roots, m) →
      (r.answer engine c = some (.error (.emptyStyle m.id)) ↔ roots = []) ∧
      (∀ e, r.answer engine c = some (.error (.render e)) ↔
        roots ≠ [] ∧ r.isMounted m.id = false ∧ Rule.render engine m.scope roots = .error e) ∧
      ∀ e, r.answer engine c = some (.error e) → r.after engine c = r) ∧
    (∀ earlier c later, calls = earlier ++ c :: later → (run engine {} earlier).answer engine c = some (.ok .inserted) →
      .teardown ∉ later →
      ∃ s, c.sheet? engine = some s ∧ r.sheet? s.id = some s ∧
        ∀ roots m, roots ≠ [] → m.id = s.id → r.mount engine roots m = (.ok .alreadyMounted, r)) ∧
    ∀ before epoch, calls = before ++ epoch → before = [] ∨ (∃ b, before = b ++ [.teardown]) → .teardown ∉ epoch →
      (insertions engine (run engine {} before) epoch).Nodup ∧
      ∀ c s, c.sheet? engine = some s →
        (r.answer engine c = some (.ok .inserted) ↔ ∀ d ∈ epoch, ¬ d.AsksFor engine s.id) := by
  intro r
  have hr : r.Consistent := consistent_empty.run engine calls
  refine ⟨?_, hr.nodup, hr.ids_nodup, hr.size_eq, ?_, ?_, ?_, ?_⟩
  · intro id
    exact ⟨hr.ids_perm.mem_iff, hr.isMounted_eq id, hr.isMounted_iff, fun s => hr.sheet?_eq_some_iff⟩
  · intro c hc
    have hlen : (r.added? engine c).toList.length ≤ 1 := by cases r.added? engine c <;> simp
    constructor
    · rw [sheets_after hc]
      exact List.prefix_append _ _
    · unfold size
      rw [sheets_after hc, List.length_append]
      omega
  · intro c roots m hreq
    rw [answer_of_request hreq, after_of_request hreq]
    simp only [Option.some_inj]
    exact ⟨mount_eq_emptyStyle_iff, fun _ => mount_eq_render_iff, fun _ => mount_of_error⟩
  · rintro earlier c later rfl hc hlater
    have h := (consistent_empty.run engine earlier).run_inserted hc hlater
    rw [← run_append] at h
    exact h
  · rintro before epoch rfl hbefore hepoch
    -- the epoch starts from an empty registry, as if there had been nothing before
    have hempty : run engine {} before = {} := by
      rcases hbefore with rfl | ⟨b, rfl⟩
      · rfl
      · exact run_teardown b
    have hrun : r = run engine {} epoch := by
      show run engine {} (before ++ epoch) = _
      rw [run_append, hempty]
    refine ⟨(consistent_empty.run engine before).insertions_nodup hepoch, ?_⟩
    intro c s hs
    rw [hrun]
    exact answer_run_eq_inserted_iff hepoch hs

example :
    let call := Call.mountRule (.mk ["a"] (.raw "b: c;") []) { id := "a" }
    insertions partialEngine {} [.mount [] { id := "a" }, call, call, .teardown, call] = ["a", "a"] := by
  rfl

end Registry

end Theming
