import Theming.Proofs.Registry.MountOnce

/-!
# Calls in any order

Clients that share a registry are served in an order that nobody chooses.  Where requests under one id are the same
request, the order decides no more than where the new sheets stand: a run leaves the sheets that were there and one for
every new id whose rules compile (`mem_sheets_run_iff`), and these do not depend on which call comes first
(`run_reordered`).  That a request compiles or not is up to the engine, but it is the same each time.
-/

namespace Theming

open Template (partialEngine)

variable {ε : Type} {engine : Template.Engine ε}

namespace Call

/-- Requests under one id are the same: the same rules, in the same place and scope. -/
def AreCoherent (calls : List Call) : Prop :=
  ∀ c ∈ calls, ∀ d ∈ calls, ∀ p q, c.request? = some p → d.request? = some q → p.2.id = q.2.id → p = q

theorem exists_request_of_sheet? {c : Call} {s : Sheet} (h : c.sheet? engine = some s) :
    ∃ p, c.request? = some p ∧ p.2.id = s.id := by
  have hc : c ≠ teardown := by
    rintro rfl
    cases h
  obtain ⟨roots, m, hreq⟩ := exists_request hc
  obtain ⟨css, -, -, rfl⟩ := (sheet?_eq_some_iff hreq).1 h
  exact ⟨(roots, m), hreq, rfl⟩

namespace AreCoherent

variable {calls calls' : List Call}

theorem perm (h : AreCoherent calls) (hperm : calls.Perm calls') : AreCoherent calls' :=
  fun c hc d hd => h c (hperm.mem_iff.2 hc) d (hperm.mem_iff.2 hd)

/-- Calls that ask for a sheet under the same id ask for the same sheet. -/
theorem sheet_unique (h : AreCoherent calls) {c d : Call} (hc : c ∈ calls) (hd : d ∈ calls) {s t : Sheet}
    (hs : c.sheet? engine = some s) (ht : d.sheet? engine = some t) (hid : s.id = t.id) : s = t := by
  obtain ⟨p, hp, hps⟩ := exists_request_of_sheet? hs
  obtain ⟨q, hq, hqt⟩ := exists_request_of_sheet? ht
  have hpq : p = q := h c hc d hd p q hp hq (by rw [hps, hqt, hid])
  have hsame : c.sheet? engine = d.sheet? engine := by rw [sheet?, sheet?, hp, hq, hpq]
  rw [hs, ht] at hsame
  exact Option.some.inj hsame

/-- The first sheet that is asked for under an id is any that is asked for. -/
theorem findSome?_sheet?_eq_some_iff (h : AreCoherent calls) {s : Sheet} :
    (calls.findSome? fun c => (c.sheet? engine).filter (·.id == s.id)) = some s ↔
      ∃ c ∈ calls, c.sheet? engine = some s := by
  constructor
  · intro hfirst
    obtain ⟨c, hc, hs⟩ := List.exists_of_findSome?_eq_some hfirst
    exact ⟨c, hc, (Option.filter_eq_some_iff.1 hs).1⟩
  · rintro ⟨c, hc, hs⟩
    have hsome : (calls.findSome? fun c => (c.sheet? engine).filter (·.id == s.id)).isSome = true := by
      rw [List.findSome?_isSome_iff]
      exact ⟨c, hc, by simp [hs, Option.filter]⟩
    obtain ⟨t, hfirst⟩ := Option.isSome_iff_exists.1 hsome
    obtain ⟨d, hd, hfilter⟩ := List.exists_of_findSome?_eq_some hfirst
    obtain ⟨ht, hid⟩ := Option.filter_eq_some_iff.1 hfilter
    rw [hfirst, h.sheet_unique hd hc ht hs (beq_iff_eq.1 hid)]

end AreCoherent

end Call

namespace Registry

variable {r : Registry} {calls calls' : List Call}

/-! ### What a run adds -/

/-- A run keeps the sheets that were there and adds others after them, those that are inserted. -/
theorem exists_sheets_run (h : .teardown ∉ calls) :
    ∃ new, (run engine r calls).sheets = r.sheets ++ new ∧ new.map Sheet.id = insertions engine r calls := by
  have hsheets : ∃ new, (run engine r calls).sheets = r.sheets ++ new := by
    induction calls generalizing r with
    | nil => exact ⟨[], (List.append_nil _).symm⟩
    | cons c calls ih =>
      rw [List.mem_cons, not_or] at h
      obtain ⟨new, hnew⟩ := ih (r := r.after engine c) h.2
      refine ⟨(r.added? engine c).toList ++ new, ?_⟩
      rw [run_cons, hnew, sheets_after (Ne.symm h.1), List.append_assoc]
  obtain ⟨new, hnew⟩ := hsheets
  have hids : (run engine r calls).sheets.map Sheet.id = r.sheets.map Sheet.id ++ insertions engine r calls :=
    ids_run h
  rw [hnew, List.map_append] at hids
  exact ⟨new, hnew, List.append_cancel_left hids⟩

theorem Consistent.mem_sheets_iff (hr : r.Consistent) {s : Sheet} : s ∈ r.sheets ↔ r.sheet? s.id = some s := by
  rw [hr.sheet?_eq_some_iff]
  exact (and_iff_left rfl).symm

/-- After a run there are the sheets that were there and one for every new id whose rules compile. -/
theorem Consistent.mem_sheets_run_iff (hr : r.Consistent) (engine : Template.Engine ε) (h : .teardown ∉ calls)
    (hsame : Call.AreCoherent calls) {s : Sheet} :
    s ∈ (Registry.run engine r calls).sheets ↔
      s ∈ r.sheets ∨ r.isMounted s.id = false ∧ ∃ c ∈ calls, c.sheet? engine = some s := by
  rw [(hr.run engine calls).mem_sheets_iff, hr.mem_sheets_iff, hr.sheet?_run h, hr.isMounted_eq,
    ← hsame.findSome?_sheet?_eq_some_iff]
  cases r.sheet? s.id <;> simp

/-- The new sheets of a run, apart from their order: one for every new id whose rules compile, and none twice. -/
theorem Consistent.exists_new (hr : r.Consistent) (engine : Template.Engine ε) (h : .teardown ∉ calls)
    (hsame : Call.AreCoherent calls) :
    ∃ new, (Registry.run engine r calls).sheets = r.sheets ++ new ∧ new.map Sheet.id = insertions engine r calls ∧
      (new.map Sheet.id).Nodup ∧
      ∀ s, s ∈ new ↔ r.isMounted s.id = false ∧ ∃ c ∈ calls, c.sheet? engine = some s := by
  obtain ⟨new, hnew, hids⟩ := exists_sheets_run (r := r) h
  have hnodup := (hr.run engine calls).nodup
  rw [hnew, List.map_append] at hnodup
  refine ⟨new, hnew, hids, hnodup.of_append_right, fun s => ?_⟩
  have hmem := hr.mem_sheets_run_iff engine h hsame (s := s)
  rw [hnew, List.mem_append] at hmem
  constructor
  · intro hs
    rcases hmem.1 (.inr hs) with hold | hadded
    · -- a sheet that was there is not added once more
      exact absurd (List.mem_map_of_mem hs) (List.disjoint_of_nodup_append hnodup (List.mem_map_of_mem hold))
    · exact hadded
  · intro hadded
    rcases hmem.2 (.inr hadded) with hold | hs
    · have hmounted := hr.isMounted_iff.2 ⟨s, hold, rfl⟩
      rw [hadded.1] at hmounted
      cases hmounted
    · exact hs

/-- Sheets that are the same up to their order answer alike. -/
theorem Consistent.sheet?_eq_of_perm {r' : Registry} (hr : r.Consistent) (hr' : r'.Consistent)
    (hperm : r.sheets.Perm r'.sheets) (id : String) : r.sheet? id = r'.sheet? id := by
  refine Option.ext fun s => ?_
  rw [hr.sheet?_eq_some_iff, hr'.sheet?_eq_some_iff, hperm.mem_iff]

/-- Two orders of the same calls, after any history and without a teardown among them.  The sheets that were there stay
as they were; after them each order has the same new sheets, one for every new id whose rules compile, though perhaps in
another order.  So both leave the same sheets, give the same answers under every id, and insert the same ids. -/
theorem run_reordered (engine : Template.Engine ε) (history : List Call) {calls calls' : List Call}
    (hperm : calls.Perm calls') (h : .teardown ∉ calls) (hsame : Call.AreCoherent calls) :
    let r := run engine {} history
    let final := run engine r calls
    let final' := run engine r calls'
    (∃ new new', final.sheets = r.sheets ++ new ∧ final'.sheets = r.sheets ++ new' ∧ new.Perm new' ∧
      (new.map Sheet.id).Nodup ∧
      ∀ s, s ∈ new ↔ r.isMounted s.id = false ∧ ∃ c ∈ calls, c.sheet? engine = some s) ∧
    final.sheets.Perm final'.sheets ∧
    (∀ id, final.isMounted id = final'.isMounted id ∧ final.sheet? id = final'.sheet? id) ∧
    final.size = final'.size ∧
    (insertions engine r calls).Perm (insertions engine r calls') ∧
    (insertions engine r calls).length = (insertions engine r calls').length := by
  intro r final final'
  have hr : r.Consistent := consistent_empty.run engine history
  have h' : .teardown ∉ calls' := fun hmem => h (hperm.mem_iff.2 hmem)
  obtain ⟨new, hnew, hids, hnodup, hmem⟩ := hr.exists_new engine h hsame
  obtain ⟨new', hnew', hids', hnodup', hmem'⟩ := hr.exists_new engine h' (hsame.perm hperm)
  -- neither list has a sheet twice, so it is enough that they have the same ones
  have hnewPerm : new.Perm new' := by
    refine (List.perm_ext_iff_of_nodup hnodup.of_map hnodup'.of_map).2 fun s => ?_
    rw [hmem, hmem']
    simp only [hperm.mem_iff]
  have hsheets : final.sheets.Perm final'.sheets := by
    show (run engine r calls).sheets.Perm (run engine r calls').sheets
    rw [hnew, hnew']
    exact hnewPerm.append_left r.sheets
  have hinsertions : (insertions engine r calls).Perm (insertions engine r calls') := by
    rw [← hids, ← hids']
    exact hnewPerm.map Sheet.id
  have hsheet : ∀ id, final.sheet? id = final'.sheet? id :=
    (hr.run engine calls).sheet?_eq_of_perm (hr.run engine calls') hsheets
  refine ⟨⟨new, new', hnew, hnew', hnewPerm, hnodup, hmem⟩, hsheets, fun id => ⟨?_, hsheet id⟩, hsheets.length_eq,
    hinsertions, hinsertions.length_eq⟩
  rw [(hr.run engine calls).isMounted_eq, (hr.run engine calls').isMounted_eq, hsheet]

/-- Two new sheets are asked for, one of them twice, with a request that does not compile and one for a sheet that is
there: forwards and backwards the same two sheets come after the old one. -/
theorem run_reordered_reverse :
    let style (selector : String) : Rule := .mk [selector] (.raw "color: red;") []
    let request (p : String × String) : Call := .mountRule (style p.2) { id := p.1 }
    let requests := [("a", "a"), ("broken", "\x7b\x7b broken"), ("a", "a"), ("b", "b"), ("old", "p")]
    let calls := requests.map request
    let r := run partialEngine {} [request ("old", "p")]
    (run partialEngine r calls).sheets.map Sheet.id = ["old", "a", "b"] ∧
      (run partialEngine r calls.reverse).sheets.map Sheet.id = ["old", "b", "a"] ∧
      (run partialEngine r calls).sheets.Perm (run partialEngine r calls.reverse).sheets ∧
      (insertions partialEngine r calls).length = (insertions partialEngine r calls.reverse).length := by
  intro style request requests calls r
  have hrequests : ∀ p ∈ requests, ∀ q ∈ requests, p.1 = q.1 → p = q := by decide
  have hsame : Call.AreCoherent calls := by
    intro c hc d hd _ _ hp hq hid
    obtain ⟨p, hmem, rfl⟩ := List.mem_map.1 hc
    obtain ⟨q, hmem', rfl⟩ := List.mem_map.1 hd
    cases hp
    cases hq
    rw [hrequests p hmem q hmem' hid]
  have h : .teardown ∉ calls := by simp [calls, request]
  obtain ⟨-, hsheets, -, -, -, hlength⟩ :=
    run_reordered partialEngine [request ("old", "p")] (List.reverse_perm calls).symm h hsame
  refine ⟨?_, ?_, hsheets, hlength⟩
  · decide +kernel
  · decide +kernel

end Registry

end Theming
