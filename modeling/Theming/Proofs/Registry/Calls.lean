import Mathlib.Data.List.Induction
import Mathlib.Data.List.Nodup
import Theming.Session

/-!
# Calls on the registry

Clients share one registry, and each call has it for itself until it is answered.  Whatever the number of clients, and
in whatever order their calls interleave, the calls come one after the other; any list of calls may be a run.  A call
asks for a sheet if it has rules and they compile, and the registry adds the sheet if its id is new to it
(`call_cases`), which is all that a call can do unless it is a teardown.  Nothing is asked of the engine.
-/

namespace Theming

variable {ε : Type} {engine : Template.Engine ε}

/-! ### What calls ask for -/

inductive Call
  | mount (roots : List Rule) (m : Mount)
  | mountRule (rule : Rule) (m : Mount)
  | mountBaseline
  | teardown

namespace Call

def request? : Call → Option (List Rule × Mount)
  | mount roots m => some (roots, m)
  | mountRule rule m => some ([rule], m)
  | mountBaseline => some ([Rule.baseline], { id := Rule.baselineId })
  | teardown => none

/-- The sheet that a call asks for. -/
def sheet? (engine : Template.Engine ε) (c : Call) : Option Sheet :=
  c.request?.bind fun (roots, m) =>
    if roots.isEmpty then none else (Rule.render engine m.scope roots).toOption.map fun css => ⟨m.id, m.head, css⟩

theorem exists_request {c : Call} (hc : c ≠ teardown) : ∃ roots m, c.request? = some (roots, m) := by
  cases c with
  | mount roots m => exact ⟨roots, m, rfl⟩
  | mountRule rule m => exact ⟨[rule], m, rfl⟩
  | mountBaseline => exact ⟨_, _, rfl⟩
  | teardown => exact absurd rfl hc

theorem sheet?_eq_some_iff {c : Call} {roots : List Rule} {m : Mount} (hreq : c.request? = some (roots, m))
    {s : Sheet} :
    c.sheet? engine = some s ↔
      ∃ css, roots ≠ [] ∧ Rule.render engine m.scope roots = .ok css ∧ s = ⟨m.id, m.head, css⟩ := by
  rw [sheet?, hreq, Option.bind_some]
  constructor
  · intro h
    by_cases hroots : roots = []
    · simp [hroots] at h
    · cases hr : Rule.render engine m.scope roots with
      | error e => simp [hroots, hr, Except.toOption] at h
      | ok css =>
        simp only [hr, List.isEmpty_eq_false_iff.2 hroots] at h
        exact ⟨css, hroots, rfl, (Option.some.inj h).symm⟩
  · rintro ⟨css, hroots, hr, rfl⟩
    simp [hroots, hr, Except.toOption]

/-- The command of a session that makes a call. -/
def command : Call → Command ε
  | mount roots m => .mount roots m
  | mountRule rule m => .mount [rule] m
  | mountBaseline => .mountBaseline
  | teardown => .teardown

end Call

namespace Registry

/-! ### Consistent registries -/

/-- The ids are those of the sheets, and no two sheets have the same one. -/
structure Consistent (r : Registry) : Prop where
  ids_perm : r.ids.Perm (r.sheets.map Sheet.id)
  nodup : (r.sheets.map Sheet.id).Nodup

theorem consistent_empty : Consistent {} := ⟨.nil, .nil⟩

section Consistent

variable {r : Registry}

theorem isMounted_iff {id : String} : r.isMounted id = true ↔ id ∈ r.ids := List.contains_iff_mem

theorem Consistent.isMounted_iff (hr : r.Consistent) {id : String} :
    r.isMounted id = true ↔ ∃ s ∈ r.sheets, s.id = id := by
  rw [Registry.isMounted_iff, hr.ids_perm.mem_iff, List.mem_map]

theorem Consistent.isMounted_eq (hr : r.Consistent) (id : String) : r.isMounted id = (r.sheet? id).isSome := by
  rw [Bool.eq_iff_iff, hr.isMounted_iff]
  unfold sheet?
  rw [List.find?_isSome]
  simp

theorem Consistent.exists_sheet? (hr : r.Consistent) {id : String} (h : r.isMounted id = true) :
    ∃ s, r.sheet? id = some s := by
  rw [hr.isMounted_eq] at h
  exact Option.isSome_iff_exists.1 h

theorem Consistent.ids_nodup (hr : r.Consistent) : r.ids.Nodup := hr.ids_perm.nodup_iff.2 hr.nodup

theorem Consistent.size_eq (hr : r.Consistent) : r.size = r.ids.length := by
  rw [hr.ids_perm.length_eq, List.length_map]
  rfl

theorem Consistent.sheet?_eq_some_iff (hr : r.Consistent) {id : String} {s : Sheet} :
    r.sheet? id = some s ↔ s ∈ r.sheets ∧ s.id = id := by
  constructor
  · intro h
    exact ⟨List.mem_of_find?_eq_some h, by simpa using List.find?_some h⟩
  · rintro ⟨hs, rfl⟩
    obtain ⟨t, ht⟩ := hr.exists_sheet? (hr.isMounted_iff.2 ⟨s, hs, rfl⟩)
    have htid : t.id = s.id := by simpa using List.find?_some ht
    rw [ht, List.inj_on_of_nodup_map hr.nodup (List.mem_of_find?_eq_some ht) hs htid]

end Consistent

/-! ### One call -/

/-- Adds a sheet after the others. -/
def push (r : Registry) (s : Sheet) : Registry := { ids := s.id :: r.ids, sheets := r.sheets ++ [s] }

theorem sheet?_push (r : Registry) (s : Sheet) (id : String) :
    (r.push s).sheet? id = (r.sheet? id).or ((some s).filter (·.id == id)) := by
  unfold sheet? push
  rw [List.find?_append]
  cases h : s.id == id <;> simp [h, Option.filter]

theorem Consistent.push {r : Registry} (hr : r.Consistent) {s : Sheet} (hs : r.isMounted s.id = false) :
    (r.push s).Consistent := by
  have hnew : s.id ∉ r.sheets.map Sheet.id := by
    rw [← hr.ids_perm.mem_iff, ← Registry.isMounted_iff, hs]
    simp
  have hids : (r.push s).sheets.map Sheet.id = r.sheets.map Sheet.id ++ [s.id] := by simp [Registry.push]
  constructor
  · rw [hids]
    exact (hr.ids_perm.cons s.id).trans (List.perm_append_singleton s.id _).symm
  · rw [hids]
    exact List.nodup_append.2 ⟨hr.nodup, by simp, by simpa using hnew⟩

/-- All that mounting can do. -/
theorem mount_cases (engine : Template.Engine ε) (r : Registry) (roots : List Rule) (m : Mount) :
    (roots = [] ∧ r.mount engine roots m = (.error (.emptyStyle m.id), r)) ∨
    (roots ≠ [] ∧ r.isMounted m.id = true ∧ r.mount engine roots m = (.ok .alreadyMounted, r)) ∨
    (∃ e, roots ≠ [] ∧ r.isMounted m.id = false ∧ Rule.render engine m.scope roots = .error e ∧
      r.mount engine roots m = (.error (.render e), r)) ∨
    ∃ css, roots ≠ [] ∧ r.isMounted m.id = false ∧ Rule.render engine m.scope roots = .ok css ∧
      r.mount engine roots m = (.ok .inserted, r.push ⟨m.id, m.head, css⟩) := by
  by_cases hroots : roots = []
  · left
    subst hroots
    exact ⟨rfl, rfl⟩
  · right
    by_cases hid : r.isMounted m.id = true
    · left
      simp [mount, hroots, hid]
    · right
      rw [Bool.not_eq_true] at hid
      cases hr : Rule.render engine m.scope roots with
      | error e =>
        left
        simp [mount, hroots, hid, hr]
      | ok css =>
        right
        simp [mount, push, hroots, hid, hr]

theorem mount_eq_emptyStyle_iff {r : Registry} {roots : List Rule} {m : Mount} :
    (r.mount engine roots m).1 = .error (.emptyStyle m.id) ↔ roots = [] := by
  rcases r.mount_cases engine roots m with ⟨hroots, h⟩ | ⟨hroots, -, h⟩ | ⟨_, hroots, -, -, h⟩ | ⟨_, hroots, -, -, h⟩
  all_goals
    rw [h]
    simp [hroots]

theorem mount_eq_render_iff {r : Registry} {roots : List Rule} {m : Mount} {e : ε} :
    (r.mount engine roots m).1 = .error (.render e) ↔
      roots ≠ [] ∧ r.isMounted m.id = false ∧ Rule.render engine m.scope roots = .error e := by
  rcases r.mount_cases engine roots m with ⟨hroots, h⟩ | ⟨hroots, hid, h⟩ | ⟨_, hroots, hid, hr, h⟩ |
    ⟨_, hroots, hid, hr, h⟩
  · rw [h]
    simp [hroots]
  · rw [h]
    simp [hid]
  · rw [h]
    simp [hroots, hid, hr]
  · rw [h]
    simp [hr]

theorem mount_of_error {r : Registry} {roots : List Rule} {m : Mount} {e : StyleError ε}
    (he : (r.mount engine roots m).1 = .error e) : (r.mount engine roots m).2 = r := by
  rcases r.mount_cases engine roots m with ⟨-, h⟩ | ⟨-, -, h⟩ | ⟨_, -, -, -, h⟩ | ⟨_, -, -, -, h⟩
  · rw [h]
  · rw [h]
  · rw [h]
  · rw [h] at he
    cases he

theorem mount_of_isMounted {r : Registry} {roots : List Rule} {m : Mount} (hroots : roots ≠ [])
    (hm : r.isMounted m.id = true) : r.mount engine roots m = (.ok .alreadyMounted, r) := by
  rcases r.mount_cases engine roots m with ⟨h, -⟩ | ⟨-, -, h⟩ | ⟨_, -, h, -⟩ | ⟨_, -, h, -⟩
  · exact absurd h hroots
  · exact h
  · rw [hm] at h
    cases h
  · rw [hm] at h
    cases h

theorem isMounted_of_mount {r : Registry} {roots : List Rule} {m : Mount} {o : Outcome}
    (h : (r.mount engine roots m).1 = .ok o) : (r.mount engine roots m).2.isMounted m.id = true := by
  rcases r.mount_cases engine roots m with ⟨-, hm⟩ | ⟨-, hid, hm⟩ | ⟨_, -, -, -, hm⟩ | ⟨_, -, -, -, hm⟩
  · rw [hm] at h
    cases h
  · rw [hm]
    exact hid
  · rw [hm] at h
    cases h
  · rw [hm]
    simp [push, isMounted]

/-- The answer to a call; a teardown has none. -/
def answer (engine : Template.Engine ε) (r : Registry) (c : Call) : Option (Except (StyleError ε) Outcome) :=
  c.request?.map fun (roots, m) => (r.mount engine roots m).1

/-- The registry after a call. -/
def after (engine : Template.Engine ε) (r : Registry) (c : Call) : Registry :=
  c.request?.elim {} fun (roots, m) => (r.mount engine roots m).2

/-- The sheet that a call adds. -/
def added? (engine : Template.Engine ε) (r : Registry) (c : Call) : Option Sheet :=
  (c.sheet? engine).filter fun s => !r.isMounted s.id

section Call

variable {r : Registry} {c : Call}

theorem answer_of_request {roots : List Rule} {m : Mount} (hreq : c.request? = some (roots, m)) :
    r.answer engine c = some (r.mount engine roots m).1 := by
  rw [answer, hreq]
  rfl

theorem after_of_request {roots : List Rule} {m : Mount} (hreq : c.request? = some (roots, m)) :
    r.after engine c = (r.mount engine roots m).2 := by
  rw [after, hreq]
  rfl

theorem added?_eq_some_iff {s : Sheet} :
    r.added? engine c = some s ↔ c.sheet? engine = some s ∧ r.isMounted s.id = false := by
  simp [added?]

theorem added?_eq_none_iff : r.added? engine c = none ↔ ∀ s, c.sheet? engine = some s → r.isMounted s.id = true := by
  simp [added?]

/-- A call that is not a teardown either adds the sheet that it asks for, and only then answers so, or changes
nothing. -/
theorem call_cases (engine : Template.Engine ε) (hc : c ≠ .teardown) :
    (∃ s, r.added? engine c = some s ∧ r.answer engine c = some (.ok .inserted) ∧ r.after engine c = r.push s) ∨
    (r.added? engine c = none ∧ r.answer engine c ≠ some (.ok .inserted) ∧ r.after engine c = r) := by
  obtain ⟨roots, m, hreq⟩ := Call.exists_request hc
  have hsheet {s : Sheet} : c.sheet? engine = some s ↔ _ := Call.sheet?_eq_some_iff hreq
  rw [answer_of_request hreq, after_of_request hreq]
  rcases r.mount_cases engine roots m with ⟨hroots, h⟩ | ⟨hroots, hid, h⟩ | ⟨e, hroots, hid, hr, h⟩ |
    ⟨css, hroots, hid, hr, h⟩
  · right
    rw [h]
    refine ⟨added?_eq_none_iff.2 fun s hs => ?_, by simp, rfl⟩
    obtain ⟨_, hne, -⟩ := hsheet.1 hs
    exact absurd hroots hne
  · right
    rw [h]
    refine ⟨added?_eq_none_iff.2 fun s hs => ?_, by simp, rfl⟩
    obtain ⟨_, -, -, rfl⟩ := hsheet.1 hs
    exact hid
  · right
    rw [h]
    refine ⟨added?_eq_none_iff.2 fun s hs => ?_, by simp, rfl⟩
    obtain ⟨_, -, hr', -⟩ := hsheet.1 hs
    cases hr.symm.trans hr'
  · left
    rw [h]
    exact ⟨_, added?_eq_some_iff.2 ⟨hsheet.2 ⟨css, hroots, hr, rfl⟩, hid⟩, rfl, rfl⟩

theorem answer_eq_inserted_iff : r.answer engine c = some (.ok .inserted) ↔ ∃ s, r.added? engine c = some s := by
  by_cases hc : c = .teardown
  · subst hc
    simp [answer, added?, Call.sheet?, Call.request?]
  · rcases call_cases (r := r) engine hc with ⟨s, hs, ha, -⟩ | ⟨hs, ha, -⟩
    · simp [hs, ha]
    · simp [hs, ha]

/-- A session makes calls on its registry, and the rest of it stays as it is. -/
theorem step_command (s : Session ε) (c : Call) :
    (s.step engine c.command).2 = { s with registry := s.registry.after engine c } ∧
      (s.step engine c.command).1 = (s.registry.answer engine c).elim .done fun
        | .ok outcome => .outcome outcome
        | .error e => .styleError e := by
  constructor
  · cases c <;> rfl
  · cases c <;> rfl

/-! ### Invariants of a call -/

theorem Consistent.after (hr : r.Consistent) (engine : Template.Engine ε) (c : Call) :
    (r.after engine c).Consistent := by
  by_cases hc : c = .teardown
  · subst hc
    exact consistent_empty
  · rcases call_cases (r := r) engine hc with ⟨s, hs, -, h⟩ | ⟨-, -, h⟩
    · rw [h]
      exact hr.push (added?_eq_some_iff.1 hs).2
    · rw [h]
      exact hr

/-- Sheets stay as and where they are, and there comes at most one. -/
theorem sheets_after (hc : c ≠ .teardown) : (r.after engine c).sheets = r.sheets ++ (r.added? engine c).toList := by
  rcases call_cases (r := r) engine hc with ⟨s, hs, -, h⟩ | ⟨hs, -, h⟩
  · rw [h, hs]
    rfl
  · rw [h, hs]
    simp

/-- Under any id a sheet stays, and else a call puts there the sheet that it asks for. -/
theorem Consistent.sheet?_after (hr : r.Consistent) (hc : c ≠ .teardown) (id : String) :
    (r.after engine c).sheet? id = (r.sheet? id).or ((c.sheet? engine).filter (·.id == id)) := by
  rcases call_cases (r := r) engine hc with ⟨s, hs, -, h⟩ | ⟨hs, -, h⟩
  · rw [h, sheet?_push, (added?_eq_some_iff.1 hs).1]
  · rw [h]
    cases hsheet : c.sheet? engine with
    | none => simp
    | some s =>
      -- the call adds nothing, so there is a sheet under the id that it asks for
      obtain ⟨t, ht⟩ := hr.exists_sheet? (added?_eq_none_iff.1 hs s hsheet)
      by_cases he : s.id = id
      · subst he
        simp [ht]
      · simp [Option.filter, he]

end Call

end Registry

end Theming
