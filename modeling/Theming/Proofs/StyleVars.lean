import Mathlib.Data.List.Induction
import Mathlib.Data.List.Nodup
import Theming.Proofs.NameMap
import Theming.StyleVars

/-!
# Custom properties call by call

Custom properties are the work of a sequence of calls, of which those without a value count for nothing.  What the
sequence amounts to can be read off the calls that do have one: each property stands where it was first given a value,
and has the value that it was last given (`run_calls`).
-/

namespace Theming.StyleVars

/-- A call that is to give a property a value. -/
inductive Call
  | set (name value : String)
  | token (name : String) (t : Option Token)
  | common (theme : MergedTheme) (name key : String)
  | own (theme : MergedTheme) (name key : String)
  | variant (theme : MergedTheme) (name base size : String)

namespace Call

def apply (s : StyleVars) : Call → StyleVars
  | .set name value => s.set name value
  | .token name t => s.setToken name t
  | .common theme name key => s.setCommon theme name key
  | .own theme name key => s.setOwn theme name key
  | .variant theme name base size => s.setVariant theme name base size

/-- The property and the value that a call gives it, if it has a value to give. -/
def setting? : Call → Option (String × String)
  | .set name value => some (name, value)
  | .token name t => t.map fun t => (name, t.css)
  | .common theme name key => (theme.common.get? key).map fun t => (name, t.css)
  | .own theme name key => (theme.tokens.get? key).map fun t => (name, t.css)
  | .variant theme name base size => (theme.tokens.get? (variantKey base size)).map fun t => (name, t.css)

/-- A call without a value does nothing. -/
theorem apply_eq (s : StyleVars) (c : Call) : c.apply s = c.setting?.elim s fun p => s.set p.1 p.2 := by
  have htoken : ∀ name (token : Option Token),
      s.setToken name token = (token.map fun t => (name, t.css)).elim s fun p => s.set p.1 p.2 := by
    intro name token
    cases token <;> rfl
  cases c with
  | set name value => rfl
  | token name t => exact htoken name t
  | common theme name key => exact htoken name (theme.common.get? key)
  | own theme name key => exact htoken name (theme.tokens.get? key)
  | variant theme name base size => exact htoken name (theme.tokens.get? (variantKey base size))

end Call

/-- What the calls amount to, the first one first. -/
def run (calls : List Call) : StyleVars := calls.foldl Call.apply {}

/-- The values that are given, in their order. -/
def settings (calls : List Call) : List (String × String) := calls.filterMap Call.setting?

/-- The properties that are given a value, each where it is given the first one. -/
def firstNames (calls : List Call) : List String := ((settings calls).map Prod.fst).eraseDups

/-- The value that a property is given last. -/
def lastValue? (name : String) (calls : List Call) : Option String := (named name (settings calls)).getLast?

/-! ### Values one by one -/

theorem run_eq_foldl (calls : List Call) :
    run calls = (settings calls).foldl (fun s p => s.set p.1 p.2) {} := by
  have hfold : ∀ s : StyleVars, calls.foldl Call.apply s = (settings calls).foldl (fun s p => s.set p.1 p.2) s := by
    induction calls with
    | nil => exact fun s => rfl
    | cons c calls ih =>
      intro s
      rw [List.foldl_cons, ih, c.apply_eq, settings, settings, List.filterMap_cons]
      cases c.setting? <;> rfl
  exact hfold {}

/-! ### What a sequence amounts to -/

theorem nodup_names_set {s : StyleVars} (h : s.names.Nodup) (name value : String) : (s.set name value).names.Nodup := by
  rw [names_set]
  split
  · exact h
  · rename_i hname
    exact List.nodup_append.2 ⟨h, List.nodup_singleton name, by
      rintro n hn _ hlast rfl
      exact hname (List.mem_singleton.1 hlast ▸ hn)⟩

theorem nodup_names_run (calls : List Call) : (run calls).names.Nodup := by
  rw [run_eq_foldl]
  induction settings calls using List.reverseRecOn with
  | nil => exact List.nodup_nil
  | append_singleton ps p ih =>
    rw [List.foldl_append, List.foldl_cons, List.foldl_nil]
    exact nodup_names_set ih p.1 p.2

theorem names_run (calls : List Call) : (run calls).names = firstNames calls := by
  rw [run_eq_foldl, firstNames]
  induction settings calls using List.reverseRecOn with
  | nil => rfl
  | append_singleton ps p ih =>
    rw [List.foldl_append, List.foldl_cons, List.foldl_nil, names_set, ih, List.map_append, List.eraseDups_append]
    by_cases hp : p.1 ∈ ps.map Prod.fst
    · have hnone : [p.1].removeAll (ps.map Prod.fst) = [] := by simpa [List.removeAll] using hp
      rw [if_pos (List.mem_eraseDups.2 hp), List.map_singleton, hnone, List.eraseDups_nil, List.append_nil]
    · have hall : [p.1].removeAll (ps.map Prod.fst) = [p.1] := by simpa [List.removeAll] using hp
      rw [if_neg fun h => hp (List.mem_eraseDups.1 h), List.map_singleton, hall]
      rfl

theorem get?_run (name : String) (calls : List Call) : (run calls).get? name = lastValue? name calls := by
  rw [run_eq_foldl, lastValue?]
  induction settings calls using List.reverseRecOn with
  | nil => rfl
  | append_singleton ps p ih =>
    rw [List.foldl_append, List.foldl_cons, List.foldl_nil, get?_set, ih, named_append, named_cons]
    by_cases hp : p.1 = name
    · rw [if_pos hp.symm, if_pos hp]
      exact List.getLast?_concat.symm
    · rw [if_neg (Ne.symm hp), if_neg hp]
      exact congrArg List.getLast? (List.append_nil _).symm

private theorem eq_filterMap_lookup {vars : List (String × String)} (h : (vars.map Prod.fst).Nodup) :
    vars = (vars.map Prod.fst).filterMap fun name => (vars.lookup name).map fun value => (name, value) := by
  induction vars with
  | nil => rfl
  | cons p rest ih =>
    obtain ⟨n, v⟩ := p
    obtain ⟨hn, hrest⟩ := List.nodup_cons.1 h
    have hfirst : ((n, v) :: rest).lookup n = some v := List.lookup_cons_self
    have hothers : ∀ name ∈ rest.map Prod.fst, ((n, v) :: rest).lookup name = rest.lookup name := by
      intro name hname
      have hne : name ≠ n := fun e => hn (e ▸ hname)
      rw [List.lookup_cons, beq_eq_false_iff_ne.2 hne]
    rw [List.map_cons, List.filterMap_cons, hfirst]
    refine congrArg ((n, v) :: ·) ((ih hrest).trans ?_)
    exact List.filterMap_congr fun name hname => by rw [hothers name hname]

/-- With distinct names, names and values determine the list. -/
theorem vars_eq {s : StyleVars} (h : s.names.Nodup) :
    s.vars = s.names.filterMap fun name => (s.get? name).map fun value => (name, value) :=
  eq_filterMap_lookup h

theorem run_filter {calls : List Call} {keep : Call → Bool}
    (h : ∀ c ∈ calls, keep c = false → c.setting? = none) : run (calls.filter keep) = run calls := by
  have hsettings : settings (calls.filter keep) = settings calls := by
    rw [settings, settings, List.filterMap_filter]
    refine List.filterMap_congr fun c hc => ?_
    cases hkeep : keep c with
    | true => rfl
    | false => exact (h c hc hkeep).symm
  rw [run_eq_foldl, run_eq_foldl, hsettings]

/-- After any calls the properties are distinct.  Each of them has the value that it was given last, and stands where it
was given the first one; a property that no call had a value for is not there.  So the list and its text are known from
the calls that have a value, and calls without one may be left out. -/
theorem run_calls (calls : List Call) :
    (run calls).names.Nodup ∧
    (∀ name, (run calls).get? name = lastValue? name calls) ∧
    (run calls).names = firstNames calls ∧
    (run calls).vars =
      (firstNames calls).filterMap (fun name => (lastValue? name calls).map fun value => (name, value)) ∧
    (run calls).vars.length = (firstNames calls).length ∧
    (run calls).style = " ".intercalate ((firstNames calls).filterMap fun name =>
      (lastValue? name calls).map fun value => name ++ ": " ++ value ++ ";") ∧
    ∀ keep : Call → Bool, (∀ c ∈ calls, keep c = false → c.setting? = none) →
      run (calls.filter keep) = run calls := by
  have hvars : (run calls).vars =
      (firstNames calls).filterMap fun name => (lastValue? name calls).map fun value => (name, value) := by
    rw [vars_eq (nodup_names_run calls), names_run]
    simp only [get?_run]
  refine ⟨nodup_names_run calls, fun name => get?_run name calls, names_run calls, hvars, ?_, ?_,
    fun keep => run_filter⟩
  · rw [← names_run, names, List.length_map]
  · rw [style, hvars, List.map_filterMap]
    simp only [Option.map_map, Function.comp_def]

/-- A property is set again after another one, and then from a token that there is not. -/
theorem run_calls_button :
    let theme : MergedTheme := {
      common := NameMap.insert ∅ "ease" (.text "linear"), tokens := NameMap.insert ∅ "heightLarge" (.text "40px")
      peers := ∅, peerOverrides := ∅ }
    let calls : List Call := [.set "--a" "initial", .variant theme "--height" "height" "large",
      .common theme "--ease" "ease", .own theme "--a" "missing", .set "--a" "none"]
    let keep (c : Call) : Bool := c.setting?.isSome
    (∀ c ∈ calls, keep c = false → c.setting? = none) ∧ run (calls.filter keep) = run calls ∧
      (run calls).names = ["--a", "--height", "--ease"] ∧
      (run calls).style = "--a: none; --height: 40px; --ease: linear;" := by
  intro theme calls keep
  have hkeep : ∀ c ∈ calls, keep c = false → c.setting? = none := by
    intro c _ hc
    simpa [keep] using hc
  obtain ⟨-, -, hnames, -, -, hstyle, hfilter⟩ := run_calls calls
  exact ⟨hkeep, hfilter keep hkeep, hnames.trans (by decide +kernel), hstyle.trans (by decide +kernel)⟩

end Theming.StyleVars
