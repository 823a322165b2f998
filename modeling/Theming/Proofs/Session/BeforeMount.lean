import Theming.Proofs.Failure
import Theming.Proofs.NameMap
import Theming.Proofs.Registry.MountOnce
import Theming.Proofs.Rules.Verbatim

/-!
# Hooks before the first paint

While a component is set up it asks for styles, and each is a hook in its queue.  When the queue is run, every style is
mounted and the baseline after it, whatever has failed before; the answer is the first failure of a style, since the
baseline always mounts.  The queue is empty then (`runHooks_mounts`).
-/

namespace Theming

open Template (partialEngine)

variable {ε : Type} {engine : Template.Engine ε}

/-! ### Queues of hooks -/

namespace Hook

/-- The results of hooks that run in order, each on the registry that those before it leave. -/
def results (r : Registry) : List (Hook ε) → List (Except (StyleError ε) Unit)
  | [] => []
  | hook :: hooks => (hook r).1 :: results (hook r).2 hooks

/-- What hooks leave of the registry. -/
def runOn (r : Registry) (hooks : List (Hook ε)) : Registry := hooks.foldl (fun r hook => (hook r).2) r

/-- One hook: a failure that was met before stays the first one, and the hook runs in any case. -/
def advance (state : Option (StyleError ε) × Registry) (hook : Hook ε) : Option (StyleError ε) × Registry :=
  (state.1.or (failure? (hook state.2).1), (hook state.2).2)

theorem foldl_advance (hooks : List (Hook ε)) (error : Option (StyleError ε)) (r : Registry) :
    hooks.foldl advance (error, r) = (error.or (firstFailure? (results r hooks)), runOn r hooks) := by
  induction hooks generalizing error r with
  | nil => simp [results, firstFailure?, runOn]
  | cons hook hooks ih =>
    rw [List.foldl_cons, advance, ih, results, firstFailure?_cons, Option.or_assoc]
    rfl

/-- All hooks run, and the answer is the first failure, or else their number. -/
theorem runAll_eq (hooks : List (Hook ε)) (r : Registry) :
    runAll hooks r = ((firstFailure? (results r hooks)).elim (.ok hooks.length) .error, runOn r hooks) := by
  unfold runAll
  rw [List.foldl_ext _ advance, foldl_advance, Option.none_or]
  · cases firstFailure? (results r hooks) <;> rfl
  · rintro ⟨error, r⟩ hook -
    cases h : (hook r).1 <;> simp [advance, failure?, h]

end Hook

/-! ### The baseline -/

namespace Registry

/-- The baseline mounts in any state: it is a rule, and it compiles. -/
theorem exists_mountBaseline (engine : Template.Engine ε) (r : Registry) : ∃ o, (r.mountBaseline engine).1 = .ok o := by
  obtain ⟨css, hcss⟩ := Rule.render_verbatim engine (List.forall_mem_singleton.2 Rule.isVerbatim_baseline)
  rcases r.mount_cases engine [Rule.baseline] { id := Rule.baselineId } with ⟨hroots, -⟩ | ⟨-, -, hm⟩ |
    ⟨e, -, -, he, -⟩ | ⟨_, -, -, -, hm⟩
  · cases hroots
  · exact ⟨_, congrArg Prod.fst hm⟩
  · cases he.symm.trans (hcss _)
  · exact ⟨_, congrArg Prod.fst hm⟩

theorem isMounted_mountBaseline (engine : Template.Engine ε) (r : Registry) :
    (r.mountBaseline engine).2.isMounted Rule.baselineId = true := by
  obtain ⟨o, ho⟩ := r.exists_mountBaseline engine
  exact isMounted_of_mount ho

end Registry

/-! ### Styles that are asked for -/

/-- A style that a component asks for, with the id and the prefix that it is mounted under. -/
structure StyleUse where
  mountId : String
  style : Rule
  clsPrefix : Option String

namespace StyleUse

def mount (u : StyleUse) : Mount := .ofComponent u.mountId u.clsPrefix

def hook (engine : Template.Engine ε) (u : StyleUse) : Hook ε := .ofStyle engine u.mountId u.style u.clsPrefix

/-- The style is mounted, and then the baseline. -/
def calls (u : StyleUse) : List Call := [.mountRule u.style u.mount, .mountBaseline]

/-- The answers to the mounts of the styles, each of which is followed by the baseline. -/
def answers (engine : Template.Engine ε) (r : Registry) : List StyleUse → List (Except (StyleError ε) Outcome)
  | [] => []
  | u :: uses => (r.mount engine [u.style] u.mount).1 :: answers engine (Registry.run engine r u.calls) uses

/-- A hook makes both calls, and fails as the first of them does. -/
theorem hook_eq (u : StyleUse) (r : Registry) :
    u.hook engine r = ((r.mount engine [u.style] u.mount).1.map fun _ => (), Registry.run engine r u.calls) := by
  have hrun : Registry.run engine r u.calls = ((r.mount engine [u.style] u.mount).2.mountBaseline engine).2 := rfl
  obtain ⟨o, ho⟩ := (r.mount engine [u.style] u.mount).2.exists_mountBaseline engine
  rw [mount] at ho hrun
  rw [hrun, mount]
  -- the baseline mounts, so only the style's own mount is left to decide
  simp only [hook, Hook.ofStyle, ho, ok_bind]
  cases (r.mount engine [u.style] (.ofComponent u.mountId u.clsPrefix)).1 <;> rfl

theorem runOn_hooks (uses : List StyleUse) (r : Registry) :
    Hook.runOn r (uses.map (hook engine)) = Registry.run engine r (uses.flatMap calls) := by
  induction uses generalizing r with
  | nil => rfl
  | cons u uses ih =>
    have hstep :
        Hook.runOn r ((u :: uses).map (hook engine)) = Hook.runOn (u.hook engine r).2 (uses.map (hook engine)) := rfl
    rw [hstep, u.hook_eq, ih, List.flatMap_cons, Registry.run_append]

theorem firstFailure_hooks (uses : List StyleUse) (r : Registry) :
    firstFailure? (Hook.results r (uses.map (hook engine))) = firstFailure? (answers engine r uses) := by
  induction uses generalizing r with
  | nil => rfl
  | cons u uses ih =>
    have hsame : failure? ((r.mount engine [u.style] u.mount).1.map fun _ => ()) =
        failure? (r.mount engine [u.style] u.mount).1 := by
      cases (r.mount engine [u.style] u.mount).1 <;> rfl
    rw [List.map_cons, Hook.results, u.hook_eq, answers, firstFailure?_cons, firstFailure?_cons, hsame, ih]

theorem isMounted_run_calls {uses : List StyleUse} (h : uses ≠ []) (r : Registry) :
    (Registry.run engine r (uses.flatMap calls)).isMounted Rule.baselineId = true := by
  obtain ⟨earlier, u, rfl⟩ := List.eq_nil_or_concat' uses |>.resolve_left h
  rw [List.flatMap_append, Registry.run_append, List.flatMap_singleton]
  exact Registry.isMounted_mountBaseline engine _

end StyleUse

/-! ### Commands and the queue -/

namespace Command

/-- The style that a command asks for in a context. -/
def styleUse? (cx : String) : Command ε → Option StyleUse
  | .useTheme name _ _ mountId style _ clsPrefix | .useStyle name mountId style clsPrefix =>
    if name = cx then style.map fun style => { mountId, style, clsPrefix } else none
  | _ => none

/-- The command neither sets up the context anew nor runs its hooks, and the hooks it adds are those of a style. -/
def keepsQueue (cx : String) : Command ε → Bool
  | .newContext name _ | .newContextOn name _ | .addHook name _ | .runHooks name => name != cx
  | _ => true

end Command

namespace Session

variable {s : Session ε} {cx : String} {context : Context ε}

/-- The session after commands. -/
def after (engine : Template.Engine ε) (s : Session ε) (commands : List (Command ε)) : Session ε :=
  commands.foldl (fun s c => (s.step engine c).2) s

theorem run_append (commands later : List (Command ε)) :
    s.run engine (commands ++ later) = s.run engine commands ++ (s.after engine commands).run engine later := by
  induction commands generalizing s with
  | nil => rfl
  | cons c commands ih => exact congrArg _ ih

theorem withNamed_of_get? {α : Type} {objects : NameMap α} {name : String} {f : α → Reply ε × Session ε} {a : α}
    (h : objects.get? name = some a) : s.withNamed objects name f = f a := by
  rw [withNamed, h]
  rfl

/-- What leaves a context as it is may need a named object, which may be missing. -/
theorem context_withNamed {α : Type} {objects : NameMap α} {name : String} {f : α → Reply ε × Session ε}
    (h : ∀ a, (f a).2.contexts.get? cx = s.contexts.get? cx) :
    (s.withNamed objects name f).2.contexts.get? cx = s.contexts.get? cx := by
  unfold withNamed
  cases objects.get? name with
  | none => rfl
  | some a => exact h a

theorem context_setContext_self (s : Session ε) (cx : String) (context : Context ε) :
    (s.setContext cx context).contexts.get? cx = some context :=
  (s.contexts.get?_insert cx cx context).trans (if_pos rfl)

theorem context_setContext_of_ne {name : String} (h : name ≠ cx) (s : Session ε) (context : Context ε) :
    (s.setContext name context).contexts.get? cx = s.contexts.get? cx :=
  (s.contexts.get?_insert cx name context).trans (if_neg h.symm)

/-- One command adds the hook of the style that it asks for, if any. -/
theorem context_step (hcx : s.contexts.get? cx = some context) {c : Command ε} (hkeep : c.keepsQueue cx = true) :
    (s.step engine c).2.contexts.get? cx =
      some { context with hooks := context.hooks ++ (c.styleUse? cx).toList.map (StyleUse.hook engine) } := by
  -- most commands leave the context alone, since they touch no context or another one
  have hsame (hnone : c.styleUse? cx = none) (hframe : (s.step engine c).2.contexts.get? cx = s.contexts.get? cx) :
      (s.step engine c).2.contexts.get? cx =
        some { context with hooks := context.hooks ++ (c.styleUse? cx).toList.map (StyleUse.hook engine) } := by
    rw [hframe, hcx, hnone, Option.toList_none, List.map_nil, List.append_nil]
  cases c with
  | newContext => exact hsame rfl (context_setContext_of_ne (bne_iff_ne.1 hkeep) _ _)
  | newContextOn | addHook | runHooks =>
    exact hsame rfl (context_withNamed fun _ => context_setContext_of_ne (bne_iff_ne.1 hkeep) _ _)
  | useTheme name ref id mountId style theme clsPrefix =>
    by_cases hname : name = cx
    · subst hname
      rw [step, withNamed_of_get? hcx, Command.styleUse?, if_pos rfl]
      refine (context_setContext_self s name _).trans ?_
      cases style <;> rfl
    · exact hsame (if_neg hname) (context_withNamed fun _ => context_setContext_of_ne hname _ _)
  | useStyle name mountId style clsPrefix =>
    cases style with
    | none => exact hsame (by simp [Command.styleUse?]) (context_withNamed fun _ => rfl)
    | some rule =>
      by_cases hname : name = cx
      · subst hname
        rw [step, withNamed_of_get? hcx, Command.styleUse?, if_pos rfl]
        exact context_setContext_self s name _
      · exact hsame (if_neg hname) (context_withNamed fun _ => context_setContext_of_ne hname _ _)
  | setHandle | getHandle | shareHandle | getProvider | configure | themeValue =>
    exact hsame rfl (context_withNamed fun _ => rfl)
  | newHandle | mount | mountBaseline | isMounted | sheet | sheets | count | headText | teardown | setMode | getMode
  | settle => exact hsame rfl rfl

theorem context_after (engine : Template.Engine ε) (hcx : s.contexts.get? cx = some context)
    {commands : List (Command ε)} (hkeep : ∀ c ∈ commands, c.keepsQueue cx = true) :
    (s.after engine commands).contexts.get? cx = some { context with
      hooks := context.hooks ++ (commands.filterMap (Command.styleUse? cx)).map (StyleUse.hook engine) } := by
  induction commands generalizing s context with
  | nil => simp [after, hcx]
  | cons c commands ih =>
    rw [List.forall_mem_cons] at hkeep
    refine (ih (context_step hcx hkeep.1) hkeep.2).trans ?_
    cases h : c.styleUse? cx <;> simp [h]

theorem setContext_of_get? (hcx : s.contexts.get? cx = some context) : s.setContext cx context = s := by
  rw [setContext, NameMap.insert_of_get? hcx]

/-- To run the queue of a context, whatever hooks are in it. -/
theorem step_runHooks (hcx : s.contexts.get? cx = some context) :
    s.step engine (.runHooks cx) =
      ((firstFailure? (Hook.results s.registry context.hooks)).elim (.count context.hooks.length) .styleError,
        { s with registry := Hook.runOn s.registry context.hooks }.setContext cx { context with hooks := [] }) := by
  rw [step, withNamed_of_get? hcx, Hook.runAll_eq]
  cases firstFailure? (Hook.results s.registry context.hooks) <;> rfl

theorem step_runHooks_of_empty {slot : Nat} (hcx : s.contexts.get? cx = some { slot }) :
    s.step engine (.runHooks cx) = (.count 0, s) := by
  rw [step_runHooks hcx]
  exact congrArg (Prod.mk (Reply.count 0)) (setContext_of_get? hcx)

theorem step_useStyle_none (hcx : s.contexts.get? cx = some context) (mountId : String) (clsPrefix : Option String) :
    s.step engine (.useStyle cx mountId none clsPrefix) = (.styleError (.missingStyle mountId), s) :=
  withNamed_of_get? hcx

theorem step_useTheme_none (hcx : s.contexts.get? cx = some context) (ref id mountId : String) (theme : DefaultTheme)
    (clsPrefix : Option String) :
    s.step engine (.useTheme cx ref id mountId none theme clsPrefix) =
      (.id id, { s with refs := s.refs.insert ref { id, theme := theme.settle s.mode, slot := context.slot } }) := by
  have hsame : s.setContext cx { context with hooks := context.hooks ++ [] } = s := by
    rw [List.append_nil]
    exact setContext_of_get? hcx
  rw [step, withNamed_of_get? hcx]
  simp only [Option.elim_none, hsame]

/-- The queue of a context is empty at first, and after commands that keep it, it is run.  Then each style that was
asked for has been mounted, in order and each followed by the baseline, none passed over because another failed.  The
answer is the number of styles if all of them mounted, and else the failure of the first one that did not, never one of
the baseline, which mounts in any state.  The queue is empty again, so that to run it once more does nothing unless
another style has been asked for.  Without a style nothing is queued. -/
theorem runHooks_mounts (engine : Template.Engine ε) {slot : Nat} (hcx : s.contexts.get? cx = some { slot })
    {commands : List (Command ε)} (hkeep : ∀ c ∈ commands, c.keepsQueue cx = true) :
    let uses := commands.filterMap (Command.styleUse? cx)
    let t := s.after engine commands
    let answers := StyleUse.answers engine t.registry uses
    let final := Registry.run engine t.registry (uses.flatMap StyleUse.calls)
    let result := t.step engine (.runHooks cx)
    (∀ later, s.run engine (commands ++ .runHooks cx :: later) =
      s.run engine commands ++ result :: result.2.run engine later) ∧
    result.2 = { t with registry := final }.setContext cx { slot } ∧
    (result.1 = .count uses.length ↔ ∀ a ∈ answers, ∃ o, a = .ok o) ∧
    (∀ e, result.1 = .styleError e ↔
      ∃ earlier later, answers = earlier ++ .error e :: later ∧ ∀ a ∈ earlier, ∃ o, a = .ok o) ∧
    (∀ r : Registry, ∃ o, (r.mountBaseline engine).1 = .ok o) ∧
    (uses ≠ [] → final.isMounted Rule.baselineId = true) ∧
    (∀ between, (∀ c ∈ between, c.keepsQueue cx = true ∧ c.styleUse? cx = none) →
      (result.2.after engine between).step engine (.runHooks cx) = (.count 0, result.2.after engine between)) ∧
    ∀ (s : Session ε) (context : Context ε), s.contexts.get? cx = some context →
      (∀ mountId clsPrefix,
        s.step engine (.useStyle cx mountId none clsPrefix) = (.styleError (.missingStyle mountId), s)) ∧
      ∀ ref id mountId theme clsPrefix, ∃ refs,
        s.step engine (.useTheme cx ref id mountId none theme clsPrefix) = (.id id, { s with refs }) := by
  intro uses t answers final result
  have hqueue : t.contexts.get? cx = some { slot, hooks := uses.map (StyleUse.hook engine) } :=
    context_after engine hcx hkeep
  have hresult : result = ((firstFailure? answers).elim (.count uses.length) .styleError,
      { t with registry := final }.setContext cx { slot }) := by
    show t.step engine (.runHooks cx) = _
    rw [step_runHooks hqueue, StyleUse.firstFailure_hooks, StyleUse.runOn_hooks, List.length_map]
  rw [hresult]
  refine ⟨fun later => ?_, rfl, ?_, fun e => ?_, Registry.exists_mountBaseline engine, ?_,
    fun between hbetween => ?_, ?_⟩
  · rw [run_append, ← hresult]
    rfl
  · rw [← firstFailure?_eq_none_iff]
    cases firstFailure? answers <;> simp
  · rw [← firstFailure?_eq_some_iff]
    cases firstFailure? answers <;> simp
  · exact fun huses => StyleUse.isMounted_run_calls huses t.registry
  · -- what is done between the runs adds no hook to the empty queue
    have hempty := context_setContext_self { t with registry := final } cx { slot }
    have hnone : between.filterMap (Command.styleUse? cx) = [] :=
      List.filterMap_eq_nil_iff.2 fun c hc => (hbetween c hc).2
    have hafter := context_after engine hempty fun c hc => (hbetween c hc).1
    rw [hnone] at hafter
    exact step_runHooks_of_empty hafter
  · intro s context hcx
    exact ⟨step_useStyle_none hcx, fun ref id mountId theme clsPrefix =>
      ⟨_, step_useTheme_none hcx ref id mountId theme clsPrefix⟩⟩

/-- Of three styles the first is mounted already, the second does not compile, and the third is mounted all the same. -/
theorem runHooks_mounts_broken :
    let style (selector : String) : Rule := .mk [selector] (.raw "color: red;") []
    let s : Session TemplateError := {
      registry := { ids := [Rule.baselineId, "nIcon"], sheets := [⟨"nIcon", true, ""⟩, ⟨Rule.baselineId, true, ""⟩] }
      slots := [none]
      contexts := NameMap.insert ∅ "cx" { slot := 0 } }
    let commands : List (Command TemplateError) := [
      .useTheme "cx" "ref" "Icon" "Icon" (some (style "a")) (.fixed (Definition.new "Icon")) (some "n"),
      .useStyle "cx" "Broken" (some (style "\x7b\x7b broken")) (some "n"),
      .useStyle "cx" "None" none none,
      .useStyle "cx" "Card" (some (style "b")) none]
    let result := (s.after partialEngine commands).step partialEngine (.runHooks "cx")
    result.1 = .styleError (.render .malformed) ∧
      result.2.registry.ids = ["Card", Rule.baselineId, "nIcon"] ∧
      (result.2.after partialEngine [.teardown]).step partialEngine (.runHooks "cx") =
        (.count 0, result.2.after partialEngine [.teardown]) := by
  intro style s commands result
  have hcx : s.contexts.get? "cx" = some { slot := 0 } := rfl
  have hkeep : ∀ c ∈ commands, c.keepsQueue "cx" = true := by decide
  obtain ⟨-, hleft, -, hfailure, -, -, hagain, -⟩ := runHooks_mounts partialEngine hcx hkeep
  refine ⟨(hfailure _).2 ⟨[.ok .alreadyMounted], [.ok .inserted], ?_, by simp⟩, ?_, hagain [.teardown] (by decide)⟩
  · decide +kernel
  · rw [show result.2 = _ from hleft]
    decide +kernel

end Session

end Theming
