import Theming.Proofs.Session.BeforeMount

/-!
# What theme references follow

A theme reference is bound at two times.  The default theme is settled when the reference is made, by the colour mode in
force then; the provider is looked up when a value is asked for, in the slot of the context that the reference was made
from.  Handles and contexts may share slots, and who shares one sees what anyone who shares it has put there last.  So
the value of a reference is told by the history of the session, and what has no part in its slot has no part in its
value (`themeValue_follows`).
-/

namespace Theming

open Template (partialEngine)

variable {ε : Type} {engine : Template.Engine ε}

/-- The answer to a question for a theme. -/
def Reply.ofTheme : Except ThemeError MergedTheme → Reply ε
  | .ok m => .theme m
  | .error e => .themeError e

/-! ### The latest event of a kind -/

namespace Session

variable {β : Type} {read : Session ε → Command ε → Option β}

/-- The latest of what `read` finds in the commands of a run, each with the session that it is given to. -/
def latest (engine : Template.Engine ε) (read : Session ε → Command ε → Option β) (s : Session ε) :
    List (Command ε) → Option β
  | [] => none
  | c :: commands => (latest engine read (s.step engine c).2 commands).or (read s c)

theorem latest_append (s : Session ε) (commands later : List (Command ε)) :
    s.latest engine read (commands ++ later) =
      ((s.after engine commands).latest engine read later).or (s.latest engine read commands) := by
  induction commands generalizing s with
  | nil => simp [latest, after]
  | cons c commands ih =>
    rw [List.cons_append, latest, ih, latest, Option.or_assoc]
    rfl

theorem latest_eq_none {commands : List (Command ε)} (h : ∀ c ∈ commands, ∀ s, read s c = none) (s : Session ε) :
    s.latest engine read commands = none := by
  induction commands generalizing s with
  | nil => rfl
  | cons c commands ih =>
    rw [List.forall_mem_cons] at h
    rw [latest, ih h.2, h.1 s]
    rfl

end Session

/-! ### Who shares a slot -/

/-- What has a slot: a handle, a context or a reference, by its name. -/
inductive Holder
  | handle (name : String)
  | context (name : String)
  | ref (name : String)
  deriving DecidableEq

def Session.slotOf (s : Session ε) : Holder → Option Nat
  | .handle name => s.handles.get? name
  | .context name => (s.contexts.get? name).map Context.slot
  | .ref name => (s.refs.get? name).map ThemeRef.slot

namespace Command

/-- The slot that a command gives to a holder: a new one, or that of another holder. -/
def gives? (holder : Holder) (s : Session ε) : Command ε → Option Nat
  | .newHandle handle _ => if holder = .handle handle then some s.slots.length else none
  | .newContext cx _ => if holder = .context cx then some s.slots.length else none
  | .newContextOn cx handle => if holder = .context cx then s.slotOf (.handle handle) else none
  | .shareHandle cx handle => if holder = .handle handle then s.slotOf (.context cx) else none
  | .useTheme cx ref _ _ _ _ _ => if holder = .ref ref then s.slotOf (.context cx) else none
  | _ => none

/-- What a command puts into a slot: what a new slot starts with, or what is set by a handle that has the slot. -/
def putsInto? (slot : Nat) (s : Session ε) : Command ε → Option (Option Provider)
  | .newHandle _ provider | .newContext _ provider => if s.slots.length = slot then some provider else none
  | .setHandle handle provider => if s.slotOf (.handle handle) = some slot then some provider else none
  | _ => none

/-- The reference that a command makes under a name, its default theme settled. -/
def makes? (ref : String) (s : Session ε) : Command ε → Option ThemeRef
  | .useTheme cx name id _ _ theme _ =>
    if ref = name then (s.slotOf (.context cx)).map fun slot => { id, theme := theme.settle s.mode, slot } else none
  | _ => none

def mode? : Command ε → Option ColorMode
  | .setMode mode => some mode
  | _ => none

/-- Whether a command gives a reference its name anew. -/
def renames (ref : String) : Command ε → Bool
  | .useTheme _ name _ _ _ _ _ => ref == name
  | _ => false

theorem makes?_eq_none {ref : String} {c : Command ε} (h : c.renames ref = false) (s : Session ε) :
    c.makes? ref s = none := by
  cases c with
  | useTheme cx name =>
    have hname : ref ≠ name := by simpa [renames] using h
    exact if_neg hname
  | _ => rfl

/-- A slot that is given is a new one, which something is put into, or that of another holder. -/
theorem exists_of_gives? {c : Command ε} {s : Session ε} {holder : Holder} {slot : Nat}
    (h : c.gives? holder s = some slot) :
    (∃ provider, c.putsInto? slot s = some provider) ∨ ∃ other, s.slotOf other = some slot := by
  cases c with
  | newHandle handle provider | newContext cx provider =>
    have hnew : s.slots.length = slot := Option.some.inj (Option.ite_none_right_eq_some.1 h).2
    exact .inl ⟨provider, if_pos hnew⟩
  | newContextOn cx handle => exact .inr ⟨_, (Option.ite_none_right_eq_some.1 h).2⟩
  | shareHandle cx handle => exact .inr ⟨_, (Option.ite_none_right_eq_some.1 h).2⟩
  | useTheme cx ref => exact .inr ⟨_, (Option.ite_none_right_eq_some.1 h).2⟩
  | _ => cases h

end Command

namespace Session

variable {s : Session ε}

/-! ### One command -/

section Slots

variable (s)

theorem slotOf_setContext (cx : String) (context : Context ε) (holder : Holder) :
    (s.setContext cx context).slotOf holder = if holder = .context cx then some context.slot else s.slotOf holder := by
  cases holder with
  | context name =>
    show ((s.contexts.insert cx context).get? name).map Context.slot = _
    rw [NameMap.get?_insert]
    by_cases h : name = cx <;> simp [h, slotOf]
  | handle name => rfl
  | ref name => rfl

theorem slotOf_insert_handle (handle : String) (slot : Nat) (holder : Holder) :
    slotOf { s with handles := s.handles.insert handle slot } holder =
      if holder = .handle handle then some slot else s.slotOf holder := by
  cases holder with
  | handle name =>
    show (s.handles.insert handle slot).get? name = _
    rw [NameMap.get?_insert]
    by_cases h : name = handle <;> simp [h, slotOf]
  | context name => rfl
  | ref name => rfl

theorem slotOf_insert_ref (ref : String) (t : ThemeRef) (holder : Holder) :
    slotOf { s with refs := s.refs.insert ref t } holder =
      if holder = .ref ref then some t.slot else s.slotOf holder := by
  cases holder with
  | ref name =>
    show ((s.refs.insert ref t).get? name).map ThemeRef.slot = _
    rw [NameMap.get?_insert]
    by_cases h : name = ref <;> simp [h, slotOf]
  | handle name => rfl
  | context name => rfl

end Slots

theorem slotOf_context {cx : String} {context : Context ε} (h : s.contexts.get? cx = some context) :
    s.slotOf (.context cx) = some context.slot := by
  rw [slotOf, h]
  rfl

theorem slotOf_context_eq_none {cx : String} (h : s.contexts.get? cx = none) : s.slotOf (.context cx) = none := by
  rw [slotOf, h]
  rfl

/-- To queue and to run hooks is to change a context, but not its slot. -/
theorem slotOf_setContext_of_get? {cx : String} {context old : Context ε} (hold : s.contexts.get? cx = some old)
    (hslot : context.slot = old.slot) : (s.setContext cx context).slotOf = s.slotOf := by
  funext holder
  rw [slotOf_setContext, hslot]
  split
  · rename_i h
    rw [h, slotOf_context hold]
  · rfl

/-- What references depend on: the slots with what they hold and who has them, the references, and the mode. -/
def bindings (s : Session ε) : List (Option Provider) × (Holder → Option Nat) × NameMap ThemeRef × ColorMode :=
  (s.slots, s.slotOf, s.refs, s.mode)

theorem bindings_setContext {cx : String} {context old : Context ε} (hold : s.contexts.get? cx = some old)
    (hslot : context.slot = old.slot) : (s.setContext cx context).bindings = s.bindings := by
  rw [bindings, slotOf_setContext_of_get? hold hslot]
  rfl

theorem bindings_withNamed {α : Type} {objects : NameMap α} {name : String} {f : α → Reply ε × Session ε}
    (h : ∀ a, objects.get? name = some a → (f a).2.bindings = s.bindings) :
    (s.withNamed objects name f).2.bindings = s.bindings := by
  cases hget : objects.get? name with
  | none =>
    rw [withNamed, hget]
    rfl
  | some a =>
    rw [withNamed_of_get? hget]
    exact h a hget

variable {c : Command ε}

/-- A session after a command: who has a slot, what it holds, the references and the mode are what the command has
changed them to, or else what they were. -/
structure Follows (s : Session ε) (c : Command ε) (t : Session ε) : Prop where
  slotOf_eq : ∀ holder, t.slotOf holder = (c.gives? holder s).or (s.slotOf holder)
  slots_eq : ∀ slot : Nat, t.slots[slot]? = (c.putsInto? slot s).or s.slots[slot]?
  refs_eq : ∀ ref, t.refs.get? ref = (c.makes? ref s).or (s.refs.get? ref)
  mode_eq : t.mode = c.mode?.getD s.mode

theorem Follows.of_bindings {t : Session ε} (h : t.bindings = s.bindings) (hgives : ∀ holder, c.gives? holder s = none)
    (hputs : ∀ slot, c.putsInto? slot s = none) (hmakes : ∀ ref, c.makes? ref s = none) (hmode : c.mode? = none) :
    Follows s c t := by
  simp only [bindings, Prod.mk.injEq] at h
  obtain ⟨hslots, hslotOf, hrefs, hmode'⟩ := h
  constructor
  · intro holder
    rw [hgives, hslotOf]
    rfl
  · intro slot
    rw [hputs, hslots]
    rfl
  · intro ref
    rw [hmakes, hrefs]
    rfl
  · rw [hmode, hmode']
    rfl

/-- Every slot that something has is there. -/
def SlotsExist (s : Session ε) : Prop := ∀ holder slot, s.slotOf holder = some slot → slot < s.slots.length

private theorem getElem?_concat (l : List β) (b : β) (n : Nat) :
    (l ++ [b])[n]? = (if l.length = n then some b else none).or l[n]? := by
  by_cases h : l.length = n
  · subst h
    simp
  · rw [if_neg h, Option.none_or]
    by_cases hn : n < l.length
    · exact List.getElem?_append_left hn
    · rw [List.getElem?_eq_none (by simp; omega), List.getElem?_eq_none (by omega)]

theorem step_follows (engine : Template.Engine ε) (hs : s.SlotsExist) (c : Command ε) :
    Follows s c (s.step engine c).2 := by
  -- what changes nothing answers a question, is about hooks and style sheets, or names what is not there
  have hsame {c : Command ε} := Follows.of_bindings (s := s) (c := c) (t := (s.step engine c).2)
  cases c with
  | newHandle handle provider =>
    constructor
    · intro holder
      refine (slotOf_insert_handle (s.addSlot provider) handle s.slots.length holder).trans ?_
      rw [Command.gives?]
      split <;> rfl
    · exact getElem?_concat s.slots provider
    · exact fun _ => rfl
    · rfl
  | newContext cx provider =>
    constructor
    · intro holder
      refine (slotOf_setContext (s.addSlot provider) cx { slot := s.slots.length } holder).trans ?_
      rw [Command.gives?]
      split <;> rfl
    · exact getElem?_concat s.slots provider
    · exact fun _ => rfl
    · rfl
  | newContextOn cx handle =>
    cases hget : s.handles.get? handle with
    | none =>
      have hslot : s.slotOf (.handle handle) = none := hget
      refine hsame (bindings_withNamed fun _ h => ?_) (fun _ => ?_) (fun _ => rfl) (fun _ => rfl) rfl
      · cases hget.symm.trans h
      · rw [Command.gives?, hslot, ite_self]
    | some slot =>
      have hslot : s.slotOf (.handle handle) = some slot := hget
      rw [step, withNamed_of_get? hget]
      refine ⟨fun holder => ?_, fun _ => rfl, fun _ => rfl, rfl⟩
      refine (slotOf_setContext s cx { slot } holder).trans ?_
      rw [Command.gives?, hslot]
      split <;> rfl
  | shareHandle cx handle =>
    cases hget : s.contexts.get? cx with
    | none =>
      refine hsame (bindings_withNamed fun _ h => ?_) (fun _ => ?_) (fun _ => rfl) (fun _ => rfl) rfl
      · cases hget.symm.trans h
      · rw [Command.gives?, slotOf_context_eq_none hget, ite_self]
    | some context =>
      rw [step, withNamed_of_get? hget]
      refine ⟨fun holder => ?_, fun _ => rfl, fun _ => rfl, rfl⟩
      refine (slotOf_insert_handle s handle context.slot holder).trans ?_
      rw [Command.gives?, slotOf_context hget]
      split <;> rfl
  | setHandle handle provider =>
    cases hget : s.handles.get? handle with
    | none =>
      have hslot : s.slotOf (.handle handle) = none := hget
      refine hsame (bindings_withNamed fun _ h => ?_) (fun _ => rfl) (fun _ => ?_) (fun _ => rfl) rfl
      · cases hget.symm.trans h
      · rw [Command.putsInto?, hslot, if_neg (by simp)]
    | some slot =>
      have hslot : s.slotOf (.handle handle) = some slot := hget
      rw [step, withNamed_of_get? hget]
      refine ⟨fun holder => ?_, fun n => ?_, fun _ => rfl, rfl⟩
      · cases holder <;> rfl
      · have hset := List.getElem?_set (l := s.slots) (i := slot) (j := n) (a := provider)
        rw [if_pos (hs _ slot hslot)] at hset
        refine hset.trans ?_
        simp only [Command.putsInto?, hslot, Option.some_inj]
        split <;> rfl
  | useTheme cx ref id mountId style theme clsPrefix =>
    cases hget : s.contexts.get? cx with
    | none =>
      have hslot := slotOf_context_eq_none hget
      refine hsame (bindings_withNamed fun _ h => ?_) (fun _ => ?_) (fun _ => rfl) (fun _ => ?_) rfl
      · cases hget.symm.trans h
      · rw [Command.gives?, hslot, ite_self]
      · rw [Command.makes?, hslot, Option.map_none, ite_self]
    | some context =>
      have hslots (hooks : List (Hook ε)) : (s.setContext cx { context with hooks }).slotOf = s.slotOf :=
        slotOf_setContext_of_get? hget rfl
      rw [step, withNamed_of_get? hget]
      refine ⟨fun holder => ?_, fun _ => rfl, fun name => ?_, rfl⟩
      · refine (slotOf_insert_ref (s.setContext cx _) ref _ holder).trans ?_
        rw [hslots, Command.gives?, slotOf_context hget]
        split <;> rfl
      · refine (s.refs.get?_insert name ref _).trans ?_
        rw [Command.makes?, slotOf_context hget]
        split <;> rfl
  | setMode mode =>
    refine ⟨fun holder => ?_, fun _ => rfl, fun _ => rfl, rfl⟩
    cases holder <;> rfl
  | getHandle | getProvider | configure | themeValue =>
    exact hsame (bindings_withNamed fun _ _ => rfl) (fun _ => rfl) (fun _ => rfl) (fun _ => rfl) rfl
  | addHook =>
    exact hsame (bindings_withNamed fun _ hcx => bindings_setContext hcx rfl) (fun _ => rfl) (fun _ => rfl)
      (fun _ => rfl) rfl
  | useStyle cx mountId style =>
    refine hsame (bindings_withNamed fun _ hcx => ?_) (fun _ => rfl) (fun _ => rfl) (fun _ => rfl) rfl
    cases style with
    | none => rfl
    | some rule => exact bindings_setContext hcx rfl
  | runHooks cx =>
    refine hsame (bindings_withNamed fun context hcx => ?_) (fun _ => rfl) (fun _ => rfl) (fun _ => rfl) rfl
    exact bindings_setContext (s := { s with registry := (Hook.runAll context.hooks s.registry).2 }) hcx rfl
  | mount | mountBaseline | isMounted | sheet | sheets | count | headText | teardown | getMode | settle =>
    exact hsame rfl (fun _ => rfl) (fun _ => rfl) (fun _ => rfl) rfl

/-! ### Runs -/

theorem slotsExist_initial (mode : ColorMode) : SlotsExist ({ mode } : Session ε) := by
  intro holder slot h
  cases holder <;> cases h

theorem SlotsExist.step (hs : s.SlotsExist) (engine : Template.Engine ε) (c : Command ε) :
    (s.step engine c).2.SlotsExist := by
  have hfollows := step_follows engine hs c
  have hstays {slot : Nat} (h : slot < s.slots.length) : slot < (s.step engine c).2.slots.length := by
    have hsome : ((s.step engine c).2.slots[slot]?).isSome = true := by
      rw [hfollows.slots_eq, Option.isSome_or, List.getElem?_eq_getElem h, Option.isSome_some, Bool.or_true]
    simpa using hsome
  intro holder slot h
  rw [hfollows.slotOf_eq, Option.or_eq_some_iff] at h
  rcases h with hgiven | ⟨-, hhad⟩
  · rcases Command.exists_of_gives? hgiven with ⟨provider, hput⟩ | ⟨other, hother⟩
    · have hsome := hfollows.slots_eq slot
      rw [hput] at hsome
      exact (List.getElem?_eq_some_iff.1 hsome).1
    · exact hstays (hs other slot hother)
  · exact hstays (hs holder slot hhad)

section Run

variable (commands : List (Command ε))

theorem SlotsExist.after (hs : s.SlotsExist) : (s.after engine commands).SlotsExist := by
  induction commands generalizing s with
  | nil => exact hs
  | cons c commands ih => exact ih (hs.step engine c)

/-- If each command changes a part of the session to what `read` finds in it, this part is what has been found last. -/
theorem SlotsExist.eq_latest_or (part : Session ε → Option β) (read : Session ε → Command ε → Option β)
    (hstep : ∀ {s : Session ε}, s.SlotsExist → ∀ c, part (s.step engine c).2 = (read s c).or (part s))
    (hs : s.SlotsExist) :
    part (s.after engine commands) = (s.latest engine read commands).or (part s) := by
  induction commands generalizing s with
  | nil => rfl
  | cons c commands ih =>
    have hlater := ih (hs.step engine c)
    rw [hstep hs c] at hlater
    rw [latest, Option.or_assoc, ← hlater]
    rfl

/-- A slot holds what was put into it last. -/
theorem SlotsExist.slots_after (hs : s.SlotsExist) (slot : Nat) :
    (s.after engine commands).slots[slot]? = (s.latest engine (Command.putsInto? slot) commands).or s.slots[slot]? :=
  eq_latest_or commands (fun s => s.slots[slot]?) _ (fun hs c => (step_follows engine hs c).slots_eq slot) hs

theorem SlotsExist.refs_after (hs : s.SlotsExist) (ref : String) :
    (s.after engine commands).refs.get? ref = (s.latest engine (Command.makes? ref) commands).or (s.refs.get? ref) :=
  eq_latest_or commands (fun s => s.refs.get? ref) _ (fun hs c => (step_follows engine hs c).refs_eq ref) hs

theorem SlotsExist.mode_after (hs : s.SlotsExist) :
    (s.after engine commands).mode = (s.latest engine (fun _ => Command.mode?) commands).getD s.mode := by
  have hstep {s : Session ε} (hs : s.SlotsExist) (c : Command ε) :
      some (s.step engine c).2.mode = c.mode?.or (some s.mode) := by
    rw [(step_follows engine hs c).mode_eq]
    cases c.mode? <;> rfl
  have hafter := eq_latest_or commands (fun s => some s.mode) (fun _ => Command.mode?) hstep hs
  refine Option.some.inj (hafter.trans ?_)
  cases s.latest engine (fun _ => Command.mode?) commands <;> rfl

end Run

/-! ### Values of references -/

theorem step_themeValue {ref : String} {t : ThemeRef} (h : s.refs.get? ref = some t) (inst : Instance) :
    s.step engine (.themeValue ref inst) = (.ofTheme (resolve t.id t.theme inst (s.provider t.slot)), s) := by
  rw [step, withNamed_of_get? h]
  cases resolve t.id t.theme inst (s.provider t.slot) <;> rfl

/-- A reference stays as it was made until its name is given anew. -/
theorem SlotsExist.ref_of_useTheme (hs : s.SlotsExist) {before later : List (Command ε)} {cx ref id mountId : String}
    {style : Option Rule} {theme : DefaultTheme} {clsPrefix : Option String} {slot : Nat}
    (hslot : (s.after engine before).slotOf (.context cx) = some slot) (hlater : ∀ c ∈ later, c.renames ref = false) :
    (s.after engine (before ++ .useTheme cx ref id mountId style theme clsPrefix :: later)).refs.get? ref =
      some { id, theme := theme.settle (s.after engine before).mode, slot } := by
  rw [hs.refs_after, latest_append, latest, latest_eq_none fun c hc s => Command.makes?_eq_none (hlater c hc) s,
    Option.none_or, Command.makes?, if_pos rfl, hslot]
  rfl

/-- The value of a reference does not change with a command that has no part in its slot. -/
theorem SlotsExist.step_themeValue_step (hs : s.SlotsExist) {ref : String} {slot : Nat}
    (hslot : s.slotOf (.ref ref) = some slot) {c : Command ε} (hname : c.renames ref = false)
    (hset : ∀ handle provider, c = .setHandle handle provider → s.slotOf (.handle handle) ≠ some slot)
    (inst : Instance) :
    ((s.step engine c).2.step engine (.themeValue ref inst)).1 = (s.step engine (.themeValue ref inst)).1 := by
  obtain ⟨t, ht, rfl⟩ := Option.map_eq_some_iff.1 hslot
  have hfollows := step_follows engine hs c
  have hthere := hs _ _ hslot
  have href : (s.step engine c).2.refs.get? ref = some t := by
    rw [hfollows.refs_eq, Command.makes?_eq_none hname, Option.none_or, ht]
  have hputs : c.putsInto? t.slot s = none := by
    cases c with
    | newHandle | newContext => exact if_neg (by omega)
    | setHandle handle provider => exact if_neg (hset handle provider rfl)
    | _ => rfl
  have hprovider : (s.step engine c).2.provider t.slot = s.provider t.slot := by
    rw [provider, provider, hfollows.slots_eq, hputs, Option.none_or]
  rw [step_themeValue href, step_themeValue ht, hprovider]

/-- In a session that starts in some colour mode, the value of a reference is the theme of its component, resolved from
the default theme that was settled when the reference was made, by the mode that was set last before, and from the
provider that was put last into the slot of the context that it was made from.  The slot of a holder is the one that was
given to it last, new slots are new, and no command changes the value of a reference but those that give it its name
anew or set a provider by a handle of its slot. -/
theorem themeValue_follows (engine : Template.Engine ε) (mode : ColorMode) (commands : List (Command ε)) :
    let start : Session ε := { mode }
    let s := start.after engine commands
    (∀ before cx ref id mountId style theme clsPrefix later slot,
      commands = before ++ .useTheme cx ref id mountId style theme clsPrefix :: later →
      (start.after engine before).slotOf (.context cx) = some slot → (∀ c ∈ later, c.renames ref = false) →
      let settled : Definition := match theme with
        | .fixed d => d
        | .adaptive t =>
          if (start.latest engine (fun _ => Command.mode?) before).getD mode = .dark then t.dark else t.light
      ∃ provider, start.latest engine (Command.putsInto? slot) commands = some provider ∧
        ∀ inst rest, start.run engine (commands ++ .themeValue ref inst :: rest) =
          start.run engine commands ++ (.ofTheme (resolve id settled inst provider), s) :: s.run engine rest) ∧
    (∀ c holder, (s.step engine c).2.slotOf holder = (c.gives? holder s).or (s.slotOf holder)) ∧
    (∀ holder, s.slotOf holder ≠ some s.slots.length) ∧
    ∀ ref slot, s.slotOf (.ref ref) = some slot → ∀ c, c.renames ref = false →
      (∀ handle provider, c = .setHandle handle provider → s.slotOf (.handle handle) ≠ some slot) →
      ∀ inst, ((s.step engine c).2.step engine (.themeValue ref inst)).1 = (s.step engine (.themeValue ref inst)).1 := by
  intro start s
  have hstart : start.SlotsExist := slotsExist_initial mode
  have hs : s.SlotsExist := hstart.after commands
  refine ⟨?_, fun c => (step_follows engine hs c).slotOf_eq, fun holder h => ?_, fun ref slot hslot c hname hset =>
    hs.step_themeValue_step hslot hname hset⟩
  · intro before cx ref id mountId style theme clsPrefix later slot hcommands hslot hlater settled
    have href : s.refs.get? ref = some { id, theme := theme.settle (start.after engine before).mode, slot } := by
      show (start.after engine commands).refs.get? ref = _
      rw [hcommands]
      exact hstart.ref_of_useTheme hslot hlater
    have hsettled : theme.settle (start.after engine before).mode = settled := by
      rw [hstart.mode_after]
      cases theme with
      | fixed d => rfl
      | adaptive t =>
        show t.forMode _ = if _ then t.dark else t.light
        cases (start.latest engine (fun _ => Command.mode?) before).getD mode <;> rfl
    -- the slot is there, and before the first command there was none
    have hthere : slot < s.slots.length := hs (.ref ref) slot (by rw [slotOf, href]; rfl)
    have hput : s.slots[slot]? = start.latest engine (Command.putsInto? slot) commands := by
      show (start.after engine commands).slots[slot]? = _
      rw [hstart.slots_after]
      exact Option.or_none
    refine ⟨s.slots[slot], hput.symm.trans (List.getElem?_eq_getElem hthere), fun inst rest => ?_⟩
    have hprovider : s.provider slot = s.slots[slot] := by
      rw [Session.provider, List.getElem?_eq_getElem hthere]
      rfl
    rw [run_append, ← hsettled, ← hprovider]
    show _ ++ s.step engine (.themeValue ref inst) :: (s.step engine (.themeValue ref inst)).2.run engine rest = _
    rw [step_themeValue href]
  · exact absurd (hs holder _ h) (Nat.lt_irrefl _)

/-- A reference that was made in dark mode, from a context on a handle of the host: back in light mode, it still has the
dark definition, with the provider that another handle of the same slot has set since. -/
theorem themeValue_follows_dark :
    let definition (tone : String) : Definition :=
      ((Definition.new "Tag").withCommon (NameMap.insert ∅ "tone" (.text tone))).withGenerator fun common => common
    let provider (font : String) : Provider :=
      { overrides := { common := some (NameMap.insert ∅ "font" (.text font)) } }
    let tag : Adaptive := { light := definition "light", dark := definition "dark" }
    let commands : List (Command TemplateError) := [
      .newHandle "host" (some (provider "first")),
      .newContextOn "cx" "host",
      .setMode .dark,
      .useTheme "cx" "ref" "Tag" "-tag" none (.adaptive tag) none,
      .setMode .light,
      .shareHandle "cx" "alias",
      .newHandle "other" none,
      .setHandle "alias" (some (provider "second")),
      .setHandle "other" (some (provider "third")),
      .mountBaseline,
      .runHooks "cx"]
    let start : Session TemplateError := {}
    ∃ m, start.run partialEngine (commands ++ [.themeValue "ref" {}]) =
        start.run partialEngine commands ++ [(.theme m, start.after partialEngine commands)] ∧
      m.tokens.get? "tone" = some (.text "dark") ∧ m.tokens.get? "font" = some (.text "second") := by
  intro definition provider tag commands start
  obtain ⟨hvalue, -⟩ := themeValue_follows partialEngine .light commands
  obtain ⟨p, hp, hrun⟩ := hvalue (commands.take 3) "cx" "ref" "Tag" "-tag" none (.adaptive tag) none (commands.drop 4) 0
    rfl rfl (by decide)
  have hlast : start.latest partialEngine (Command.putsInto? 0) commands = some (some (provider "second")) := by
    simp [start, commands, latest, Command.putsInto?, slotOf, step, withNamed, addSlot, setContext, NameMap.get?_insert]
  obtain rfl : p = some (provider "second") := Option.some.inj (hp.symm.trans hlast)
  exact ⟨_, hrun {} [], rfl, rfl⟩

end Session

end Theming
