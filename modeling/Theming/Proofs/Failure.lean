import Mathlib.Data.List.Basic

/-!
# Computations that may fail

How a chain of computations ends: it fails with the first failure, and where it succeeds all of its parts do.  The same
holds of lists of results.
-/

namespace Theming

variable {ε α β : Type}

@[simp] theorem ok_bind (a : α) (f : α → Except ε β) : (Except.ok a >>= f) = f a := rfl

@[simp] theorem error_bind (e : ε) (f : α → Except ε β) : (Except.error e >>= f) = .error e := rfl

@[simp] theorem pure_eq_ok_iff {a b : α} : (pure a : Except ε α) = .ok b ↔ a = b := Except.ok.injEq a b ▸ Iff.rfl

@[simp] theorem bind_eq_ok_iff {x : Except ε α} {f : α → Except ε β} {b : β} :
    (x >>= f) = .ok b ↔ ∃ a, x = .ok a ∧ f a = .ok b := by
  cases x <;> simp

@[simp] theorem map_eq_ok_iff {x : Except ε α} {f : α → β} {b : β} : f <$> x = .ok b ↔ ∃ a, x = .ok a ∧ f a = b := by
  cases x <;> simp

instance decidableForallOk {p : α → Prop} [DecidablePred p] : (x : Except ε α) → Decidable (∀ a, x = .ok a → p a)
  | .error _ => .isTrue (by simp)
  | .ok a => decidable_of_iff (p a) (by simp)

/-- Both computations succeed, with the same result. -/
def Agree (x y : Except ε α) : Prop := ∃ a, x = .ok a ∧ y = .ok a

theorem Agree.ok (a : α) : Agree (.ok a : Except ε α) (.ok a) := ⟨a, rfl, rfl⟩

theorem Agree.bind {x y : Except ε α} {f g : α → Except ε β} (h : Agree x y) (hfg : ∀ a, Agree (f a) (g a)) :
    Agree (x >>= f) (y >>= g) := by
  obtain ⟨a, rfl, rfl⟩ := h
  exact hfg a

theorem Agree.mapM {xs : List α} {f g : α → Except ε β} (h : ∀ x ∈ xs, Agree (f x) (g x)) :
    Agree (xs.mapM f) (xs.mapM g) := by
  induction xs with
  | nil => exact .ok []
  | cons x xs ih =>
    rw [List.mapM_cons, List.mapM_cons]
    exact (h x List.mem_cons_self).bind fun y =>
      (ih fun z hz => h z (List.mem_cons_of_mem x hz)).bind fun ys => .ok (y :: ys)

theorem mapM_congr {xs : List α} {f g : α → Except ε β} (h : ∀ x ∈ xs, f x = g x) : xs.mapM f = xs.mapM g := by
  induction xs with
  | nil => rfl
  | cons x xs ih =>
    rw [List.mapM_cons, List.mapM_cons, h x List.mem_cons_self, ih fun y hy => h y (List.mem_cons_of_mem x hy)]

theorem exists_ok_of_mem_mapM {f : α → Except ε β} {xs : List α} {ys : List β} (h : xs.mapM f = .ok ys) {y : β}
    (hy : y ∈ ys) : ∃ x ∈ xs, f x = .ok y := by
  induction xs generalizing ys with
  | nil =>
    obtain rfl := pure_eq_ok_iff.1 h
    cases hy
  | cons x xs ih =>
    simp only [List.mapM_cons, bind_eq_ok_iff, pure_eq_ok_iff] at h
    obtain ⟨first, hfirst, more, hmore, rfl⟩ := h
    rcases List.mem_cons.1 hy with rfl | hy
    · exact ⟨x, List.mem_cons_self, hfirst⟩
    · obtain ⟨x', hx', hf⟩ := ih hmore hy
      exact ⟨x', List.mem_cons_of_mem x hx', hf⟩

/-! ### The first failure -/

/-- The failure that a computation ends with. -/
def failure? : Except ε α → Option ε
  | .error e => some e
  | .ok _ => none

theorem failure?_eq_some_iff {x : Except ε α} {e : ε} : failure? x = some e ↔ x = .error e := by
  cases x <;> simp [failure?]

theorem failure?_eq_none_iff {x : Except ε α} : failure? x = none ↔ ∃ a, x = .ok a := by
  cases x <;> simp [failure?]

/-- The first failure among results. -/
def firstFailure? (xs : List (Except ε α)) : Option ε := xs.findSome? failure?

theorem firstFailure?_cons (x : Except ε α) (xs : List (Except ε α)) :
    firstFailure? (x :: xs) = (failure? x).or (firstFailure? xs) := by
  rw [firstFailure?, List.findSome?_cons]
  cases failure? x <;> rfl

theorem firstFailure?_eq_none_iff {xs : List (Except ε α)} : firstFailure? xs = none ↔ ∀ x ∈ xs, ∃ a, x = .ok a := by
  simp only [firstFailure?, List.findSome?_eq_none_iff, failure?_eq_none_iff]

theorem firstFailure?_eq_some_iff {xs : List (Except ε α)} {e : ε} :
    firstFailure? xs = some e ↔ ∃ before after, xs = before ++ .error e :: after ∧ ∀ x ∈ before, ∃ a, x = .ok a := by
  simp [firstFailure?, List.findSome?_eq_some_iff, failure?_eq_none_iff, failure?_eq_some_iff]

theorem firstFailure?_map_eq_some_iff {f : α → Except ε β} {xs : List α} {e : ε} :
    firstFailure? (xs.map f) = some e ↔
      ∃ before x after, xs = before ++ x :: after ∧ (∀ y ∈ before, ∃ b, f y = .ok b) ∧ f x = .error e := by
  rw [firstFailure?, List.findSome?_map, List.findSome?_eq_some_iff]
  simp only [Function.comp_apply, failure?_eq_some_iff, failure?_eq_none_iff]
  constructor
  · rintro ⟨before, x, after, rfl, hx, hbefore⟩
    exact ⟨before, x, after, rfl, hbefore, hx⟩
  · rintro ⟨before, x, after, rfl, hbefore, hx⟩
    exact ⟨before, x, after, rfl, hx, hbefore⟩

theorem firstFailure?_append (xs ys : List (Except ε α)) :
    firstFailure? (xs ++ ys) = (firstFailure? xs).or (firstFailure? ys) := List.findSome?_append

/-- A chain fails with the failure of its first part, or else as all that may follow does. -/
theorem failure?_bind {x : Except ε α} {f : α → Except ε β} {later : Option ε} (h : ∀ a, failure? (f a) = later) :
    failure? (x >>= f) = (failure? x).or later := by
  cases x with
  | error e => rfl
  | ok a => exact h a

/-- What cannot fail adds no failure. -/
theorem failure?_bind_ok {x : Except ε α} {f : α → Except ε β} (h : ∀ a, failure? (f a) = none) :
    failure? (x >>= f) = failure? x := (failure?_bind h).trans Option.or_none

theorem failure?_map (f : α → β) (x : Except ε α) : failure? (f <$> x) = failure? x := by
  cases x <;> rfl

theorem failure?_mapM (f : α → Except ε β) (xs : List α) : failure? (xs.mapM f) = firstFailure? (xs.map f) := by
  induction xs with
  | nil => rfl
  | cons x xs ih =>
    rw [List.mapM_cons, List.map_cons, firstFailure?_cons, ← ih]
    cases f x with
    | error e => rfl
    | ok y => exact failure?_map (y :: ·) (xs.mapM f)

/-! ### Lists of optional results -/

theorem mapM_map_eq_some {f : α → β} {g : β → Option α} (h : ∀ x, g (f x) = some x) (xs : List α) :
    (xs.map f).mapM g = some xs := by
  have hcomp : g ∘ f = fun x => pure x := funext h
  rw [List.mapM_map, hcomp, List.mapM_pure, List.map_id']
  rfl

theorem exists_of_mem_mapM {f : α → Option β} {xs : List α} {ys : List β} (h : xs.mapM f = some ys) {y : β}
    (hy : y ∈ ys) : ∃ x ∈ xs, f x = some y := by
  induction xs generalizing ys with
  | nil =>
    obtain rfl := Option.some.inj h
    cases hy
  | cons x xs ih =>
    simp only [List.mapM_cons, Option.bind_eq_bind, Option.bind_eq_some_iff] at h
    obtain ⟨first, hfirst, more, hmore, hys⟩ := h
    obtain rfl := Option.some.inj hys
    rcases List.mem_cons.1 hy with rfl | hy
    · exact ⟨x, List.mem_cons_self, hfirst⟩
    · obtain ⟨x', hx', hf⟩ := ih hmore hy
      exact ⟨x', List.mem_cons_of_mem x hx', hf⟩

theorem isSome_mapM_iff {f : α → Option β} {xs : List α} :
    (xs.mapM f).isSome = true ↔ ∀ x ∈ xs, (f x).isSome = true := by
  induction xs with
  | nil => simp
  | cons x xs ih =>
    rw [List.mapM_cons, List.forall_mem_cons, ← ih]
    cases f x with
    | none => simp
    | some y => cases xs.mapM f <;> simp

/-- The last result is that of the last element. -/
theorem getLast?_of_mapM {f : α → Option β} {xs : List α} {ys : List β} (h : xs.mapM f = some ys) :
    xs.getLast?.map f = ys.getLast?.map some := by
  rcases List.eq_nil_or_concat' xs with rfl | ⟨init, x, rfl⟩
  · obtain rfl := Option.some.inj h
    rfl
  · simp only [List.mapM_append, List.mapM_cons, List.mapM_nil, Option.bind_eq_bind, Option.bind_eq_some_iff] at h
    obtain ⟨first, -, last, ⟨y, hy, rest, hrest, hlast⟩, hys⟩ := h
    obtain rfl := Option.some.inj hrest
    obtain rfl := Option.some.inj hlast
    obtain rfl := Option.some.inj hys
    simp [hy]

end Theming
