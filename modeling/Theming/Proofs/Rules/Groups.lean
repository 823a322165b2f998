import Mathlib.Data.Bool.AllAny
import Mathlib.Data.List.Basic
import Theming.Proofs.Template.Pattern

/-!
# Comma groups with gaps

A comma group is taken apart before the class prefix fills its gaps.  The placeholder and the start of a class
selector have no character that cutting and trimming look at, so either way the selectors are instances of the same
patterns (`exists_splitGroup`).
-/

namespace Theming

/-! ### Inert texts -/

/-- A text that does not show where selectors are cut. -/
structure IsInert (gap : List Char) : Prop where
  ne_nil : gap ≠ []
  trimmed : Text.IsTrimmed gap
  plain : ∀ c ∈ gap, c ∉ [',', '"', '\'', '(', ')', '[', ']', '\\', '@']

theorem isInert_placeholder : IsInert Rule.placeholder.toList where
  ne_nil := by decide
  trimmed := Pattern.isTrimmed_placeholder
  plain := List.all_iff_forall_prop.1 (by decide)

namespace IsInert

variable {gap : List Char}

theorem endsSolid (h : IsInert gap) : Pattern.EndsSolid gap := by
  have hlast : gap.getLast? = some (gap.getLast h.ne_nil) := List.getLast?_eq_some_getLast h.ne_nil
  refine ⟨_, hlast, ?_, ?_⟩ <;> intro hc
  · exact absurd (h.trimmed.last '\n' (by rw [hlast, hc]; rfl)) (by decide)
  · exact absurd (h.trimmed.last '\r' (by rw [hlast, hc]; rfl)) (by decide)

theorem fill_eq_nil_iff (h : IsInert gap) {t : Pattern} : t.fill gap = [] ↔ t = [] := by
  rcases t with _ | ⟨_ | c, t⟩ <;> simp [h.ne_nil]

theorem head?_fill_eq_at_iff (h : IsInert gap) {t : Pattern} :
    (t.fill gap).head? = some '@' ↔ t.head? = some (some '@') := by
  rcases t with _ | ⟨_ | c, t⟩
  · simp
  · have hhead : gap.head h.ne_nil ≠ '@' := fun hat => h.plain _ (List.head_mem h.ne_nil) (by simp [hat])
    simp [List.head?_append, List.head?_eq_some_head h.ne_nil, hhead]
  · simp

end IsInert

namespace Pattern

theorem reverse_fill (gap : List Char) (t : Pattern) : (t.fill gap).reverse = fill gap.reverse t.reverse := by
  induction t with
  | nil => rfl
  | cons c t ih => cases c <;> simp [ih]

private theorem exists_dropWhile (t : Pattern) :
    ∃ u ⊆ t, ∀ gap, (∃ c ∈ gap.head?, Text.isBlank c = false) → (t.fill gap).dropWhile Text.isBlank = u.fill gap := by
  induction t with
  | nil => exact ⟨[], by simp⟩
  | cons c t ih =>
    cases c with
    | none =>
      refine ⟨none :: t, List.Subset.refl _, fun gap hgap => ?_⟩
      obtain ⟨d, hd, hblank⟩ := hgap
      obtain ⟨s, rfl⟩ := List.head?_eq_some_iff.1 hd
      simp [hblank]
    | some c =>
      by_cases hc : Text.isBlank c = true
      · obtain ⟨u, hu, hfill⟩ := ih
        exact ⟨u, List.subset_cons_of_subset _ hu, fun gap hgap => by simp [hc, hfill gap hgap]⟩
      · exact ⟨some c :: t, List.Subset.refl _, fun gap _ => by simp [hc]⟩

/-- Trimming takes the same characters away whatever fills the gaps. -/
theorem exists_trim (t : Pattern) : ∃ u ⊆ t, ∀ gap, IsInert gap → Text.trim (t.fill gap) = u.fill gap := by
  obtain ⟨u, hu, hstart⟩ := t.exists_dropWhile
  obtain ⟨v, hv, hend⟩ := exists_dropWhile u.reverse
  refine ⟨v.reverse, fun c hc => hu (by simpa using hv (List.mem_reverse.1 hc)), fun gap hgap => ?_⟩
  have hhead : ∃ c ∈ gap.head?, Text.isBlank c = false :=
    ⟨_, List.head?_eq_some_head hgap.ne_nil, hgap.trimmed.head _ (List.head?_eq_some_head hgap.ne_nil)⟩
  have hlast : ∃ c ∈ gap.reverse.head?, Text.isBlank c = false := by
    have h := List.getLast?_eq_some_getLast hgap.ne_nil
    exact ⟨_, by rw [List.head?_reverse]; exact h, hgap.trimmed.last _ h⟩
  rw [Text.trim, Text.trimStart, hstart gap hhead, Text.trimEnd, reverse_fill, hend _ hlast, reverse_fill,
    List.reverse_reverse]

end Pattern

namespace Selector

theorem segments_ne_nil (s : Scan) (group : List Char) : segments s group ≠ [] := by
  fun_cases segments s group <;> simp

theorem segments_cons {s : Scan} {c : Char} (h : ¬(c = ',' ∧ s.isOpen)) (rest : List Char) :
    segments s (c :: rest) = (segments (s.step c) rest).modifyHead (c :: ·) := by
  rw [segments, if_neg h]
  cases hrest : segments (s.step c) rest with
  | nil => exact absurd hrest (segments_ne_nil _ _)
  | cons first more => rfl

/-- The quotes are quotation marks. -/
def Scan.IsValid (s : Scan) : Prop := ∀ q ∈ s.quote, q = '"' ∨ q = '\''

theorem Scan.IsValid.step {s : Scan} (h : s.IsValid) (c : Char) : (s.step c).IsValid := by
  obtain ⟨depth, quote, escaped⟩ := s
  cases quote with
  | some q =>
    simp only [Scan.step]
    split_ifs
    · exact h
    · exact h
    · simp [Scan.IsValid]
    · exact h
  | none =>
    simp only [Scan.step]
    split_ifs with hc
    · simpa [Scan.IsValid] using hc
    · simp [Scan.IsValid]
    · simp [Scan.IsValid]
    · exact h

/-- The state after an inert text, which only ends an escape. -/
def Scan.afterGap (s : Scan) : Scan := if s.quote.isSome then { s with escaped := false } else s

theorem Scan.step_inert {s : Scan} (h : s.IsValid) {c : Char}
    (hc : c ∉ [',', '"', '\'', '(', ')', '[', ']', '\\', '@']) : s.step c = s.afterGap := by
  simp only [List.mem_cons, List.not_mem_nil, or_false, not_or] at hc
  unfold Scan.step Scan.afterGap
  cases hq : s.quote with
  | none => simp [hc]
  | some q =>
    have hcq : c ≠ q := by
      rcases h q hq with rfl | rfl
      · exact hc.2.1
      · exact hc.2.2.1
    cases he : s.escaped with
    | true => simp
    | false =>
      obtain ⟨depth, quote, escaped⟩ := s
      simp_all

theorem Scan.IsValid.afterGap {s : Scan} (h : s.IsValid) : s.afterGap.IsValid := by
  unfold Scan.afterGap
  split <;> exact h

theorem Scan.afterGap_afterGap (s : Scan) : s.afterGap.afterGap = s.afterGap := by
  unfold Scan.afterGap
  split <;> simp_all

theorem segments_gap {s : Scan} (hs : s.IsValid) {gap : List Char} (hgap : IsInert gap) (rest : List Char) :
    segments s (gap ++ rest) = (segments s.afterGap rest).modifyHead (gap ++ ·) := by
  obtain ⟨hne, -, hplain⟩ := hgap
  induction gap generalizing s with
  | nil => exact absurd rfl hne
  | cons c gap ih =>
    have hc := hplain c List.mem_cons_self
    have hcomma : ¬(c = ',' ∧ s.isOpen) := fun h => hc (by simp [h.1])
    -- after one character an inert text changes the state no more
    rw [List.cons_append, segments_cons hcomma, Scan.step_inert hs hc]
    by_cases hgap : gap = []
    · simp [hgap]
    · rw [ih hs.afterGap hgap fun d hd => hplain d (List.mem_cons_of_mem c hd), Scan.afterGap_afterGap,
        List.modifyHead_modifyHead]
      rfl

/-- Comma groups are cut at the same places whatever fills the gaps. -/
theorem exists_segments {s : Scan} (hs : s.IsValid) (t : Pattern) :
    ∃ u us, (∀ v ∈ u :: us, v ⊆ t) ∧
      ∀ gap, IsInert gap → segments s (t.fill gap) = (u :: us).map (Pattern.fill gap) := by
  induction t generalizing s with
  | nil => exact ⟨[], [], by simp, fun gap _ => rfl⟩
  | cons c t ih =>
    -- what is not a separating comma goes on with the first segment
    have hfirst : ∀ u us, (∀ v ∈ u :: us, v ⊆ t) → ∀ v ∈ (c :: u) :: us, v ⊆ c :: t := by
      intro u us h v hv
      rcases List.mem_cons.1 hv with rfl | hv
      · exact List.cons_subset_cons c (h u List.mem_cons_self)
      · exact List.subset_cons_of_subset _ (h v (List.mem_cons_of_mem u hv))
    cases c with
    | none =>
      obtain ⟨u, us, hsub, hfill⟩ := ih hs.afterGap
      refine ⟨none :: u, us, hfirst u us hsub, fun gap hgap => ?_⟩
      rw [Pattern.fill_none_cons, segments_gap hs hgap, hfill gap hgap]
      rfl
    | some c =>
      by_cases hc : c = ',' ∧ s.isOpen
      · obtain ⟨u, us, hsub, hfill⟩ := ih hs
        refine ⟨[], u :: us, ?_, fun gap hgap => ?_⟩
        · intro v hv
          rcases List.mem_cons.1 hv with rfl | hv
          · exact List.nil_subset _
          · exact List.subset_cons_of_subset _ (hsub v hv)
        · rw [Pattern.fill_some_cons, segments, if_pos hc, hfill gap hgap]
          rfl
      · obtain ⟨u, us, hsub, hfill⟩ := ih (hs.step c)
        refine ⟨some c :: u, us, hfirst u us hsub, fun gap hgap => ?_⟩
        rw [Pattern.fill_some_cons, segments_cons hc, hfill gap hgap]
        rfl

/-- Trimming segments and leaving out the empty ones gives the same patterns whatever fills the gaps. -/
theorem exists_trimmed {t : Pattern} (ts : List Pattern) (hts : ∀ v ∈ ts, v ⊆ t) :
    ∃ us : List Pattern, (∀ u ∈ us, u ⊆ t) ∧ ∀ gap, IsInert gap →
      ((ts.map (Pattern.fill gap)).map Text.trim).filter (· ≠ []) = us.map (Pattern.fill gap) := by
  induction ts with
  | nil => exact ⟨[], by simp, by simp⟩
  | cons v ts ih =>
    obtain ⟨us, hsub, hfill⟩ := ih fun w hw => hts w (List.mem_cons_of_mem v hw)
    obtain ⟨u, hu, htrim⟩ := v.exists_trim
    -- no gap is empty, so only a pattern that is empty itself is left out
    by_cases hnil : u = []
    · refine ⟨us, hsub, fun gap hgap => ?_⟩
      rw [List.map_cons, List.map_cons, htrim gap hgap, hnil, ← hfill gap hgap]
      rfl
    · refine ⟨u :: us, ?_, fun gap hgap => ?_⟩
      · intro w hw
        rcases List.mem_cons.1 hw with rfl | hw
        · exact fun c hc => hts v List.mem_cons_self (hu hc)
        · exact hsub w hw
      · have hne : u.fill gap ≠ [] := mt hgap.fill_eq_nil_iff.1 hnil
        rw [List.map_cons, List.map_cons, htrim gap hgap, List.filter_cons_of_pos (by simpa using hne),
          hfill gap hgap, List.map_cons]

/-- The selectors of a comma group are the same patterns whatever fills the gaps. -/
theorem exists_splitGroup (t : Pattern) :
    ∃ us : List Pattern, (∀ u ∈ us, u ⊆ t) ∧
      ∀ gap, IsInert gap → splitGroup (t.fill gap) = us.map (Pattern.fill gap) := by
  obtain ⟨u, us, hsub, hfill⟩ := exists_segments (s := {}) (by simp [Scan.IsValid]) t
  obtain ⟨ws, hws, htrimmed⟩ := exists_trimmed (u :: us) hsub
  exact ⟨ws, hws, fun gap hgap => by rw [splitGroup, hfill gap hgap, htrimmed gap hgap]⟩

theorem isTrimmed_of_mem_splitGroup {group s : List Char} (h : s ∈ splitGroup group) : Text.IsTrimmed s := by
  obtain ⟨t, -, rfl⟩ := List.mem_map.1 (List.mem_filter.1 h).1
  exact Text.isTrimmed_trim t

end Selector

end Theming
