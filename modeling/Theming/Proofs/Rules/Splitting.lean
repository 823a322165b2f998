import Mathlib.Data.List.Infix
import Theming.Proofs.Rules.Groups

/-!
# Splitting comma groups

A comma group is cut at the commas that the scan meets outside brackets and quotes.  The scan starts afresh behind every
cut, so groups may be put together from groups and their selectors split again, whether or not brackets and quotes are
closed in the end (`splitGroup_stable`).
-/

namespace Theming.Selector

/-! ### The scan -/

namespace Scan

/-- The state after a text. -/
def after (s : Scan) (text : List Char) : Scan := text.foldl step s

@[simp] theorem after_nil (s : Scan) : s.after [] = s := rfl

@[simp] theorem after_cons (s : Scan) (c : Char) (text : List Char) : s.after (c :: text) = (s.step c).after text := rfl

@[simp] theorem after_append (s : Scan) (a b : List Char) : s.after (a ++ b) = (s.after a).after b := List.foldl_append

theorem IsValid.after {s : Scan} (h : s.IsValid) (text : List Char) : (s.after text).IsValid := by
  induction text generalizing s with
  | nil => exact h
  | cons c text ih => exact ih (h.step c)

/-- Nothing is hidden by a backslash outside quotes. -/
def IsSettled (s : Scan) : Prop := s.quote = none → s.escaped = false

theorem IsSettled.step {s : Scan} (h : s.IsSettled) (c : Char) : (s.step c).IsSettled := by
  obtain ⟨depth, quote, escaped⟩ := s
  cases quote with
  | some q =>
    cases escaped with
    | true => simp [Scan.step, IsSettled]
    | false =>
      simp only [Scan.step, Bool.false_eq_true, if_false]
      split_ifs <;> simp [IsSettled]
  | none =>
    obtain rfl : escaped = false := h rfl
    simp only [Scan.step]
    split_ifs <;> simp [IsSettled]

theorem IsSettled.after {s : Scan} (h : s.IsSettled) (text : List Char) : (s.after text).IsSettled := by
  induction text generalizing s with
  | nil => exact h
  | cons c text ih => exact ih (h.step c)

theorem isOpen_iff {s : Scan} : s.isOpen = true ↔ s.quote = none ∧ s.depth = 0 := by
  simp [isOpen]

/-- Where a comma separates, the scan is as at the start. -/
theorem IsSettled.eq_start {s : Scan} (h : s.IsSettled) (hopen : s.isOpen = true) : s = {} := by
  obtain ⟨depth, quote, escaped⟩ := s
  obtain ⟨rfl, rfl⟩ : quote = none ∧ depth = 0 := isOpen_iff.1 hopen
  obtain rfl : escaped = false := h rfl
  rfl

theorem after_start_of_isOpen {text : List Char} (h : (after {} text).isOpen = true) : after {} text = {} :=
  IsSettled.eq_start (.after (fun _ => rfl) text) h

theorem step_comma {s : Scan} (h : s.isOpen = true) : s.step ',' = s := by
  obtain ⟨depth, quote, escaped⟩ := s
  obtain ⟨rfl, rfl⟩ : quote = none ∧ depth = 0 := isOpen_iff.1 h
  simp [step]

theorem step_blank {s : Scan} (h : s.IsValid) {c : Char} (hc : Text.isBlank c = true) : s.step c = s.afterGap := by
  refine step_inert h fun hmem => ?_
  have hall : ∀ d ∈ [',', '"', '\'', '(', ')', '[', ']', '\\', '@'], Text.isBlank d = false :=
    List.all_iff_forall_prop.1 (by decide)
  rw [hall c hmem] at hc
  cases hc

/-- Blanks may end an escape, and change nothing else. -/
theorem after_blanks {s : Scan} (h : s.IsValid) {w : List Char} (hw : ∀ c ∈ w, Text.isBlank c = true) :
    s.after w = s ∨ s.after w = s.afterGap := by
  induction w generalizing s with
  | nil => exact .inl rfl
  | cons c w ih =>
    rw [after_cons, step_blank h (hw c List.mem_cons_self)]
    rcases ih h.afterGap fun d hd => hw d (List.mem_cons_of_mem c hd) with hs | hs
    · exact .inr hs
    · exact .inr (hs.trans s.afterGap_afterGap)

theorem isValid_start : ({} : Scan).IsValid := by simp [IsValid]

theorem after_start_blanks {w : List Char} (hw : ∀ c ∈ w, Text.isBlank c = true) : after {} w = {} := by
  rcases after_blanks isValid_start hw with h | h
  · exact h
  · exact h

theorem afterGap_eq_start_iff {s : Scan} : s.afterGap = {} ↔ s = {} := by
  obtain ⟨depth, quote, escaped⟩ := s
  cases quote <;> simp [afterGap]

/-- Blanks at the ends of a text do not decide whether the scan is as at the start. -/
theorem after_trim {text : List Char} (h : after {} text = {}) : after {} (Text.trim text) = {} := by
  obtain ⟨w, v, htext, hw, hv⟩ := Text.exists_trim text
  rw [htext, after_append, after_append, after_start_blanks hw] at h
  rcases after_blanks (isValid_start.after (Text.trim text)) hv with hs | hs
  · exact hs.symm.trans h
  · exact afterGap_eq_start_iff.1 (hs.symm.trans h)

end Scan

/-! ### Segments by position -/

/-- Where the separating commas stand. -/
def separators (s : Scan) (group : List Char) : List Nat :=
  (List.range group.length).filter fun i => decide (group[i]? = some ',') && (s.after (group.take i)).isOpen

/-- What stands between given places of a text, counted from a first place on, without the characters at these. -/
def slices (text : List Char) (start : Nat) : List Nat → List (List Char)
  | [] => [text.drop start]
  | i :: is => (text.take i).drop start :: slices text (i + 1) is

theorem separators_cons (s : Scan) (c : Char) (rest : List Char) :
    separators s (c :: rest) =
      (if c = ',' ∧ s.isOpen then [0] else []) ++ (separators (s.step c) rest).map (· + 1) := by
  have hrest : (List.range rest.length).filter
      ((fun i => decide ((c :: rest)[i]? = some ',') && (s.after ((c :: rest).take i)).isOpen) ∘ Nat.succ) =
      separators (s.step c) rest :=
    List.filter_congr fun i _ => by simp
  rw [separators, List.length_cons, List.range_succ_eq_map, List.filter_cons, List.filter_map, hrest]
  by_cases h : c = ',' ∧ s.isOpen
  · simp [h]
  · have hno : (decide (c = ',') && s.isOpen) = false := by simpa using h
    simp [h, hno]

theorem slices_cons_succ (c : Char) (text : List Char) (start : Nat) (is : List Nat) :
    slices (c :: text) (start + 1) (is.map (· + 1)) = slices text start is := by
  induction is generalizing start with
  | nil => rfl
  | cons i is ih => simp [slices, ih]

theorem slices_cons_zero (c : Char) (text : List Char) (is : List Nat) :
    slices (c :: text) 0 (is.map (· + 1)) = (slices text 0 is).modifyHead (c :: ·) := by
  cases is with
  | nil => rfl
  | cons i is => simp [slices, slices_cons_succ]

/-- The segments are the slices between the separating commas. -/
theorem segments_eq_slices (s : Scan) (group : List Char) : segments s group = slices group 0 (separators s group) := by
  induction group generalizing s with
  | nil => rfl
  | cons c rest ih =>
    rw [separators_cons]
    split
    · rename_i h
      rw [segments, if_pos h, ih, h.1, Scan.step_comma h.2, List.singleton_append, slices, slices_cons_succ]
      rfl
    · rename_i h
      rw [segments_cons h, ih, List.nil_append, slices_cons_zero]

/-! ### Cutting at a comma -/

theorem segments_comma {s : Scan} (h : s.isOpen = true) (rest : List Char) :
    segments s (',' :: rest) = [] :: segments s rest := by
  rw [segments, if_pos ⟨rfl, h⟩]

/-- A comma group is cut where it may be cut, and what follows is cut by itself. -/
theorem segments_append {s : Scan} {a : List Char} (h : (s.after a).isOpen = true) (b : List Char) :
    segments s (a ++ ',' :: b) = segments s a ++ segments (s.after a) b := by
  induction a generalizing s with
  | nil => exact segments_comma h b
  | cons c a ih =>
    rw [Scan.after_cons] at h
    rw [List.cons_append, Scan.after_cons]
    by_cases hc : c = ',' ∧ s.isOpen = true
    · obtain ⟨rfl, hopen⟩ := hc
      rw [Scan.step_comma hopen] at h ⊢
      rw [segments_comma hopen, segments_comma hopen, ih h, List.cons_append]
    · rw [segments_cons hc, segments_cons hc, ih h]
      obtain ⟨first, more, hfirst⟩ := List.exists_cons_of_ne_nil (segments_ne_nil (s.step c) a)
      rw [hfirst]
      rfl

theorem splitGroup_append {a : List Char} (h : (Scan.after {} a).isOpen = true) (b : List Char) :
    splitGroup (a ++ ',' :: b) = splitGroup a ++ splitGroup b := by
  rw [splitGroup, segments_append h, Scan.after_start_of_isOpen h, List.map_append, List.filter_append]
  rfl

/-- No comma in the text separates. -/
def IsWhole (s : Scan) (text : List Char) : Prop := ∀ a b, text = a ++ ',' :: b → (s.after a).isOpen = false

theorem IsWhole.cons {s : Scan} {c : Char} {text : List Char} (hc : ¬(c = ',' ∧ s.isOpen = true))
    (h : IsWhole (s.step c) text) : IsWhole s (c :: text) := by
  intro a b hab
  cases a with
  | nil =>
    obtain ⟨rfl, -⟩ := List.cons.inj hab
    exact Bool.eq_false_iff.2 fun hopen => hc ⟨rfl, hopen⟩
  | cons d a =>
    obtain ⟨rfl, hrest⟩ := List.cons.inj hab
    exact h a b hrest

/-- A text is whole, or its first separating comma divides it. -/
theorem isWhole_or_exists (s : Scan) (text : List Char) :
    IsWhole s text ∨ ∃ a b, text = a ++ ',' :: b ∧ IsWhole s a ∧ (s.after a).isOpen = true := by
  have hnil : ∀ s, IsWhole s [] := fun s a b hab => by simp at hab
  induction text generalizing s with
  | nil => exact .inl (hnil s)
  | cons c text ih =>
    by_cases hc : c = ',' ∧ s.isOpen = true
    · exact .inr ⟨[], text, by rw [hc.1]; rfl, hnil s, hc.2⟩
    · rcases ih (s.step c) with h | ⟨a, b, rfl, ha, hopen⟩
      · exact .inl (h.cons hc)
      · exact .inr ⟨c :: a, b, rfl, ha.cons hc, hopen⟩

/-- Comma groups part by part: a property of whole texts that passes from a group to the group with one more part in
front holds of all groups. -/
theorem induction_parts {motive : List Char → Prop} (whole : ∀ a, IsWhole {} a → motive a)
    (cons : ∀ a b, IsWhole {} a → Scan.after {} a = {} → motive b → motive (a ++ ',' :: b)) (group : List Char) :
    motive group := by
  induction h : group.length using Nat.strong_induction_on generalizing group with
  | _ n ih =>
    subst h
    rcases isWhole_or_exists {} group with hwhole | ⟨a, b, rfl, ha, hopen⟩
    · exact whole group hwhole
    · exact cons a b ha (Scan.after_start_of_isOpen hopen) (ih b.length (by simp; omega) b rfl)

/-! ### Parts -/

namespace IsWhole

variable {text : List Char}

theorem segments_eq {s : Scan} (h : IsWhole s text) : segments s text = [text] := by
  induction text generalizing s with
  | nil => rfl
  | cons c text ih =>
    have hc : ¬(c = ',' ∧ s.isOpen = true) := by
      rintro ⟨rfl, hopen⟩
      exact Bool.eq_false_iff.1 (h [] text rfl) hopen
    rw [segments_cons hc, ih fun a b hab => h (c :: a) b (by rw [hab]; rfl)]
    rfl

theorem splitGroup_eq (h : IsWhole {} text) : splitGroup text = [Text.trim text].filter (· ≠ []) := by
  rw [splitGroup, h.segments_eq]
  rfl

theorem trim (h : IsWhole {} text) : IsWhole {} (Text.trim text) := by
  intro a b hab
  obtain ⟨w, v, htext, hw, -⟩ := Text.exists_trim text
  have hcut := h (w ++ a) (b ++ v) (by rw [htext, hab]; simp)
  rwa [Scan.after_append, Scan.after_start_blanks hw] at hcut

/-- A whole text is split into nothing if it is blank, and else into itself trimmed. -/
theorem splitGroup_cases (h : IsWhole {} text) :
    splitGroup text = [] ∨ splitGroup text = [Text.trim text] ∧ splitGroup (Text.trim text) = [Text.trim text] := by
  rw [h.splitGroup_eq, h.trim.splitGroup_eq, (Text.isTrimmed_trim text).trim_eq]
  by_cases hblank : Text.trim text = [] <;> simp [hblank]

end IsWhole

/-- Splitting a part again gives just that part. -/
theorem splitGroup_of_mem {group s : List Char} (hs : s ∈ splitGroup group) : splitGroup s = [s] := by
  have hwhole : ∀ a, IsWhole {} a → s ∈ splitGroup a → splitGroup s = [s] := by
    intro a ha hs
    rcases ha.splitGroup_cases with h | ⟨h, htrim⟩
    · rw [h] at hs
      cases hs
    · rw [h, List.mem_singleton] at hs
      rw [hs, htrim]
  induction group using induction_parts with
  | whole a ha => exact hwhole a ha hs
  | cons a b ha hafter ih =>
    rw [splitGroup_append (by rw [hafter]; rfl), List.mem_append] at hs
    rcases hs with hs | hs
    · exact hwhole a ha hs
    · exact ih hs

/-- Parts joined with commas are split into the same parts. -/
theorem splitGroup_intercalate (group : List Char) :
    splitGroup ([','].intercalate (splitGroup group)) = splitGroup group := by
  induction group using induction_parts with
  | whole a ha =>
    rcases ha.splitGroup_cases with h | ⟨h, htrim⟩
    · rw [h]
      rfl
    · rw [h, List.intercalate_singleton, htrim]
  | cons a b ha hafter ih =>
    rw [splitGroup_append (by rw [hafter]; rfl)]
    rcases ha.splitGroup_cases with h | ⟨h, htrim⟩
    · rw [h, List.nil_append, ih]
    · rw [h]
      cases hb : splitGroup b with
      | nil => rw [List.append_nil, List.intercalate_singleton, htrim]
      | cons u us =>
        -- the scan is as at the start behind the first part, also after trimming
        have hopen : (Scan.after {} (Text.trim a)).isOpen = true := by rw [Scan.after_trim hafter]; rfl
        have hjoin : [','].intercalate ([Text.trim a] ++ u :: us) =
            Text.trim a ++ ',' :: [','].intercalate (u :: us) := by simp
        rw [hjoin, splitGroup_append hopen, htrim, ← hb, ih]

/-- A comma group is split into what stands between its separating commas, these being the ones that the scan meets
outside brackets and quotes, trimmed and without blank parts.  So the parts are trimmed and not empty, and each is split
into itself; where the scan of a group ends outside brackets and quotes, another group may be joined to it by a comma;
and joining the parts by commas keeps them.  Nothing of this asks for brackets and quotes to be closed. -/
theorem splitGroup_stable (group : List Char) :
    splitGroup group = ((slices group 0 (separators {} group)).map Text.trim).filter (· ≠ []) ∧
    (∀ i, i ∈ separators {} group ↔
      group[i]? = some ',' ∧ (Scan.after {} (group.take i)).quote = none ∧ (Scan.after {} (group.take i)).depth = 0) ∧
    (separators {} group).Pairwise (· < ·) ∧
    (∀ s ∈ splitGroup group, s ≠ [] ∧ Text.trim s = s ∧ splitGroup s = [s]) ∧
    ((Scan.after {} group).quote = none → (Scan.after {} group).depth = 0 →
      ∀ more, splitGroup (group ++ ',' :: more) = splitGroup group ++ splitGroup more) ∧
    splitGroup ([','].intercalate (splitGroup group)) = splitGroup group := by
  refine ⟨?_, ?_, ?_, ?_, ?_, splitGroup_intercalate group⟩
  · rw [splitGroup, segments_eq_slices]
  · intro i
    rw [separators, List.mem_filter, List.mem_range, Bool.and_eq_true, decide_eq_true_eq, Scan.isOpen_iff]
    refine ⟨fun h => h.2, fun h => ⟨?_, h⟩⟩
    exact (List.getElem?_eq_some_iff.1 h.1).1
  · exact List.pairwise_lt_range.filter _
  · intro s hs
    have hne : s ≠ [] := by simpa using (List.mem_filter.1 hs).2
    exact ⟨hne, (isTrimmed_of_mem_splitGroup hs).trim_eq, splitGroup_of_mem hs⟩
  · intro hquote hdepth more
    exact splitGroup_append (Scan.isOpen_iff.2 ⟨hquote, hdepth⟩) more

/-- A group that closes more than it opens, and one that leaves brackets and quotes open. -/
theorem splitGroup_stable_unbalanced :
    let closed := "a), :is(b, c) ,".toList
    let unclosed := " d[e=\"f\\\", g, h".toList
    (Scan.after {} closed).quote = none ∧ (Scan.after {} closed).depth = 0 ∧
      splitGroup (closed ++ ',' :: unclosed) = ["a)", ":is(b, c)", "d[e=\"f\\\", g, h"].map String.toList ∧
      splitGroup "d[e=\"f\\\", g, h".toList = ["d[e=\"f\\\", g, h".toList] := by
  intro closed unclosed
  have hquote : (Scan.after {} closed).quote = none := by decide
  have hdepth : (Scan.after {} closed).depth = 0 := by decide
  have hclosed : splitGroup closed = ["a)", ":is(b, c)"].map String.toList := by decide
  have hunclosed : splitGroup unclosed = ["d[e=\"f\\\", g, h".toList] := by decide
  obtain ⟨-, -, -, -, hjoin, -⟩ := splitGroup_stable closed
  obtain ⟨-, -, -, hparts, -⟩ := splitGroup_stable unclosed
  refine ⟨hquote, hdepth, ?_, (hparts _ (by rw [hunclosed]; exact List.mem_singleton_self _)).2.2⟩
  rw [hjoin hquote hdepth, hclosed, hunclosed]
  rfl

end Theming.Selector
