import Mathlib.Data.List.TakeWhile
import Theming.Rule.Compile

/-!
# Trimmed texts and lines

What is trimmed starts and ends in no blank, and blanks at the end of a text change neither the text trimmed nor its
trimmed lines.
-/

namespace Theming.Text

/-! ### Trimming -/

theorem mem_of_mem_trim {c : Char} {s : List Char} (h : c ∈ trim s) : c ∈ s := by
  have hend : c ∈ (trimStart s).reverse := (List.dropWhile_sublist _).subset (List.mem_reverse.1 h)
  exact (List.dropWhile_sublist _).subset (List.mem_reverse.1 hend)

/-- The text neither starts nor ends in a blank. -/
structure IsTrimmed (s : List Char) : Prop where
  head : ∀ c ∈ s.head?, isBlank c = false
  last : ∀ c ∈ s.getLast?, isBlank c = false

theorem dropWhile_eq_self {s : List Char} (h : ∀ c ∈ s.head?, isBlank c = false) : s.dropWhile isBlank = s := by
  cases s with
  | nil => rfl
  | cons c s => simp [h c rfl]

theorem isBlank_head_dropWhile (s : List Char) : ∀ c ∈ (s.dropWhile isBlank).head?, isBlank c = false := by
  intro c hc
  have h := List.head?_dropWhile_not isBlank s
  rw [Option.mem_def.1 hc] at h
  exact h

theorem IsTrimmed.trim_eq {s : List Char} (h : IsTrimmed s) : trim s = s := by
  have hlast : ∀ c ∈ s.reverse.head?, isBlank c = false := by simpa using h.last
  rw [trim, trimStart, dropWhile_eq_self h.head, trimEnd, dropWhile_eq_self hlast, List.reverse_reverse]

theorem trimEnd_prefix (s : List Char) : trimEnd s <+: s := by
  have h := List.dropWhile_suffix isBlank (l := s.reverse)
  rw [trimEnd]
  exact List.reverse_suffix.1 (by rwa [List.reverse_reverse])

theorem isTrimmed_trim (s : List Char) : IsTrimmed (trim s) where
  head := by
    intro c hc
    have hstart := isBlank_head_dropWhile s
    -- what is dropped at the end leaves the start as it is
    obtain ⟨w, hw⟩ : trim s <+: trimStart s := trimEnd_prefix (trimStart s)
    apply hstart
    rw [trimStart] at hw
    rw [← hw, Option.mem_def, List.head?_append, Option.mem_def.1 hc]
    rfl
  last := by
    intro c hc
    have h := isBlank_head_dropWhile (trimStart s).reverse
    apply h
    rw [trim, trimEnd] at hc
    simpa using hc

theorem isTrimmed_iff {s : List Char} : IsTrimmed s ↔ trim s = s :=
  ⟨IsTrimmed.trim_eq, fun h => h ▸ isTrimmed_trim s⟩

theorem trim_append_blanks (s : List Char) {w : List Char} (hw : ∀ c ∈ w, isBlank c = true) :
    trim (s ++ w) = trim s := by
  have hdrop : w.dropWhile isBlank = [] := List.dropWhile_eq_nil_iff.2 hw
  have hdrop' : w.reverse.dropWhile isBlank = [] :=
    List.dropWhile_eq_nil_iff.2 fun c hc => hw c (List.mem_reverse.1 hc)
  have hend : ∀ u : List Char, trimEnd (u ++ w) = trimEnd u := by
    intro u
    rw [trimEnd, trimEnd, List.reverse_append, List.dropWhile_append, hdrop']
    rfl
  rw [trim, trim, trimStart, List.dropWhile_append]
  split
  · rename_i h
    rw [hdrop, trimStart, List.isEmpty_iff.1 h]
  · exact hend _

theorem trim_blanks {w : List Char} (hw : ∀ c ∈ w, isBlank c = true) : trim w = [] := trim_append_blanks [] hw

/-- Trimming leaves out blanks at both ends. -/
theorem exists_trim (s : List Char) :
    ∃ w v, s = w ++ trim s ++ v ∧ (∀ c ∈ w, isBlank c = true) ∧ ∀ c ∈ v, isBlank c = true := by
  have htake : ∀ u : List Char, ∀ c ∈ u.takeWhile isBlank, isBlank c = true := fun u c hc => List.mem_takeWhile_imp hc
  refine ⟨s.takeWhile isBlank, ((trimStart s).reverse.takeWhile isBlank).reverse, ?_, htake s, ?_⟩
  · have hend : trimStart s = trim s ++ ((trimStart s).reverse.takeWhile isBlank).reverse := by
      rw [trim, trimEnd, ← List.reverse_append, List.takeWhile_append_dropWhile, List.reverse_reverse]
    rw [List.append_assoc, ← hend, trimStart, List.takeWhile_append_dropWhile]
  · intro c hc
    exact htake _ c (List.mem_reverse.1 hc)

/-! ### Parts -/

theorem contains_iff_infix {pattern s : List Char} : contains pattern s = true ↔ pattern <:+: s := by
  induction s with
  | nil => simp [contains]
  | cons c s ih => rw [contains, Bool.or_eq_true, ih, List.isPrefixOf_iff_prefix, List.infix_cons_iff]

/-- What lacks a character lies on one side of it. -/
theorem infix_or_infix_of_append_cons {pattern a b : List Char} {c : Char} (hc : c ∉ pattern)
    (h : pattern <:+: a ++ c :: b) : pattern <:+: a ∨ pattern <:+: b := by
  obtain ⟨before, after, h⟩ := h
  rcases List.append_eq_append_iff.1 h with ⟨m, rfl, -⟩ | ⟨m, hm, hrest⟩
  · exact .inl ⟨before, m, rfl⟩
  · cases m with
    | nil =>
      rw [List.append_nil] at hm
      exact .inl ⟨before, [], by rw [hm, List.append_nil]⟩
    | cons d m =>
      obtain ⟨rfl, rfl⟩ := List.cons.inj hrest
      -- the character stands behind the start of the pattern, so before all of it
      rcases List.append_eq_append_iff.1 hm with ⟨n, -, hn⟩ | ⟨n, -, hn⟩
      · exact absurd (by rw [hn]; simp) hc
      · cases n with
        | nil => exact absurd (by rw [← List.nil_append pattern, ← hn]; simp) hc
        | cons d n =>
          obtain ⟨rfl, rfl⟩ := List.cons.inj hn
          exact .inr ⟨n, after, rfl⟩

/-! ### Lines -/

theorem lines_eq_nil_iff {s : List Char} : lines s = [] ↔ s = [] := by
  refine ⟨fun h => ?_, fun h => h ▸ rfl⟩
  fun_cases lines s <;> simp_all [lines]

/-- The first line of a text that is not empty, and the lines after it. -/
theorem lines_eq_cons {s : List Char} (hs : s ≠ []) :
    ∃ first, lines s = first :: lines (s.dropWhile (· ≠ '\n')).tail ∧
      (s.takeWhile (· ≠ '\n') = first ∨ s.takeWhile (· ≠ '\n') = first ++ ['\r']) := by
  fun_induction lines s with
  | case1 => exact absurd rfl hs
  | case2 rest => exact ⟨[], by simp, by simp⟩
  | case3 rest => exact ⟨[], by simp, by simp⟩
  | case4 c rest hn hr h =>
    obtain rfl := lines_eq_nil_iff.1 h
    have hc : c ≠ '\n' := hn
    exact ⟨[c], by simp [hc, lines], by simp [hc]⟩
  | case5 c rest hn hr line more h ih =>
    have hc : c ≠ '\n' := hn
    have hrest : rest ≠ [] := by
      rintro rfl
      simp [lines] at h
    obtain ⟨first, hlines, hfirst⟩ := ih hrest
    rw [h, List.cons.injEq] at hlines
    obtain ⟨rfl, hmore⟩ := hlines
    refine ⟨c :: line, by simp [hc, hmore], ?_⟩
    simpa [hc] using hfirst

/-- A line without breaks is read back as it is. -/
theorem lines_append_line {l : List Char} (hl : '\n' ∉ l) (hr : '\r' ∉ l) (rest : List Char) :
    lines (l ++ '\n' :: rest) = l :: lines rest := by
  induction l with
  | nil => rfl
  | cons c l ih =>
    rw [List.mem_cons, not_or] at hl hr
    have hc : c ≠ '\n' := Ne.symm hl.1
    have hc' : c ≠ '\r' := Ne.symm hr.1
    simp [lines, hc', ih hl.2 hr.2]

/-- A line is made of characters of its text, and none of them is a line feed. -/
theorem mem_of_mem_lines {s line : List Char} (h : line ∈ lines s) {c : Char} (hc : c ∈ line) : c ∈ s ∧ c ≠ '\n' := by
  fun_induction lines s generalizing line with
  | case1 => cases h
  | case2 rest ih =>
    rcases List.mem_cons.1 h with rfl | h
    · cases hc
    · exact (ih h hc).imp_left (List.mem_cons_of_mem _)
  | case3 rest ih =>
    rcases List.mem_cons.1 h with rfl | h
    · cases hc
    · exact (ih h hc).imp_left fun hmem => List.mem_cons_of_mem _ (List.mem_cons_of_mem _ hmem)
  | case4 d rest hd hd' hrest ih =>
    obtain rfl := List.mem_singleton.1 h
    obtain rfl := List.mem_singleton.1 hc
    exact ⟨List.mem_cons_self, hd⟩
  | case5 d rest hd hd' first more hrest ih =>
    rw [hrest] at ih
    rcases List.mem_cons.1 h with rfl | h
    · rcases List.mem_cons.1 hc with rfl | hc
      · exact ⟨List.mem_cons_self, hd⟩
      · exact (ih List.mem_cons_self hc).imp_left (List.mem_cons_of_mem d)
    · exact (ih (List.mem_cons_of_mem first h) hc).imp_left (List.mem_cons_of_mem d)

private theorem trimmedLines_eq (s : List Char) :
    Body.trimmedLines s = [trim (s.takeWhile (· ≠ '\n'))].filter (· ≠ []) ++
      Body.trimmedLines (s.dropWhile (· ≠ '\n')).tail := by
  by_cases hs : s = []
  · subst hs
    rfl
  · obtain ⟨first, hlines, hfirst⟩ := lines_eq_cons hs
    have htrim : trim (s.takeWhile (· ≠ '\n')) = trim first := by
      rcases hfirst with h | h
      · rw [h]
      · rw [h, trim_append_blanks first (List.all_eq_true.1 (by decide))]
    rw [htrim, Body.trimmedLines, hlines, List.map_cons, ← List.singleton_append, List.filter_append]
    rfl

/-- Trimmed lines are cut at line feeds; a carriage return is a blank like any other. -/
theorem trimmedLines_append_line {a : List Char} (ha : '\n' ∉ a) (b : List Char) :
    Body.trimmedLines (a ++ '\n' :: b) = [trim a].filter (· ≠ []) ++ Body.trimmedLines b := by
  have hall : ∀ c ∈ a, decide (c ≠ '\n') = true := fun c hc => by simpa using ne_of_mem_of_not_mem hc ha
  rw [trimmedLines_eq, List.takeWhile_append_of_pos hall, List.dropWhile_append_of_pos hall]
  simp

theorem trimmedLines_line {a : List Char} (ha : '\n' ∉ a) : Body.trimmedLines a = [trim a].filter (· ≠ []) := by
  have hall : ∀ c ∈ a, decide (c ≠ '\n') = true := fun c hc => by simpa using ne_of_mem_of_not_mem hc ha
  rw [trimmedLines_eq, List.takeWhile_eq_self_iff.2 hall, List.dropWhile_eq_nil_iff.2 hall]
  exact List.append_nil _

/-- Texts line by line: a property of texts without a line feed that passes from a text to the text with one more line
in front holds of all texts. -/
theorem induction_lines {motive : List Char → Prop} (line : ∀ a, '\n' ∉ a → motive a)
    (cons : ∀ a b, '\n' ∉ a → motive b → motive (a ++ '\n' :: b)) (s : List Char) : motive s := by
  induction h : s.length using Nat.strong_induction_on generalizing s with
  | _ n ih =>
    subst h
    by_cases hs : '\n' ∈ s
    · obtain ⟨a, b, rfl, ha⟩ := List.eq_append_cons_of_mem hs
      exact cons a b ha (ih b.length (by simp; omega) b rfl)
    · exact line s hs

theorem mem_trimmedLines {s line : List Char} (h : line ∈ Body.trimmedLines s) :
    '\n' ∉ line ∧ line ≠ [] ∧ IsTrimmed line ∧ line <:+: s := by
  have hfirst : ∀ a, '\n' ∉ a → line ∈ [trim a].filter (· ≠ []) →
      '\n' ∉ line ∧ line ≠ [] ∧ IsTrimmed line ∧ line <:+: a := by
    intro a ha hline
    rw [List.mem_filter, List.mem_singleton, decide_eq_true_eq] at hline
    obtain ⟨rfl, hne⟩ := hline
    obtain ⟨w, v, hw, -⟩ := exists_trim a
    exact ⟨fun hn => ha (mem_of_mem_trim hn), hne, isTrimmed_trim a, w, v, hw.symm⟩
  induction s using induction_lines with
  | line a ha =>
    rw [trimmedLines_line ha] at h
    exact hfirst a ha h
  | cons a b ha ih =>
    rw [trimmedLines_append_line ha] at h
    rcases List.mem_append.1 h with h | h
    · obtain ⟨hbreak, hne, htrimmed, hinfix⟩ := hfirst a ha h
      exact ⟨hbreak, hne, htrimmed, hinfix.trans (List.prefix_append a _).isInfix⟩
    · obtain ⟨hbreak, hne, htrimmed, hinfix⟩ := ih h
      exact ⟨hbreak, hne, htrimmed, hinfix.trans ⟨a ++ ['\n'], [], by simp⟩⟩

/-- Trimmed lines that are put together with line feeds are cut apart again. -/
theorem trimmedLines_intercalate {ls : List (List Char)} (h : ∀ l ∈ ls, '\n' ∉ l ∧ l ≠ [] ∧ IsTrimmed l) :
    Body.trimmedLines (['\n'].intercalate ls) = ls := by
  have hkeep : ∀ l ∈ ls, [trim l].filter (· ≠ []) = [l] := by
    intro l hl
    obtain ⟨-, hne, htrimmed⟩ := h l hl
    simp [htrimmed.trim_eq, hne]
  induction ls with
  | nil => rfl
  | cons l ls ih =>
    have hl := hkeep l List.mem_cons_self
    have hbreak := (h l List.mem_cons_self).1
    cases ls with
    | nil => rw [List.intercalate_singleton, trimmedLines_line hbreak, hl]
    | cons m ls =>
      have hjoin : ['\n'].intercalate (l :: m :: ls) = l ++ '\n' :: ['\n'].intercalate (m :: ls) := by simp
      rw [hjoin, trimmedLines_append_line hbreak, hl,
        ih (fun k hk => h k (List.mem_cons_of_mem l hk)) fun k hk => hkeep k (List.mem_cons_of_mem l hk)]
      rfl

theorem trimmedLines_blanks {w : List Char} (hw : ∀ c ∈ w, isBlank c = true) : Body.trimmedLines w = [] := by
  induction w using induction_lines with
  | line a ha => rw [trimmedLines_line ha, trim_blanks hw]; rfl
  | cons a b ha ih =>
    rw [trimmedLines_append_line ha, trim_blanks fun c hc => hw c (by simp [hc]), ih fun c hc => hw c (by simp [hc])]
    rfl

theorem trimmedLines_append_blanks (s : List Char) {w : List Char} (hw : ∀ c ∈ w, isBlank c = true) :
    Body.trimmedLines (s ++ w) = Body.trimmedLines s := by
  induction s using induction_lines with
  | cons a b ha ih =>
    rw [List.append_assoc, List.cons_append, trimmedLines_append_line ha, trimmedLines_append_line ha, ih]
  | line a ha =>
    -- the blanks go on with the line up to their first line feed, and have no more lines after it
    rw [trimmedLines_line ha]
    by_cases hn : '\n' ∈ w
    · obtain ⟨v, u, rfl, hv⟩ := List.eq_append_cons_of_mem hn
      rw [← List.append_assoc, trimmedLines_append_line (by simp [ha, hv]),
        trim_append_blanks a fun c hc => hw c (by simp [hc]), trimmedLines_blanks fun c hc => hw c (by simp [hc]),
        List.append_nil]
    · rw [trimmedLines_line (by simp [ha, hn]), trim_append_blanks a hw]

theorem trimmedLines_dropLastBreak (s : List Char) :
    Body.trimmedLines (dropLastBreak s) = Body.trimmedLines s := by
  have hdrop : ∀ (c : Char) (s : List Char), isBlank c = true →
      Body.trimmedLines (if s.getLast? = some c then s.dropLast else s) = Body.trimmedLines s := by
    intro c s hc
    split
    · rename_i h
      obtain ⟨u, rfl⟩ := List.getLast?_eq_some_iff.1 h
      rw [List.dropLast_concat, trimmedLines_append_blanks u (by simpa using hc)]
    · rfl
  exact (hdrop '\r' _ (by decide)).trans (hdrop '\n' s (by decide))

end Theming.Text
