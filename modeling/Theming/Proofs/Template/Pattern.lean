import Mathlib.Data.List.Basic
import Theming.Proofs.Text.Blank
import Theming.Rule

/-!
# Texts with gaps

The texts of rules are plain but for some places that the class prefix fills.  Such a text is a pattern, and with the
placeholder in its gaps it is a template.
-/

namespace Theming

/-- A text in which every `none` is a gap. -/
abbrev Pattern := List (Option Char)

namespace Pattern

/-- The pattern with the same text in all of its gaps. -/
def fill (gap : List Char) (t : Pattern) : List Char := t.flatMap fun c => c.elim gap ([·])

@[simp] theorem fill_nil (gap : List Char) : fill gap [] = [] := rfl

@[simp] theorem fill_none_cons (gap : List Char) (t : Pattern) : fill gap (none :: t) = gap ++ fill gap t := rfl

@[simp] theorem fill_some_cons (gap : List Char) (c : Char) (t : Pattern) :
    fill gap (some c :: t) = c :: fill gap t := rfl

@[simp] theorem fill_append (gap : List Char) (t u : Pattern) : fill gap (t ++ u) = fill gap t ++ fill gap u :=
  List.flatMap_append

@[simp] theorem fill_map_some (gap s : List Char) : fill gap (s.map some) = s := by
  induction s with
  | nil => rfl
  | cons c s ih => rw [List.map_cons, fill_some_cons, ih]

theorem infix_fill {gap : List Char} {t : Pattern} (h : none ∈ t) : gap <:+: t.fill gap := by
  obtain ⟨a, b, rfl⟩ := List.append_of_mem h
  exact ⟨a.flatMap fun c => c.elim gap ([·]), fill gap b, by simp [fill]⟩

/-- The first gap divides a pattern. -/
theorem exists_lead (t : Pattern) : ∃ s : List Char, t = s.map some ∨ ∃ u, t = s.map some ++ none :: u := by
  induction t with
  | nil => exact ⟨[], .inl rfl⟩
  | cons c t ih =>
    cases c with
    | none => exact ⟨[], .inr ⟨t, rfl⟩⟩
    | some c =>
      obtain ⟨s, h | ⟨u, h⟩⟩ := ih
      · exact ⟨c :: s, .inl (by rw [h, List.map_cons])⟩
      · exact ⟨c :: s, .inr ⟨u, by rw [h, List.map_cons, List.cons_append]⟩⟩

end Pattern

/-! ### The end of a template -/

namespace Pattern

/-- What fills a gap ends in no line break and is not empty. -/
def EndsSolid (gap : List Char) : Prop := ∃ c, gap.getLast? = some c ∧ c ≠ '\n' ∧ c ≠ '\r'

/-- The pattern without this character at its end. -/
private def dropEnd (c : Char) (t : Pattern) : Pattern := if t.getLast? = some (some c) then t.dropLast else t

/-- The pattern without a line break at its end. -/
def dropLastBreak (t : Pattern) : Pattern := dropEnd '\r' (dropEnd '\n' t)

private theorem mem_of_mem_dropEnd {c : Char} {t : Pattern} {d : Option Char} (h : d ∈ dropEnd c t) : d ∈ t := by
  unfold dropEnd at h
  split at h
  · exact t.dropLast_sublist.subset h
  · exact h

theorem mem_of_mem_dropLastBreak {t : Pattern} {d : Option Char} (h : d ∈ t.dropLastBreak) : d ∈ t :=
  mem_of_mem_dropEnd (mem_of_mem_dropEnd h)

theorem dropLastBreak_eq_self {t : Pattern} (hn : t.getLast? ≠ some (some '\n'))
    (hr : t.getLast? ≠ some (some '\r')) : t.dropLastBreak = t := by
  simp [dropLastBreak, dropEnd, hn, hr]

private theorem getLast?_fill_eq_iff {gap : List Char} {d : Char} (hgap : ∃ c, gap.getLast? = some c ∧ c ≠ d)
    (t : Pattern) : (t.fill gap).getLast? = some d ↔ t.getLast? = some (some d) := by
  obtain ⟨c, hc, hcd⟩ := hgap
  rcases t.eq_nil_or_concat with rfl | ⟨u, d' | d', rfl⟩
  · simp
  · simp [List.getLast?_append, hc, hcd]
  · simp

private theorem fill_dropEnd {gap : List Char} {d : Char} (hgap : ∃ c, gap.getLast? = some c ∧ c ≠ d)
    (t : Pattern) :
    (dropEnd d t).fill gap = if (t.fill gap).getLast? = some d then (t.fill gap).dropLast else t.fill gap := by
  simp only [getLast?_fill_eq_iff hgap, dropEnd]
  split
  · rename_i h
    obtain ⟨u, rfl⟩ := List.getLast?_eq_some_iff.1 h
    simp
  · rfl

theorem fill_dropLastBreak {gap : List Char} (hgap : EndsSolid gap) (t : Pattern) :
    t.dropLastBreak.fill gap = Text.dropLastBreak (t.fill gap) := by
  obtain ⟨c, hc, hn, hr⟩ := hgap
  rw [dropLastBreak, fill_dropEnd ⟨c, hc, hr⟩, fill_dropEnd ⟨c, hc, hn⟩]
  rfl

theorem dropLastBreak_of_getLast? {gap : List Char} (hgap : EndsSolid gap) {t : Pattern}
    (hn : (t.fill gap).getLast? ≠ some '\n') (hr : (t.fill gap).getLast? ≠ some '\r') : t.dropLastBreak = t := by
  obtain ⟨c, hc, hcn, hcr⟩ := hgap
  exact dropLastBreak_eq_self (mt (getLast?_fill_eq_iff ⟨c, hc, hcn⟩ t).2 hn)
    (mt (getLast?_fill_eq_iff ⟨c, hc, hcr⟩ t).2 hr)

theorem dropLastBreak_of_isTrimmed {gap : List Char} (hgap : EndsSolid gap) {t : Pattern}
    (h : Text.IsTrimmed (t.fill gap)) : t.dropLastBreak = t :=
  dropLastBreak_of_getLast? hgap (fun hlast => absurd (h.last '\n' hlast) (by decide))
    fun hlast => absurd (h.last '\r' hlast) (by decide)

theorem isTrimmed_placeholder : Text.IsTrimmed Rule.placeholder.toList := Text.isTrimmed_iff.2 (by decide)

theorem endsSolid_placeholder : EndsSolid Rule.placeholder.toList := ⟨'\x7d', rfl, by decide, by decide⟩

end Pattern

end Theming
