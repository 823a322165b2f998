import Mathlib.Data.List.Infix
import Theming.Proofs.Registry.MountOnce

/-!
# The sheets of the head as tags

The tags of the head are put together without escaping, so an id or a style sheet with the marks of tags in it can pass
for several sheets.  Exactly where no sheet of the head has such marks, a reader that looks for them gets the sheets
back; two such registries with the same text have the same sheets in the head (`headText_unambiguous`).
-/

namespace Theming

open Template (partialEngine)

/-! ### The first place of a text in another -/

namespace Text

/-- What stands before the first place of `pattern` in a text, and what follows it there. -/
def cut? (pattern : List Char) : List Char → Option (List Char × List Char)
  | [] => none
  | c :: s =>
    if pattern.isPrefixOf (c :: s) then some ([], (c :: s).drop pattern.length)
    else (cut? pattern s).map fun (before, after) => (c :: before, after)

/-- The text is not empty, and nothing but itself is both at its start and at its end: no two places of it overlap. -/
structure IsUnbordered (pattern : List Char) : Prop where
  ne_nil : pattern ≠ []
  border : ∀ s, s <:+ pattern → s <+: pattern → s = [] ∨ s = pattern

instance decidableIsUnbordered (pattern : List Char) : Decidable (IsUnbordered pattern) :=
  decidable_of_iff (pattern ≠ [] ∧ ∀ s ∈ pattern.tails, s <+: pattern → s = [] ∨ s = pattern) <| by
    simp only [List.mem_tails]
    exact ⟨fun h => ⟨h.1, h.2⟩, fun h => ⟨h.ne_nil, h.border⟩⟩

section Cut

variable {pattern : List Char}

/-- A place of the pattern is not at the start of a text in front of it in which it has no place. -/
theorem IsUnbordered.not_prefix (hp : IsUnbordered pattern) {before : List Char} (hne : before ≠ [])
    (hbefore : ¬pattern <:+: before) (after : List Char) : ¬pattern <+: before ++ (pattern ++ after) := by
  rintro ⟨rest, h⟩
  rcases List.append_eq_append_iff.1 h with ⟨m, rfl, -⟩ | ⟨m, hm, hrest⟩
  · exact hbefore (List.prefix_append pattern m).isInfix
  · -- else the place reaches over the end of that text, and what it has behind it is a border
    have hsuffix : m <:+ pattern := ⟨before, hm.symm⟩
    have hfirst : m <+: pattern :=
      List.prefix_of_prefix_length_le ⟨rest, hrest.symm⟩ (List.prefix_append pattern after) hsuffix.length_le
    rcases hp.border m hsuffix hfirst with rfl | rfl
    · rw [List.append_nil] at hm
      exact hbefore (by rw [hm])
    · exact hne (List.append_left_eq_self.1 hm.symm)

theorem cut?_eq_some_iff (hp : IsUnbordered pattern) {s before after : List Char} :
    cut? pattern s = some (before, after) ↔ s = before ++ (pattern ++ after) ∧ ¬pattern <:+: before := by
  induction s generalizing before with
  | nil =>
    have hne : [] ≠ before ++ (pattern ++ after) := by simp [hp.ne_nil]
    simp [cut?, hne]
  | cons c s ih =>
    by_cases hstart : pattern <+: c :: s
    · rw [cut?, if_pos (List.isPrefixOf_iff_prefix.2 hstart)]
      obtain ⟨rest, hrest⟩ := hstart
      rw [← hrest, List.drop_left, Option.some.injEq, Prod.mk.injEq]
      constructor
      · rintro ⟨rfl, rfl⟩
        exact ⟨rfl, fun h => hp.ne_nil (List.infix_nil.1 h)⟩
      · rintro ⟨heq, hbefore⟩
        by_cases hne : before = []
        · subst hne
          exact ⟨rfl, List.append_cancel_left heq⟩
        · exact absurd (heq ▸ List.prefix_append pattern rest) (hp.not_prefix hne hbefore after)
    · rw [cut?, if_neg (mt List.isPrefixOf_iff_prefix.1 hstart)]
      constructor
      · intro h
        obtain ⟨⟨a, b⟩, hcut, heq⟩ := Option.map_eq_some_iff.1 h
        obtain ⟨rfl, rfl⟩ := Prod.mk.inj heq
        obtain ⟨rfl, ha⟩ := ih.1 hcut
        refine ⟨rfl, fun hinfix => ?_⟩
        rcases List.infix_cons_iff.1 hinfix with hfirst | hlater
        · exact hstart (hfirst.trans (List.prefix_append (c :: a) _))
        · exact ha hlater
      · rintro ⟨heq, hbefore⟩
        cases before with
        | nil => exact absurd ⟨after, heq.symm⟩ hstart
        | cons d a =>
          obtain ⟨rfl, rfl⟩ := List.cons.inj heq
          have ha : ¬pattern <:+: a := fun h => hbefore (h.trans (List.suffix_cons c a).isInfix)
          rw [ih.2 ⟨rfl, ha⟩]
          rfl

theorem IsUnbordered.cut?_eq (hp : IsUnbordered pattern) {before : List Char} (h : ¬pattern <:+: before)
    (after : List Char) : cut? pattern (before ++ (pattern ++ after)) = some (before, after) :=
  (cut?_eq_some_iff hp).2 ⟨rfl, h⟩

end Cut

end Text

/-! ### Tags -/

/-- What stands in front of an id. -/
def tagStart : List Char := "<style cssr-id=\"".toList

/-- What stands between an id and its style sheet. -/
def idEnd : List Char := "\">\n".toList

/-- What stands behind a style sheet. -/
def tagEnd : List Char := "</style>\n".toList

/-- What stands between a style sheet and the id after it. -/
def nextTag : List Char := tagEnd ++ tagStart

/-- An id or a style sheet that does not end early when its end is looked for. -/
structure Sheet.IsReadable (s : Sheet) : Prop where
  id : ¬idEnd <:+: s.id.toList
  css : ¬nextTag <:+: s.css.toList

instance decidableIsReadable (s : Sheet) : Decidable s.IsReadable :=
  decidable_of_iff (¬idEnd <:+: s.id.toList ∧ ¬nextTag <:+: s.css.toList)
    ⟨fun h => ⟨h.1, h.2⟩, fun h => ⟨h.id, h.css⟩⟩

def Sheet.tag (s : Sheet) : List Char :=
  tagStart ++ (s.id.toList ++ (idEnd ++ (s.css.toList ++ tagEnd)))

/-- Sheets as tags from behind the start of the first one up to the start of another one. -/
def tagsAfterStart (sheets : List Sheet) : List Char :=
  sheets.flatMap fun s => s.id.toList ++ (idEnd ++ (s.css.toList ++ nextTag))

theorem tags_append_start (sheets : List Sheet) :
    sheets.flatMap Sheet.tag ++ tagStart = tagStart ++ tagsAfterStart sheets := by
  induction sheets with
  | nil => simp [tagsAfterStart]
  | cons s sheets ih =>
    rw [List.flatMap_cons, List.append_assoc, ih]
    simp [Sheet.tag, tagsAfterStart, nextTag]

/-- Ids and style sheets up to the end of a text, the fuel bounding their number: an id goes up to the first place that
ends ids, and a style sheet from there up to the first place where a tag ends and the next one starts. -/
def readTags? : Nat → List Char → Option (List (String × String))
  | 0, _ => none
  | fuel + 1, s =>
    if s = [] then some []
    else do
      let (id, s) ← Text.cut? idEnd s
      let (css, s) ← Text.cut? nextTag s
      return (String.ofList id, String.ofList css) :: (← readTags? fuel s)

theorem isUnbordered_idEnd : Text.IsUnbordered idEnd := by decide

theorem isUnbordered_nextTag : Text.IsUnbordered nextTag := by decide

/-- The sheets are read back exactly if no id and no style sheet of theirs ends early. -/
theorem readTags?_eq_some_iff {fuel : Nat} {sheets : List Sheet} (hfuel : sheets.length < fuel) :
    readTags? fuel (tagsAfterStart sheets) = some (sheets.map fun s => (s.id, s.css)) ↔
      ∀ s ∈ sheets, s.IsReadable := by
  induction sheets generalizing fuel with
  | nil =>
    obtain ⟨f, rfl⟩ : ∃ f, fuel = f + 1 := ⟨fuel - 1, by omega⟩
    simp [readTags?, tagsAfterStart]
  | cons s sheets ih =>
    rw [List.length_cons] at hfuel
    obtain ⟨f, rfl⟩ : ∃ f, fuel = f + 1 := ⟨fuel - 1, by omega⟩
    have htext : tagsAfterStart (s :: sheets) =
        s.id.toList ++ (idEnd ++ (s.css.toList ++ (nextTag ++ tagsAfterStart sheets))) := by
      simp [tagsAfterStart]
    have hne : tagsAfterStart (s :: sheets) ≠ [] := by simp [htext, isUnbordered_idEnd.ne_nil]
    rw [readTags?, if_neg hne, List.forall_mem_cons, ← ih (Nat.lt_of_succ_lt_succ hfuel), htext, List.map_cons]
    constructor
    · intro h
      simp only [Option.bind_eq_bind, Option.bind_eq_some_iff, Option.pure_def, Option.some.injEq] at h
      obtain ⟨⟨id, afterId⟩, hid, ⟨css, afterCss⟩, hcss, more, hmore, heq⟩ := h
      obtain ⟨hsheet, rfl⟩ := List.cons.inj heq
      obtain ⟨hsid, hscss⟩ := Prod.mk.inj hsheet
      -- the first places found are the ends of this sheet's own id and text, so these marks do not come before
      obtain ⟨hid, hidEnd⟩ := (Text.cut?_eq_some_iff isUnbordered_idEnd).1 hid
      rw [← hsid, String.toList_ofList, List.append_cancel_left_eq, List.append_cancel_left_eq] at hid
      subst hid
      obtain ⟨hcss, hcssEnd⟩ := (Text.cut?_eq_some_iff isUnbordered_nextTag).1 hcss
      rw [← hscss, String.toList_ofList, List.append_cancel_left_eq, List.append_cancel_left_eq] at hcss
      subst hcss
      refine ⟨⟨?_, ?_⟩, hmore⟩
      · rwa [← hsid, String.toList_ofList]
      · rwa [← hscss, String.toList_ofList]
    · rintro ⟨⟨hid, hcss⟩, hmore⟩
      simp only [isUnbordered_idEnd.cut?_eq hid, isUnbordered_nextTag.cut?_eq hcss, hmore, Option.bind_eq_bind,
        Option.bind_some, Option.pure_def, String.ofList_toList]

namespace Registry

/-! ### The head -/

variable {r : Registry}

/-- The ids and style sheets of the head, in order. -/
def headSheets (r : Registry) : List (String × String) :=
  (r.sheets.filter Sheet.head).map fun s => (s.id, s.css)

def HasReadableHead (r : Registry) : Prop := ∀ s ∈ r.sheets.filter Sheet.head, s.IsReadable

instance decidableHasReadableHead (r : Registry) : Decidable r.HasReadableHead :=
  inferInstanceAs (Decidable (∀ s ∈ r.sheets.filter Sheet.head, s.IsReadable))

theorem toList_headText : r.headText.toList = (r.sheets.filter Sheet.head).flatMap Sheet.tag := by
  simp only [headText, String.toList_join, List.flatMap_map, String.toList_append, List.append_assoc]
  rfl

/-- The ids and style sheets that a text shows as tags.  It is read with the start of one more tag at its end, so that
the last style sheet ends like the others. -/
def readHead? (text : String) : Option (List (String × String)) :=
  let s := text.toList ++ tagStart
  if tagStart.isPrefixOf s then readTags? s.length (s.drop tagStart.length) else none

theorem length_le_flatMap_tag (sheets : List Sheet) : sheets.length ≤ (sheets.flatMap Sheet.tag).length := by
  induction sheets with
  | nil => exact Nat.le_refl 0
  | cons s sheets ih =>
    rw [List.flatMap_cons, List.length_append, List.length_cons]
    have hpos : 0 < tagStart.length := by decide
    have htag : s.tag.length = tagStart.length + _ := List.length_append
    omega

theorem readHead?_headText : readHead? r.headText = some r.headSheets ↔ r.HasReadableHead := by
  have htext : r.headText.toList ++ tagStart = tagStart ++ tagsAfterStart (r.sheets.filter Sheet.head) := by
    rw [toList_headText, tags_append_start]
  have hlen : (r.sheets.filter Sheet.head).length < (r.headText.toList ++ tagStart).length := by
    rw [toList_headText, List.length_append]
    have hpos : 0 < tagStart.length := by decide
    have hle := length_le_flatMap_tag (r.sheets.filter Sheet.head)
    omega
  simp only [readHead?]
  rw [htext] at hlen ⊢
  rw [if_pos (List.isPrefixOf_iff_prefix.2 (List.prefix_append _ _)), List.drop_left]
  exact readTags?_eq_some_iff hlen

/-- Two registries with the same text of the head have the same sheets there, in the same order, if no id of the head
has the mark that ends ids in it and no style sheet of the head the mark that stands between tags.  Under just this
condition the sheets are those that are found by looking for these marks. -/
theorem headText_unambiguous :
    (∀ r r' : Registry, r.HasReadableHead → r'.HasReadableHead → r.headText = r'.headText →
      r.headSheets = r'.headSheets) ∧
    ∀ r : Registry, readHead? r.headText = some r.headSheets ↔ r.HasReadableHead := by
  refine ⟨fun r r' hr hr' h => ?_, fun r => readHead?_headText⟩
  have hread : some r.headSheets = some r'.headSheets := by
    rw [← readHead?_headText.2 hr, ← readHead?_headText.2 hr', h]
  exact Option.some.inj hread

/-- The one sheet of the head is found among others. -/
theorem headText_unambiguous_behind_other :
    let sheet := Call.mountRule (.mk ["x"] (.raw "y: z;") []) { id := "a" }
    let r := run partialEngine {} [sheet]
    let r' := run partialEngine {} [.mountRule (.mk ["p"] .empty []) { id := "b", head := false }, sheet]
    r.HasReadableHead ∧ r'.HasReadableHead ∧ r.headSheets = r'.headSheets ∧
      readHead? r'.headText = some [("a", "x \x7b\n  y: z;\n\x7d\n")] := by
  intro sheet r r'
  have hr : r.HasReadableHead := by decide +kernel
  have hr' : r'.HasReadableHead := by decide +kernel
  exact ⟨hr, hr', headText_unambiguous.1 r r' hr hr' (by decide +kernel), (headText_unambiguous.2 r').2 hr'⟩

/-- One sheet passes for two, either by its id or by a selector. -/
theorem headText_ambiguous :
    let x : Rule := .mk ["x"] (.raw "y: z;") []
    let two := run partialEngine {} [.mountRule (.mk ["p"] .empty []) { id := "a" }, .mountRule x { id := "b" }]
    let byId := run partialEngine {} [.mountRule x { id := "a\">\n</style>\n<style cssr-id=\"b" }]
    let byCss := run partialEngine {}
      [.mountRule (.mk ["</style>\n<style cssr-id=\"b\">\nx"] (.raw "y: z;") []) { id := "a" }]
    (byId.headText = two.headText ∧ byId.headSheets ≠ two.headSheets) ∧
      byCss.headText = two.headText ∧ byCss.headSheets ≠ two.headSheets := by
  decide +kernel

end Registry

end Theming
