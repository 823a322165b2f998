import Theming.Proofs.Rules.Composition
import Theming.Proofs.Text.Blank

/-!
# Reading a style sheet by lines

Nothing counts braces when a style sheet is written: the content of an at-rule is indented as the text that it is.  The
count is taken when it is read.  A reader goes from line to line with the number of braces open so far, and is content
with a line if what it closes is open and it is indented by what stays open around it.  Indenting a text that can be
read gives a text that can be read below one more brace, so a sheet whose texts have no braces and no line breaks can be
read from end to end (`isLaidOut_writeAll`).
-/

namespace Theming.Css

/-! ### Lines below braces -/

/-- The text stays on its line and has no braces. -/
def IsInline (s : Text) : Prop := ∀ c ∈ s, c ∉ ['{', '}', '\n', '\r']

instance (s : Text) : Decidable (IsInline s) := List.decidableBAll _ s

/-- A line that is not empty starts with two spaces for each of `n` braces. -/
def IsIndented (n : Nat) (line : Text) : Prop := line = [] ∨ List.replicate (2 * n) ' ' <+: line

instance (n : Nat) (line : Text) : Decidable (IsIndented n line) := inferInstanceAs (Decidable (_ ∨ _))

/-- The braces open after a line with `depth` braces open before it, unless the line closes more of them or has too few
spaces for those that stay open around it. -/
def readLine (depth : Nat) (line : Text) : Option Nat :=
  if line.count '}' ≤ depth ∧ IsIndented (depth - line.count '}') line then
    some (depth - line.count '}' + line.count '{')
  else none

/-- The lines have no line breaks and are read from `depth` open braces to `after`. -/
structure Reads (lines : List Text) (depth after : Nat) : Prop where
  unbroken : ∀ line ∈ lines, '\n' ∉ line ∧ '\r' ∉ line
  read : lines.foldlM readLine depth = some after

/-- The text consists of lines that close what they open. -/
def IsLaidOut (s : Text) : Prop := ∃ lines, s = writeLines lines ∧ Reads lines 0 0

theorem readLine_eq_some_iff {depth after : Nat} {line : Text} :
    readLine depth line = some after ↔
      ∃ around, depth = around + line.count '}' ∧ after = around + line.count '{' ∧ IsIndented around line := by
  unfold readLine
  constructor
  · intro h
    split at h
    · rename_i hcond
      exact ⟨depth - line.count '}', by omega, (Option.some.inj h).symm, hcond.2⟩
    · cases h
  · rintro ⟨around, rfl, rfl, hindented⟩
    rw [Nat.add_sub_cancel, if_pos ⟨Nat.le_add_left _ _, hindented⟩]

theorem isIndented_zero (line : Text) : IsIndented 0 line := .inr (List.nil_prefix)

/-! ### Texts without braces -/

namespace IsInline

theorem nil : IsInline [] := by simp [IsInline]

theorem append {s t : Text} (hs : IsInline s) (ht : IsInline t) : IsInline (s ++ t) :=
  fun c hc => (List.mem_append.1 hc).elim (hs c) (ht c)

theorem cons {c : Char} {s : Text} (hc : c ∉ ['{', '}', '\n', '\r']) (hs : IsInline s) : IsInline (c :: s) :=
  List.forall_mem_cons.2 ⟨hc, hs⟩

theorem flatMap {s : List Char} {f : Char → Text} (h : ∀ c ∈ s, IsInline (f c)) : IsInline (s.flatMap f) := by
  intro d hd
  obtain ⟨c, hc, hdc⟩ := List.mem_flatMap.1 hd
  exact h c hc d hdc

theorem trim {s : Text} (hs : IsInline s) : IsInline (Theming.Text.trim s) :=
  fun c hc => hs c (Theming.Text.mem_of_mem_trim hc)

theorem unbroken {s : Text} (hs : IsInline s) : '\n' ∉ s ∧ '\r' ∉ s :=
  ⟨fun h => hs _ h (by decide), fun h => hs _ h (by decide)⟩

theorem count_open {s : Text} (hs : IsInline s) : s.count '{' = 0 :=
  List.count_eq_zero.2 fun h => hs _ h (by decide)

theorem count_close {s : Text} (hs : IsInline s) : s.count '}' = 0 :=
  List.count_eq_zero.2 fun h => hs _ h (by decide)

/-- A text without braces is read anywhere where its indentation allows it, and changes nothing. -/
theorem readLine_eq {s : Text} (hs : IsInline s) {depth : Nat} (h : IsIndented depth s) :
    readLine depth s = some depth :=
  readLine_eq_some_iff.2 ⟨depth, by rw [hs.count_close, Nat.add_zero], by rw [hs.count_open, Nat.add_zero], h⟩

end IsInline

/-! ### Indenting -/

theorem count_indentLine {c : Char} (hc : c ≠ ' ') (line : Text) : (indentLine line).count c = line.count c := by
  unfold indentLine
  split
  · rename_i h
    rw [h]
  · simp [Ne.symm hc]

theorem IsIndented.indentLine {n : Nat} {line : Text} (h : IsIndented n line) :
    IsIndented (n + 1) (indentLine line) := by
  unfold Css.indentLine
  split
  · exact .inl rfl
  · rename_i hne
    refine .inr ?_
    obtain hnil | hprefix := h
    · exact absurd hnil hne
    · rw [Nat.mul_succ, List.replicate_succ, List.replicate_succ]
      exact List.cons_prefix_cons.2 ⟨rfl, List.cons_prefix_cons.2 ⟨rfl, hprefix⟩⟩

/-- The same line, indented, below one more brace. -/
theorem readLine_indentLine {depth after : Nat} {line : Text} (h : readLine depth line = some after) :
    readLine (depth + 1) (indentLine line) = some (after + 1) := by
  obtain ⟨around, rfl, rfl, hindented⟩ := readLine_eq_some_iff.1 h
  refine readLine_eq_some_iff.2 ⟨around + 1, ?_, ?_, hindented.indentLine⟩
  · rw [count_indentLine (by decide), Nat.add_right_comm]
  · rw [count_indentLine (by decide), Nat.add_right_comm]

theorem mem_of_mem_indentLine {c : Char} (hc : c ≠ ' ') {line : Text} (h : c ∈ indentLine line) : c ∈ line := by
  rw [← List.count_pos_iff] at h ⊢
  rwa [count_indentLine hc] at h

namespace Reads

variable {line : Text} {lines more : List Text} {depth between after : Nat}

theorem nil : Reads [] depth depth := ⟨by simp, rfl⟩

theorem singleton (hunbroken : '\n' ∉ line ∧ '\r' ∉ line) (h : readLine depth line = some after) :
    Reads [line] depth after :=
  ⟨by simpa using hunbroken, by simpa using h⟩

theorem append (h : Reads lines depth between) (hmore : Reads more between after) :
    Reads (lines ++ more) depth after where
  unbroken line hline := (List.mem_append.1 hline).elim (h.unbroken line) (hmore.unbroken line)
  read := by rw [List.foldlM_append, h.read]; exact hmore.read

theorem cons (hunbroken : '\n' ∉ line ∧ '\r' ∉ line) (h : readLine depth line = some between)
    (hmore : Reads more between after) : Reads (line :: more) depth after :=
  (singleton hunbroken h).append hmore

theorem of_nil (h : Reads [] depth after) : depth = after := Option.some.inj h.read

theorem of_append (h : Reads (lines ++ more) depth after) :
    ∃ between, Reads lines depth between ∧ Reads more between after := by
  have hread := h.read
  rw [List.foldlM_append, Option.bind_eq_bind, Option.bind_eq_some_iff] at hread
  obtain ⟨between, hlines, hmore⟩ := hread
  exact ⟨between, ⟨fun l hl => h.unbroken l (List.mem_append_left more hl), hlines⟩,
    ⟨fun l hl => h.unbroken l (List.mem_append_right lines hl), hmore⟩⟩

theorem of_cons (h : Reads (line :: more) depth after) :
    ∃ between, ('\n' ∉ line ∧ '\r' ∉ line) ∧ readLine depth line = some between ∧ Reads more between after := by
  obtain ⟨between, hline, hmore⟩ := of_append (show Reads ([line] ++ more) depth after from h)
  exact ⟨between, hline.unbroken line (List.mem_singleton_self line), by simpa using hline.read, hmore⟩

/-- Lines without braces. -/
theorem of_inline (h : ∀ line ∈ lines, IsInline line ∧ IsIndented depth line) : Reads lines depth depth := by
  induction lines with
  | nil => exact nil
  | cons line lines ih =>
    obtain ⟨⟨hline, hindented⟩, hlines⟩ := List.forall_mem_cons.1 h
    exact cons hline.unbroken (hline.readLine_eq hindented) (ih hlines)

/-- Indented lines are read like the lines themselves, one brace deeper. -/
theorem indent (h : Reads lines depth after) : Reads (lines.map indentLine) (depth + 1) (after + 1) := by
  induction lines generalizing depth with
  | nil =>
    obtain rfl := h.of_nil
    exact nil
  | cons line lines ih =>
    obtain ⟨between, hunbroken, hline, hlines⟩ := h.of_cons
    have hunbroken' : '\n' ∉ indentLine line ∧ '\r' ∉ indentLine line :=
      hunbroken.imp (mt (mem_of_mem_indentLine (by decide))) (mt (mem_of_mem_indentLine (by decide)))
    exact cons hunbroken' (readLine_indentLine hline) (ih hlines)

/-- The reader counts braces. -/
theorem count_eq (h : Reads lines depth after) :
    depth + lines.flatten.count '{' = after + lines.flatten.count '}' := by
  induction lines generalizing depth with
  | nil => simpa using h.of_nil
  | cons line lines ih =>
    obtain ⟨between, -, hline, hlines⟩ := h.of_cons
    obtain ⟨around, rfl, rfl, -⟩ := readLine_eq_some_iff.1 hline
    have hcount := ih hlines
    rw [List.flatten_cons, List.count_append, List.count_append]
    omega

/-- No part of the text up to a character closes more braces than are open. -/
theorem count_le_of_prefix (h : Reads lines depth after) {seen : Text} (hseen : seen <+: writeLines lines) :
    seen.count '}' ≤ depth + seen.count '{' := by
  induction lines generalizing depth seen with
  | nil =>
    obtain rfl : seen = [] := List.prefix_nil.1 hseen
    exact Nat.zero_le _
  | cons line lines ih =>
    obtain ⟨between, -, hline, hlines⟩ := h.of_cons
    obtain ⟨around, rfl, rfl, -⟩ := readLine_eq_some_iff.1 hline
    have hbreak : ['\n'].count '{' = 0 ∧ ['\n'].count '}' = 0 := by decide
    obtain ⟨rest, hrest⟩ := hseen
    rw [writeLines, List.flatMap_cons] at hrest
    obtain ⟨unread, hline, -⟩ | ⟨further, rfl, hfurther⟩ := List.append_eq_append_iff.1 hrest
    · -- the text breaks off in this line, whose closing braces are all open before it
      have hle : seen.count '}' ≤ (line ++ ['\n']).count '}' :=
        (hline ▸ List.prefix_append seen unread).sublist.count_le _
      rw [List.count_append, hbreak.2] at hle
      omega
    · have hcount : further.count '}' ≤ around + line.count '{' + further.count '{' :=
        ih hlines ⟨rest, hfurther.symm⟩
      simp only [List.count_append, hbreak.1, hbreak.2]
      omega

end Reads

/-! ### Texts of lines -/

theorem writeLines_cons (line : Text) (lines : List Text) :
    writeLines (line :: lines) = line ++ ['\n'] ++ writeLines lines := List.flatMap_cons

theorem writeLines_append (a b : List Text) : writeLines (a ++ b) = writeLines a ++ writeLines b :=
  List.flatMap_append

theorem lines_writeLines {lines : List Text} (h : ∀ line ∈ lines, '\n' ∉ line ∧ '\r' ∉ line) :
    Theming.Text.lines (writeLines lines) = lines := by
  induction lines with
  | nil => rfl
  | cons line lines ih =>
    obtain ⟨hline, hlines⟩ := List.forall_mem_cons.1 h
    rw [writeLines_cons, List.append_assoc, List.singleton_append, Theming.Text.lines_append_line hline.1 hline.2,
      ih hlines]

theorem count_writeLines {c : Char} (hc : c ≠ '\n') (lines : List Text) :
    (writeLines lines).count c = lines.flatten.count c := by
  induction lines with
  | nil => rfl
  | cons line lines ih =>
    have hbreak : ['\n'].count c = 0 := List.count_eq_zero.2 (by simpa using hc)
    rw [writeLines_cons, List.count_append, List.count_append, hbreak, ih, List.flatten_cons, List.count_append,
      Nat.add_zero]

namespace IsLaidOut

theorem nil : IsLaidOut [] := ⟨[], rfl, .nil⟩

theorem of_inline {lines : List Text} (h : ∀ line ∈ lines, IsInline line) : IsLaidOut (writeLines lines) :=
  ⟨lines, rfl, .of_inline fun line hline => ⟨h line hline, isIndented_zero line⟩⟩

/-- The empty line between two texts is read without a look at the depth. -/
theorem join {a b : Text} (ha : IsLaidOut a) (hb : IsLaidOut b) : IsLaidOut (join a b) := by
  unfold Css.join
  split
  · exact hb
  · split
    · exact ha
    · obtain ⟨as, rfl, has⟩ := ha
      obtain ⟨bs, rfl, hbs⟩ := hb
      have hempty : Reads [[]] 0 0 := .of_inline (by simp [IsInline.nil, isIndented_zero])
      exact ⟨as ++ ([[]] ++ bs), by rw [writeLines_append, writeLines_append]; rfl, has.append (hempty.append hbs)⟩

theorem indent {s : Text} (h : IsLaidOut s) : ∃ lines, indent s = writeLines lines ∧ Reads lines 1 1 := by
  obtain ⟨lines, rfl, hreads⟩ := h
  exact ⟨lines.map indentLine, by rw [Css.indent, lines_writeLines hreads.unbroken], hreads.indent⟩

end IsLaidOut

/-- Selectors, or a prelude, and the brace after them. -/
theorem exists_reads_selectorText {selectors : List Text} (h : ∀ s ∈ selectors, IsInline s) :
    ∃ lines, selectorText selectors ++ " \x7b\n".toList = writeLines lines ∧ Reads lines 0 1 := by
  have hopen : ∀ s, IsInline s → Reads [s ++ [' ', '{']] 0 1 := by
    intro s hs
    refine .singleton ⟨by simp [hs.unbroken.1], by simp [hs.unbroken.2]⟩ (readLine_eq_some_iff.2 ⟨0, ?_, ?_, ?_⟩)
    · simp [hs.count_close]
    · simp [hs.count_open]
    · exact isIndented_zero _
  fun_induction selectorText selectors with
  | case1 => exact ⟨[[' ', '{']], rfl, hopen [] .nil⟩
  | case2 s => exact ⟨[s ++ [' ', '{']], by simp [writeLines], hopen s (h s (List.mem_singleton_self s))⟩
  | case3 s more hmore ih =>
    obtain ⟨hs, hmore⟩ := List.forall_mem_cons.1 h
    obtain ⟨lines, hlines, hreads⟩ := ih hmore
    have hcomma : IsInline (s ++ [',']) := hs.append (.cons (by decide) .nil)
    refine ⟨(s ++ [',']) :: lines, ?_, .cons hcomma.unbroken (hcomma.readLine_eq (isIndented_zero _)) hreads⟩
    have hwrite : writeLines ((s ++ [',']) :: lines) = s ++ ',' :: '\n' :: writeLines lines := by simp [writeLines]
    rw [hwrite, ← hlines]
    simp

theorem isLaidOut_braces {selectors lines : List Text} (h : ∀ s ∈ selectors, IsInline s) (hlines : Reads lines 1 1) :
    IsLaidOut (braces (selectorText selectors) (writeLines lines)) := by
  obtain ⟨heads, hheads, hreads⟩ := exists_reads_selectorText h
  have hclose : Reads [['}']] 1 0 := .singleton (by decide) (by decide)
  refine ⟨heads ++ (lines ++ [['}']]), ?_, hreads.append (hlines.append hclose)⟩
  rw [braces, hheads, writeLines_append, writeLines_append, List.append_assoc]
  rfl

/-! ### Items -/

/-- No text of the item has braces or line breaks. -/
inductive Item.IsInline : Item → Prop
  | block {selectors declarations : List Text} (hselectors : ∀ s ∈ selectors, Css.IsInline s)
      (hdeclarations : ∀ d ∈ declarations, Css.IsInline d) : IsInline (.block selectors declarations)
  | atRule {pre : Text} {declarations : List Text} {items : List Item} (hpre : Css.IsInline pre)
      (hdeclarations : ∀ d ∈ declarations, Css.IsInline d) (hitems : ∀ item ∈ items, IsInline item) :
      IsInline (.atRule pre declarations items)

mutual

theorem Item.IsInline.isLaidOut_write : (item : Item) → item.IsInline → IsLaidOut item.write
  | .block selectors declarations, .block hselectors hdeclarations => by
    rw [Item.write]
    refine isLaidOut_braces hselectors (.of_inline fun line hline => ?_)
    obtain ⟨d, hd, rfl⟩ := List.mem_map.1 hline
    have hspace : ' ' ∉ ['{', '}', '\n', '\r'] := by decide
    exact ⟨.cons hspace (.cons hspace (hdeclarations d hd)), .inr (List.prefix_append [' ', ' '] d)⟩
  | .atRule pre declarations items, .atRule hpre hdeclarations hitems => by
    rw [Item.write]
    have hcontent : IsLaidOut (join (writeLines declarations) (writeAll items)) :=
      (IsLaidOut.of_inline hdeclarations).join (isLaidOut_writeAll items hitems)
    obtain ⟨lines, hlines, hreads⟩ := hcontent.indent
    have hbraces := isLaidOut_braces (List.forall_mem_singleton.2 hpre) hreads
    rwa [hlines]

/-- A style sheet whose texts have no braces and no line breaks can be read by lines. -/
theorem isLaidOut_writeAll : (items : List Item) → (∀ item ∈ items, item.IsInline) → IsLaidOut (writeAll items)
  | [], _ => .nil
  | item :: items, h => by
    obtain ⟨hitem, hitems⟩ := List.forall_mem_cons.1 h
    exact (hitem.isLaidOut_write item).join (isLaidOut_writeAll items hitems)

end

/-- A style sheet is empty or ends with a closing brace on a line of its own. -/
theorem writeAll_eq_nil_or_suffix (items : List Item) : writeAll items = [] ∨ ['}', '\n'] <:+ writeAll items := by
  have hwrite : ∀ item : Item, ['}', '\n'] <:+ item.write := by
    intro item
    cases item with
    | block selectors declarations => exact List.suffix_append _ _
    | atRule pre declarations items => exact List.suffix_append _ _
  induction items with
  | nil => exact .inl rfl
  | cons item items ih =>
    refine .inr ?_
    rw [writeAll, join]
    split
    · rename_i hnil
      exact absurd hnil item.write_ne_nil
    · split
      · exact hwrite item
      · rename_i hne
        exact (ih.resolve_left hne).trans ((List.suffix_cons _ _).trans (List.suffix_append _ _))

end Theming.Css
