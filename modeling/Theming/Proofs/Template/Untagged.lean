import Mathlib.Data.List.Basic
import Mathlib.Data.List.Infix
import Theming.Proofs.Template.Printing

/-!
# Texts in which no tag opens

A text that opens no tag for printing and none for a statement is not read as a template at all.  Were it read as one,
it would come out as it is exactly if it has no comment and no line break at its end (`expand_untagged`): a comment is
left out or does not end, and one line break at the end is dropped, and in either case the text gets shorter.

There is nothing to such a text but plain text, comments and the last line break, so this is a matter for the partial
engine: here it has all of the language.
-/

namespace Theming.Template

/-! ### The first mark -/

/-- Either nothing opens in a text, or the text divides at its first mark. -/
theorem beforeTag_cases (s : List Char) :
    (beforeTag s = (s, []) ∧ ∀ c ∈ ['{', '%', '#'], ¬['{', c] <:+: s) ∨
      ∃ lead c rest, c ∈ ['{', '%', '#'] ∧ s = lead ++ '{' :: c :: rest ∧ beforeTag s = (lead, '{' :: c :: rest) := by
  fun_induction beforeTag s with
  | case1 c rest hc =>
    right
    exact ⟨[], c, rest, by simpa using hc, rfl, rfl⟩
  | case2 d rest hd lead tail hbefore ih =>
    rw [hbefore] at ih
    rcases ih with ⟨heq, hnone⟩ | ⟨lead', c, rest', hc, hrest, heq⟩
    · left
      obtain ⟨rfl, rfl⟩ := Prod.mk.inj heq
      refine ⟨rfl, fun c hc h => ?_⟩
      rcases List.infix_cons_iff.1 h with hstart | hlater
      · have hcd : c = d := by simpa using hstart
        exact hd (by simpa [hcd] using hc)
      · exact hnone c hc hlater
    · right
      obtain ⟨rfl, rfl⟩ := Prod.mk.inj heq
      exact ⟨'{' :: lead, c, rest', hc, by rw [hrest]; rfl, rfl⟩
  | case3 d rest hd lead tail hbefore ih =>
    rw [hbefore] at ih
    rcases ih with ⟨heq, hnone⟩ | ⟨lead', c, rest', hc, hrest, heq⟩
    · left
      obtain ⟨rfl, rfl⟩ := Prod.mk.inj heq
      refine ⟨rfl, fun c hc h => ?_⟩
      rcases List.infix_cons_iff.1 h with hstart | hlater
      · obtain ⟨hbrace, rest', rfl⟩ := List.cons_prefix_cons.1 hstart
        exact hd c rest' hbrace.symm rfl
      · exact hnone c hc hlater
    · right
      obtain ⟨rfl, rfl⟩ := Prod.mk.inj heq
      exact ⟨d :: lead, c, rest', hc, by rw [hrest]; rfl, rfl⟩
  | case4 => exact .inl ⟨rfl, by simp⟩

/-- The first mark of a text without tags opens a comment. -/
theorem IsUntagged.beforeTag_cases {s : List Char} (hs : IsUntagged s) :
    (beforeTag s = (s, []) ∧ ¬['{', '#'] <:+: s) ∨
      ∃ lead rest, s = lead ++ '{' :: '#' :: rest ∧ beforeTag s = (lead, '{' :: '#' :: rest) := by
  rcases Template.beforeTag_cases s with ⟨hbefore, hnone⟩ | ⟨lead, c, rest, hc, hsplit, hbefore⟩
  · exact .inl ⟨hbefore, hnone '#' (by simp)⟩
  · right
    have hopens : ['{', c] <:+: s := ⟨lead, rest, by simp [hsplit]⟩
    simp only [List.mem_cons, List.not_mem_nil, or_false] at hc
    rcases hc with rfl | rfl | rfl
    · exact absurd hopens hs.print
    · exact absurd hopens hs.statement
    · exact ⟨lead, rest, hsplit, hbefore⟩

/-! ### Comments -/

theorem control_suffix (s : List Char) : (control s).2 <:+ s := by
  unfold control
  split
  · exact List.suffix_cons _ _
  · exact List.suffix_cons _ _
  · exact List.suffix_rfl

theorem suffix_of_afterComment? {dash trim : Bool} {s rest : List Char} (h : afterComment? dash s = some (trim, rest)) :
    rest <:+ s := by
  fun_induction afterComment? dash s with
  | case1 => cases h
  | case2 dash c s hend =>
    obtain ⟨-, rfl⟩ := Prod.mk.inj (Option.some.inj h)
    exact (List.drop_suffix 1 s).trans (List.suffix_cons c s)
  | case3 dash c s hend ih => exact (ih h).trans (List.suffix_cons c s)

theorem pieces_comment (fuel : Nat) {trim : Bool} {s lead rest : List Char}
    (h : beforeTag (if trim then Text.trimStart s else s) = (lead, '{' :: '#' :: rest)) :
    pieces (fuel + 1) trim s = Piece.texts (if (control rest).1 then Text.trimEnd lead else lead) ++
      (afterComment? false (control rest).2).elim [.unclosed] fun after => pieces fuel after.1 after.2 := by
  rw [pieces, h]
  cases hend : afterComment? false (control rest).2 with
  | none => simp [hend]
  | some after => simp [hend]

/-! ### The pieces -/

theorem exists_texts (s : List Char) :
    ∃ texts : List (List Char), Piece.texts s = texts.map .text ∧ texts.flatten = s := by
  by_cases h : s = []
  · exact ⟨[], by simp [Piece.texts, h], by simp [h]⟩
  · exact ⟨[s], by simp [Piece.texts, h], by simp⟩

/-- The pieces of a text without tags are texts, up to a comment that does not end.  Together they are no longer than
the text, and shorter if there is a comment in it. -/
theorem IsUntagged.exists_pieces {fuel : Nat} {s : List Char} (hs : IsUntagged s) (hfuel : s.length < fuel)
    (trim : Bool) :
    ∃ texts : List (List Char),
      (pieces fuel trim s = texts.map .text ∨
        pieces fuel trim s = texts.map .text ++ [.unclosed] ∧ ['{', '#'] <:+: s) ∧
      texts.flatten.length ≤ s.length ∧ (texts.flatten.length = s.length → ¬['{', '#'] <:+: s) := by
  induction fuel generalizing trim s with
  | zero => omega
  | succ fuel ih =>
    obtain ⟨t, ht⟩ : ∃ t, t = if trim then Text.trimStart s else s := ⟨_, rfl⟩
    have hts : t <:+ s := by
      rw [ht]
      split
      · exact List.dropWhile_suffix _
      · exact List.suffix_rfl
    have htlen := hts.length_le
    rcases (hs.of_infix hts.isInfix).beforeTag_cases with ⟨hbefore, hnone⟩ | ⟨lead, rest, hsplit, hbefore⟩
    · obtain ⟨texts, htexts, hflatten⟩ := exists_texts t
      refine ⟨texts, .inl ?_, by rw [hflatten]; exact htlen, fun hlen => ?_⟩
      · rw [← htexts, pieces, ← ht, hbefore]
      · -- nothing has been trimmed, and nothing opens in what is left
        rw [hflatten] at hlen
        rwa [← hts.eq_of_length hlen]
    · have hopens : ['{', '#'] <:+: s := List.IsInfix.trans ⟨lead, rest, by simp [hsplit]⟩ hts.isInfix
      obtain ⟨texts, htexts, hflatten⟩ := exists_texts (if (control rest).1 then Text.trimEnd lead else lead)
      have hlead : texts.flatten.length ≤ lead.length := by
        rw [hflatten]
        split
        · exact (Text.trimEnd_prefix lead).length_le
        · exact le_rfl
      rw [hsplit, List.length_append, List.length_cons, List.length_cons] at htlen
      rw [ht] at hbefore
      rw [pieces_comment fuel hbefore, htexts]
      cases hend : afterComment? false (control rest).2 with
      | none => exact ⟨texts, .inr ⟨rfl, hopens⟩, by omega, by omega⟩
      | some after =>
        have hafter : after.2 <:+ rest := (suffix_of_afterComment? hend).trans (control_suffix rest)
        have hinfix : after.2 <:+: s :=
          hafter.isInfix.trans (List.IsInfix.trans ⟨lead ++ ['{', '#'], [], by simp [hsplit]⟩ hts.isInfix)
        have hafterLen := hafter.length_le
        obtain ⟨more, hmore, hmoreLen, -⟩ := ih (hs.of_infix hinfix) (by omega) after.1
        have hlen : (texts ++ more).flatten.length < s.length := by
          rw [List.flatten_append, List.length_append]
          omega
        refine ⟨texts ++ more, ?_, by omega, by omega⟩
        rw [List.map_append, List.append_assoc, Option.elim_some]
        rcases hmore with hmore | ⟨hmore, -⟩
        · exact .inl (by rw [hmore])
        · exact .inr ⟨by rw [hmore], hopens⟩

/-! ### The last line break -/

theorem dropLastBreak_prefix (s : List Char) : Text.dropLastBreak s <+: s := by
  have hdrop : ∀ (c : Char) (s : List Char), (if s.getLast? = some c then s.dropLast else s) <+: s := by
    intro c s
    split
    · exact s.dropLast_prefix
    · exact List.prefix_rfl
  exact (hdrop '\r' _).trans (hdrop '\n' s)

theorem dropLastBreak_eq_self_iff {s : List Char} :
    Text.dropLastBreak s = s ↔ s.getLast? ≠ some '\n' ∧ s.getLast? ≠ some '\r' := by
  constructor
  · intro h
    have hlast : ∀ c, s.getLast? = some c → (Text.dropLastBreak s).length ≤ s.dropLast.length → False := by
      intro c hc hle
      obtain ⟨u, rfl⟩ := List.getLast?_eq_some_iff.1 hc
      rw [h, List.dropLast_concat, List.length_append, List.length_singleton] at hle
      omega
    refine ⟨fun hn => hlast '\n' hn ?_, fun hr => hlast '\r' hr ?_⟩
    · simp only [Text.dropLastBreak, hn, if_true]
      split
      · exact (List.dropLast_prefix _).length_le
      · exact le_rfl
    · simp [Text.dropLastBreak, hr]
  · rintro ⟨hn, hr⟩
    simp [Text.dropLastBreak, hn, hr]

/-! ### Expanding -/

theorem nodes_unclosed (fuel room : Nat) (texts : List (List Char)) :
    nodes fuel room (texts.map .text ++ [.unclosed]) = .error .malformed := by
  induction texts generalizing fuel with
  | nil => cases fuel <;> rfl
  | cons s texts ih =>
    cases fuel with
    | zero => rfl
    | succ fuel => simp [nodes, ih]

theorem expandAll_texts (pre : Option (List Char)) (texts : List (List Char)) :
    expandAll pre (texts.map .text) = .ok texts.flatten := by
  induction texts with
  | nil => rfl
  | cons s texts ih =>
    rw [List.map_cons, expandAll, ih]
    rfl

/-- Where all pieces are texts, they are what the template expands to. -/
theorem expand_of_pieces (scope : Scope) {s : List Char} {texts : List (List Char)}
    (h : pieces ((Text.dropLastBreak s).length + 1) false (Text.dropLastBreak s) = texts.map .text) :
    partialEngine scope s = .ok texts.flatten := by
  have hparts : texts.map Piece.text = (texts.map some).map partPiece := by simp [Function.comp_def, partPiece]
  have hnodes : Node.ofText s = .ok (texts.map .text) := by
    simp only [Node.ofText, h, hparts]
    rw [nodes_parts _ _ (by simp; omega)]
    simp [partNode, Function.comp_def]
  rw [partialEngine, hnodes, ok_bind, expandAll_texts]

/-- A text in which nothing opens and which has no line break at its end is the same text as a template. -/
theorem IsUntagged.partialEngine_eq {s : List Char} (hs : IsUntagged s) (hcomment : ¬['{', '#'] <:+: s)
    (hbreak : Text.dropLastBreak s = s) (scope : Scope) : partialEngine scope s = .ok s := by
  obtain ⟨texts, htexts, hflatten⟩ := exists_texts s
  have hbefore : beforeTag s = (s, []) := by
    rcases hs.beforeTag_cases with ⟨hbefore, -⟩ | ⟨lead, rest, hsplit, -⟩
    · exact hbefore
    · exact absurd ⟨lead, rest, by simp [hsplit]⟩ hcomment
  have hpieces : pieces ((Text.dropLastBreak s).length + 1) false (Text.dropLastBreak s) = texts.map .text := by
    rw [hbreak, ← htexts]
    simp [pieces, hbefore]
  rw [expand_of_pieces scope hpieces, hflatten]

/-- As a template, a text without tags is a shorter text if there is anything in it to be dropped, unless it has a
comment that does not end. -/
theorem IsUntagged.expand_cases {s : List Char} (hs : IsUntagged s) (scope : Scope) :
    (∃ t, partialEngine scope s = .ok t ∧ t.length ≤ s.length ∧
      (t.length = s.length → ¬['{', '#'] <:+: s ∧ Text.dropLastBreak s = s)) ∨
    partialEngine scope s = .error .malformed ∧ ['{', '#'] <:+: s := by
  have hdrop := dropLastBreak_prefix s
  have hdropLen := hdrop.length_le
  obtain ⟨texts, hpieces, hlen, hcomment⟩ := (hs.of_infix hdrop.isInfix).exists_pieces
    (Nat.lt_succ_self (Text.dropLastBreak s).length) false
  rcases hpieces with hpieces | ⟨hpieces, hopens⟩
  · left
    refine ⟨texts.flatten, expand_of_pieces scope hpieces, by omega, fun h => ?_⟩
    -- nothing has been dropped at the end when so much is left
    have hself : Text.dropLastBreak s = s := hdrop.eq_of_length (by omega)
    rw [hself] at hcomment
    exact ⟨hcomment h, hself⟩
  · right
    have hnodes : Node.ofText s = .error .malformed := by
      simp only [Node.ofText, hpieces, nodes_unclosed]
      rfl
    exact ⟨by rw [partialEngine, hnodes, error_bind], hopens.trans hdrop.isInfix⟩

/-- A text in which no tag opens is kept as it is, whatever the value of the prefix.  To read it as a template would
give the same text exactly if no comment opens in it and it ends in no line break, neither a line feed nor a carriage
return, and in no other case would go unnoticed.  Else the text would get shorter, or fail if a comment in it does not
end. -/
theorem expand_untagged (scope : Scope) {s : List Char} (hs : IsUntagged s) :
    let isPlain := ¬"\x7b#".toList <:+: s ∧ s.getLast? ≠ some '\n' ∧ s.getLast? ≠ some '\r'
    scope.expand partialEngine s = .ok s ∧ (partialEngine scope s = .ok s ↔ isPlain) ∧
      (partialEngine scope s = scope.expand partialEngine s ↔ isPlain) ∧
      (¬isPlain → (∃ t, partialEngine scope s = .ok t ∧ t.length < s.length) ∨
        partialEngine scope s = .error .malformed ∧ "\x7b#".toList <:+: s) := by
  intro isPlain
  have hplain : isPlain ↔ ¬['{', '#'] <:+: s ∧ Text.dropLastBreak s = s := by rw [dropLastBreak_eq_self_iff]; rfl
  have hcases := hs.expand_cases scope
  have hexpand : partialEngine scope s = .ok s ↔ isPlain := by
    rw [hplain]
    constructor
    · intro h
      rcases hcases with ⟨t, ht, -, hlen⟩ | ⟨herror, -⟩
      · obtain rfl : s = t := Except.ok.inj (h.symm.trans ht)
        exact hlen rfl
      · rw [h] at herror
        cases herror
    · rintro ⟨hcomment, hbreak⟩
      exact hs.partialEngine_eq hcomment hbreak scope
  refine ⟨hs.expand_eq partialEngine scope, hexpand, by rw [hs.expand_eq partialEngine scope, hexpand], fun h => ?_⟩
  refine hcases.imp_left ?_
  rintro ⟨t, ht, hle, hlen⟩
  exact ⟨t, ht, lt_of_le_of_ne hle fun heq => h (hplain.2 (hlen heq))⟩

/-- Braces that open nothing, a comment, and a comment that does not end. -/
theorem expand_untagged_braces :
    let braces := "\x7b a \x7d\x7d #\x7d%".toList
    let comment := "a \x7b#- \x7b b #\x7d c".toList
    let unclosed := "\x7b#\x7d".toList
    (IsUntagged braces ∧ Scope.expand partialEngine {} braces = .ok braces ∧
      partialEngine {} braces = Scope.expand partialEngine {} braces) ∧
    (IsUntagged comment ∧ partialEngine {} comment = .ok "a c".toList ∧
      partialEngine {} comment ≠ Scope.expand partialEngine {} comment) ∧
    IsUntagged unclosed ∧ partialEngine {} unclosed = .error .malformed ∧
      Scope.expand partialEngine {} unclosed = .ok unclosed := by
  intro braces comment unclosed
  have hbraces : IsUntagged braces := by decide
  have hcomment : IsUntagged comment := by decide
  have hunclosed : IsUntagged unclosed := by decide
  have hplain : ¬"\x7b#".toList <:+: braces := by
    rw [← Text.contains_iff_infix]
    decide
  have hopens : "\x7b#".toList <:+: comment := Text.contains_iff_infix.1 (by decide)
  refine ⟨⟨hbraces, (expand_untagged {} hbraces).1, ?_⟩, ⟨hcomment, by decide +kernel, ?_⟩,
    hunclosed, by decide +kernel, (expand_untagged {} hunclosed).1⟩
  · exact (expand_untagged {} hbraces).2.2.1.2 ⟨hplain, by decide, by decide⟩
  · exact fun h => ((expand_untagged {} hcomment).2.2.1.1 h).1 hopens

/-- A text that ends in a carriage return would lose it, although no comment opens in it and it does not end in a line
feed. -/
theorem expand_carriageReturn :
    let s := "a\r".toList
    IsUntagged s ∧ ¬"\x7b#".toList <:+: s ∧ s.getLast? ≠ some '\n' ∧ partialEngine {} s = .ok "a".toList ∧
      ¬(partialEngine {} s = .ok s ↔ ¬"\x7b#".toList <:+: s ∧ s.getLast? ≠ some '\n') := by
  intro s
  have hcomment : ¬"\x7b#".toList <:+: s := by
    rw [← Text.contains_iff_infix]
    decide
  have hlast : s.getLast? ≠ some '\n' := by decide
  have hexpand : partialEngine {} s = .ok "a".toList := by decide +kernel
  refine ⟨by decide, hcomment, hlast, hexpand, fun h => ?_⟩
  have hkept := h.2 ⟨hcomment, hlast⟩
  rw [hexpand] at hkept
  exact absurd (Except.ok.inj hkept) (by decide)

end Theming.Template
