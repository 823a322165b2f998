import Mathlib.Data.List.Basic
import Theming.Proofs.Failure
import Theming.Proofs.Scope
import Theming.Template.Expand

/-!
# Printing by the partial engine

The partial engine prints plain text as it is and the placeholder as the selector of the scope
(`printsPrefix_partialEngine`), which is all that is asked of an engine elsewhere.
-/

namespace Theming

namespace Template

/-! ### Reading -/

theorem beforeTag_cons {c : Char} (hc : c ≠ '{') (s : List Char) :
    beforeTag (c :: s) = (c :: (beforeTag s).1, (beforeTag s).2) := by
  rw [beforeTag]
  rintro d rest rfl
  exact absurd rfl hc

theorem beforeTag_plain {s : List Char} (hs : '{' ∉ s) : beforeTag s = (s, []) := by
  induction s with
  | nil => rfl
  | cons c s ih =>
    rw [List.mem_cons, not_or] at hs
    rw [beforeTag_cons (Ne.symm hs.1), ih hs.2]

theorem beforeTag_print {s : List Char} (hs : '{' ∉ s) (rest : List Char) :
    beforeTag (s ++ '{' :: '{' :: rest) = (s, '{' :: '{' :: rest) := by
  induction s with
  | nil => rfl
  | cons c s ih =>
    rw [List.mem_cons, not_or] at hs
    rw [List.cons_append, beforeTag_cons (Ne.symm hs.1), ih hs.2]

/-- The words in the placeholder. -/
def placeholderWords : List Lexeme := [.name "prefix".toList]

theorem pieces_plain (fuel : Nat) {s : List Char} (hs : '{' ∉ s) : pieces (fuel + 1) false s = Piece.texts s := by
  simp [pieces, beforeTag_plain hs]

theorem pieces_placeholder (fuel : Nat) {s : List Char} (hs : '{' ∉ s) (rest : List Char) :
    pieces (fuel + 3) false (s ++ (Rule.placeholder.toList ++ rest)) =
      Piece.texts s ++ .print placeholderWords :: pieces (fuel + 2) false rest := by
  have htext : Rule.placeholder.toList ++ rest = '{' :: '{' :: (" prefix \x7d\x7d".toList ++ rest) := rfl
  rw [htext, pieces]
  simp only [Bool.false_eq_true, if_false, beforeTag_print hs]
  rfl

/-- A part of a pattern: a text, or a gap. -/
def partPiece : Option (List Char) → Piece
  | none => .print placeholderWords
  | some s => .text s

private theorem exists_parts_texts (s : List Char) : ∃ parts : List (Option (List Char)),
    Piece.texts s = parts.map partPiece ∧ ∀ gap, parts.flatMap (·.getD gap) = s := by
  by_cases h : s = []
  · exact ⟨[], by simp [Piece.texts, h], by simp [h]⟩
  · exact ⟨[some s], by simp [Piece.texts, h, partPiece], by simp⟩

/-- The pieces of a template are the parts of its pattern. -/
theorem exists_parts (fuel : Nat) {t : Pattern} (ht : some '{' ∉ t)
    (hfuel : (t.fill Rule.placeholder.toList).length < fuel) :
    ∃ parts : List (Option (List Char)), pieces fuel false (t.fill Rule.placeholder.toList) = parts.map partPiece ∧
      ∀ gap, parts.flatMap (·.getD gap) = t.fill gap := by
  induction fuel generalizing t with
  | zero => omega
  | succ fuel ih =>
    obtain ⟨s, h | ⟨u, h⟩⟩ := t.exists_lead
    · subst h
      have hs : '{' ∉ s := by simpa using ht
      obtain ⟨parts, hparts, hfill⟩ := exists_parts_texts s
      refine ⟨parts, ?_, by simpa using hfill⟩
      rw [Pattern.fill_map_some, pieces_plain fuel hs, hparts]
    · subst h
      simp only [List.mem_append, List.mem_map, Option.some.injEq, exists_eq_right, List.mem_cons, reduceCtorEq,
        false_or, not_or] at ht
      -- the fuel is longer than the text, so for a placeholder there is enough of it
      have hlen : Rule.placeholder.toList.length = 12 := rfl
      simp only [Pattern.fill_append, Pattern.fill_map_some, Pattern.fill_none_cons, List.length_append, hlen] at hfuel
      obtain ⟨f, rfl⟩ : ∃ f, fuel = f + 2 := ⟨fuel - 2, by omega⟩
      obtain ⟨lead, hlead, hs⟩ := exists_parts_texts s
      obtain ⟨parts, hparts, hu⟩ := ih ht.2 (by omega)
      refine ⟨lead ++ none :: parts, ?_, ?_⟩
      · rw [Pattern.fill_append, Pattern.fill_map_some, Pattern.fill_none_cons, pieces_placeholder f ht.1, hlead,
          hparts]
        simp [partPiece]
      · intro gap
        simp [hs, hu]

/-! ### Expanding -/

def partNode : Option (List Char) → Node
  | none => .print (.name "prefix".toList)
  | some s => .text s

theorem ofWords_placeholder : Expr.ofWords maxNesting .nested placeholderWords = .ok (.name "prefix".toList) := rfl

theorem nodes_parts (fuel : Nat) (parts : List (Option (List Char))) (hfuel : parts.length < fuel) :
    nodes fuel maxNesting (parts.map partPiece) = .ok (parts.map partNode, []) := by
  induction parts generalizing fuel with
  | nil =>
    obtain ⟨f, rfl⟩ : ∃ f, fuel = f + 1 := ⟨fuel - 1, by omega⟩
    rfl
  | cons part parts ih =>
    rw [List.length_cons] at hfuel
    obtain ⟨f, rfl⟩ : ∃ f, fuel = f + 1 := ⟨fuel - 1, by omega⟩
    have hrest := ih f (by omega)
    cases part with
    | none => simp [nodes, partPiece, partNode, hrest, ofWords_placeholder]
    | some s => simp [nodes, partPiece, partNode, hrest]

theorem expandAll_parts (gap : List Char) (parts : List (Option (List Char))) :
    expandAll (some gap) (parts.map partNode) = .ok (parts.flatMap (·.getD gap)) := by
  induction parts with
  | nil => rfl
  | cons part parts ih =>
    have hpart : (partNode part).expand (some gap) = .ok (part.getD gap) := by
      cases part with
      | none => rfl
      | some s => rfl
    rw [List.map_cons, expandAll, hpart, ih]
    rfl

theorem printsPrefix_partialEngine : Engine.PrintsPrefix partialEngine := by
  intro selector t ht
  have ht' : some '{' ∉ t.dropLastBreak := fun h => ht (Pattern.mem_of_mem_dropLastBreak h)
  have hs := (Pattern.fill_dropLastBreak Pattern.endsSolid_placeholder t).symm
  obtain ⟨parts, hparts, hfill⟩ :=
    exists_parts ((t.dropLastBreak.fill Rule.placeholder.toList).length + 1) ht' (by omega)
  have hnodes : Node.ofText (t.fill Rule.placeholder.toList) = .ok (parts.map partNode) := by
    simp only [Node.ofText, hs, hparts]
    rw [nodes_parts _ parts (by rw [List.length_map]; omega)]
    rfl
  rw [partialEngine, hnodes, ok_bind, Option.map_some, expandAll_parts, hfill]

end Template

end Theming
