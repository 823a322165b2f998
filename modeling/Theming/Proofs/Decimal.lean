import Theming.Token

/-!
# The characters of number texts

A number without an exponent is written with digits, a point and a sign.  So a token that is no text is written in
style sheets with letters, digits, points and hyphens alone (`Token.mem_css`).
-/

namespace Theming

namespace Decimal

theorem isDigit_of_mem_digitsText {n : Nat} {c : Char} (h : c ∈ digitsText n) : c.isDigit = true :=
  Nat.isDigit_of_mem_toDigits (by decide) (by decide) h

theorem mem_plainText {t : Tens} {point : Bool} {c : Char} (h : c ∈ t.plainText point) :
    c.isDigit = true ∨ c = '.' := by
  -- zeros fill up the digits on either side
  have hpadded : ∀ n, ∀ d ∈ List.replicate n '0' ++ digitsText t.digits, d.isDigit = true := by
    intro n d hd
    rcases List.mem_append.1 hd with hd | hd
    · rw [(List.mem_replicate.1 hd).2]
      rfl
    · exact isDigit_of_mem_digitsText hd
  simp only [Tens.plainText] at h
  split at h
  · simp only [List.mem_append, List.mem_replicate] at h
    rcases h with (h | ⟨-, rfl⟩) | h
    · exact .inl (isDigit_of_mem_digitsText h)
    · exact .inl rfl
    · split at h
      · simp only [List.mem_cons, List.not_mem_nil, or_false] at h
        rcases h with rfl | rfl
        · exact .inr rfl
        · exact .inl rfl
      · cases h
  · rcases List.mem_append.1 h with h | h
    · exact .inl (hpadded _ c (List.mem_of_mem_take h))
    · rcases List.mem_cons.1 h with rfl | h
      · exact .inr rfl
      · exact .inl (hpadded _ c (List.mem_of_mem_drop h))

theorem mem_cssText {x : Float} {c : Char} (h : c ∈ (cssText x).toList) : c.isAlphanum = true ∨ c = '.' ∨ c = '-' := by
  have hword : ∀ s : String, s.toList.all (fun c => c.isAlphanum || c == '-') = true → c ∈ s.toList →
      c.isAlphanum = true ∨ c = '.' ∨ c = '-' := by
    intro s hs hc
    have hchar := List.all_eq_true.1 hs c hc
    rw [Bool.or_eq_true, beq_iff_eq] at hchar
    exact hchar.imp_right .inr
  unfold cssText at h
  split at h
  · exact hword "NaN" (by decide) h
  · split at h
    · split at h
      · exact hword "-inf" (by decide) h
      · exact hword "inf" (by decide) h
    · split at h
      · exact hword "0" (by decide) h
      · rw [String.toList_ofList, Layout.finite] at h
        rcases List.mem_append.1 h with h | h
        · split at h
          · exact .inr (.inr (List.mem_singleton.1 h))
          · cases h
        · rcases mem_plainText h with h | h
          · exact .inl (by simp [Char.isAlphanum, h])
          · exact .inr (.inl h)

end Decimal

/-- What is written of a number or a flag. -/
theorem Token.mem_css {t : Token} (ht : t.text? = none) {c : Char} (h : c ∈ t.css.toList) :
    c.isAlphanum = true ∨ c = '.' ∨ c = '-' := by
  cases t with
  | text s => cases ht
  | number x => exact Decimal.mem_cssText h
  | flag b =>
    left
    cases b with
    | false => exact List.all_eq_true.1 (by decide : "false".toList.all Char.isAlphanum = true) c h
    | true => exact List.all_eq_true.1 (by decide : "true".toList.all Char.isAlphanum = true) c h

end Theming
