import Mathlib.Data.List.Basic
import Theming.Naming

/-!
# Keys of variants and names of properties

The key of a variant is its base and a suffix, which the variant alone decides.  So two variants share the keys of all
bases or of none, and a variant of a variant is the variant whose name is put together from the two in the same way
(`variantKey_suffix`).

The hyphenated form of a property's name is final: only a custom property has capitals in it, and hyphenating it again
changes nothing.  If the name has no hyphens, each hyphen of the form stands for a capital, so the name can be read back
from it and no other such name has the same form (`cssName_normalizes`).
-/

namespace Theming

/-! ### Letters -/

theorem isUpper_iff {c : Char} : c.isUpper = true ↔ 65 ≤ c.toNat ∧ c.toNat ≤ 90 := decide_eq_true_iff

theorem isLower_iff {c : Char} : c.isLower = true ↔ 97 ≤ c.toNat ∧ c.toNat ≤ 122 := by
  change (decide (97 ≤ c.toNat) && decide (c.toNat ≤ 122)) = true ↔ _
  rw [Bool.and_eq_true, decide_eq_true_iff, decide_eq_true_iff]

theorem toNat_toLower (c : Char) : c.toLower.toNat = if c.isUpper then c.toNat + 32 else c.toNat := by
  unfold Char.toLower
  split
  · rename_i hc
    have hrange : 65 ≤ c.toNat ∧ c.toNat ≤ 90 := hc
    rw [if_pos (isUpper_iff.2 hrange), ← Char.toNat_val, UInt32.toNat_add]
    exact Nat.mod_eq_of_lt (show c.toNat + 32 < 2 ^ 32 by omega)
  · rename_i hc
    rw [if_neg (mt isUpper_iff.1 hc)]

theorem toNat_toUpper (c : Char) : c.toUpper.toNat = if c.isLower then c.toNat - 32 else c.toNat := by
  unfold Char.toUpper
  split
  · rename_i hc
    have hrange : 97 ≤ c.toNat ∧ c.toNat ≤ 122 := hc
    -- a capital comes before its small letter, so the step between them wraps around
    have hstep : ('A'.val - 'a'.val).toNat = 2 ^ 32 - 32 := by decide
    rw [if_pos (isLower_iff.2 hrange), ← Char.toNat_val, UInt32.toNat_add, hstep, Char.toNat_val]
    omega
  · rename_i hc
    rw [if_neg (mt isLower_iff.1 hc)]

theorem isLower_toUpper (c : Char) : c.toUpper.isLower = false := by
  have hcode := toNat_toUpper c
  grind [isLower_iff]

theorem isUpper_toLower (c : Char) : c.toLower.isUpper = false := by
  have hcode := toNat_toLower c
  grind [isUpper_iff]

theorem toUpper_toUpper (c : Char) : c.toUpper.toUpper = c.toUpper := by
  rw [← Char.toNat_inj, toNat_toUpper, if_neg (Bool.eq_false_iff.1 (isLower_toUpper c))]

theorem isLower_toLower {c : Char} (h : c.isUpper = true) : c.toLower.isLower = true := by
  rw [isUpper_iff] at h
  rw [isLower_iff, toNat_toLower, if_pos (isUpper_iff.2 h)]
  omega

theorem toUpper_toLower {c : Char} (h : c.isUpper = true) : c.toLower.toUpper = c := by
  rw [← Char.toNat_inj, toNat_toUpper, if_pos (isLower_toLower h), toNat_toLower, if_pos h, Nat.add_sub_cancel]

/-! ### Suffixes -/

/-- What the key of a variant adds to its base. -/
def variantSuffix (variant : String) : List Char := if variant = "default" then [] else capitalize variant.toList

theorem variantSuffix_of_ne {variant : String} (h : variant ≠ "default") :
    variantSuffix variant = capitalize variant.toList := if_neg h

theorem toList_variantKey (base variant : String) :
    (variantKey base variant).toList = base.toList ++ variantSuffix variant := by
  unfold variantKey variantSuffix
  split
  · rw [List.append_nil]
  · rw [String.toList_append, String.toList_ofList]

theorem variantKey_eq_iff {base s t : String} :
    variantKey base s = variantKey base t ↔ variantSuffix s = variantSuffix t := by
  rw [← String.toList_inj, toList_variantKey, toList_variantKey, List.append_cancel_left_eq]

/-! ### Capitals -/

theorem capitalize_capitalize (s : List Char) : capitalize (capitalize s) = capitalize s := by
  cases s with
  | nil => rfl
  | cons c s => simp only [capitalize, toUpper_toUpper]

theorem capitalize_append {s : List Char} (hs : s ≠ []) (t : List Char) :
    capitalize (s ++ t) = capitalize s ++ t := by
  cases s with
  | nil => exact absurd rfl hs
  | cons c s => rfl

theorem capitalize_variantSuffix (variant : String) : capitalize (variantSuffix variant) = variantSuffix variant := by
  unfold variantSuffix
  split
  · rfl
  · exact capitalize_capitalize _

/-- A suffix never starts with a small letter. -/
theorem isLower_head_variantSuffix {variant : String} {c : Char} {rest : List Char}
    (h : variantSuffix variant = c :: rest) : c.isLower = false := by
  have hcapital := capitalize_variantSuffix variant
  rw [h, capitalize, List.cons.injEq] at hcapital
  rw [← hcapital.1, isLower_toUpper]

/-! ### Variants of variants -/

/-- No suffix makes the word `default`, since what would be left of the word starts with a small letter. -/
theorem variantKey_eq_default_iff {s t : String} :
    variantKey s t = "default" ↔ s = "default" ∧ variantSuffix t = [] := by
  rw [← String.toList_inj, toList_variantKey]
  constructor
  · intro h
    cases hsuffix : variantSuffix t with
    | nil =>
      rw [hsuffix, List.append_nil, String.toList_inj] at h
      exact ⟨h, rfl⟩
    | cons c rest =>
      have hmem : c ∈ "default".toList := by
        rw [← h, hsuffix]
        exact List.mem_append_right _ List.mem_cons_self
      have hlower : c.isLower = true := List.all_eq_true.1 (by decide : "default".toList.all Char.isLower = true) c hmem
      rw [isLower_head_variantSuffix hsuffix] at hlower
      cases hlower
  · rintro ⟨rfl, ht⟩
    rw [ht, List.append_nil]

theorem variantSuffix_variantKey {s : String} (hs : s ≠ "default") (t : String) :
    variantSuffix (variantKey s t) = variantSuffix s ++ variantSuffix t := by
  have hne : variantKey s t ≠ "default" := fun h => hs (variantKey_eq_default_iff.1 h).1
  rw [variantSuffix_of_ne hne, toList_variantKey, variantSuffix_of_ne hs]
  by_cases hempty : s.toList = []
  · rw [hempty, List.nil_append, capitalize_variantSuffix]
    rfl
  · exact capitalize_append hempty _

/-- Two variants have the same key, on any base, if and only if they have the same suffix: the empty one for `default`,
and else the variant with its first letter as a capital.  A variant of a variant is one variant, whose name is put
together from theirs as a key is; but below `default`, which adds nothing, it is the inner variant. -/
theorem variantKey_suffix (base s t : String) :
    (variantKey base s = variantKey base t ↔ variantSuffix s = variantSuffix t) ∧
    variantKey (variantKey base s) t =
      if s = "default" then variantKey base t else variantKey base (variantKey s t) := by
  refine ⟨variantKey_eq_iff, ?_⟩
  split
  · rename_i hs
    rw [hs]
    rfl
  · rename_i hs
    rw [← String.toList_inj, toList_variantKey, toList_variantKey, toList_variantKey, variantSuffix_variantKey hs,
      List.append_assoc]

example : variantKey "height" "large" = variantKey "height" "Large" ∧
    variantKey (variantKey "color" "default") "hover" = "colorHover" ∧
    variantKey "color" (variantKey "default" "hover") = "colorDefaultHover" := by
  decide +kernel

/-! ### Properties -/

/-- The name of a custom property starts with two hyphens. -/
def IsCustomName (name : String) : Prop := ['-', '-'] <+: name.toList

instance (name : String) : Decidable (IsCustomName name) := inferInstanceAs (Decidable (_ <+: _))

theorem toList_cssName (name : String) :
    (cssName name).toList = if IsCustomName name then name.toList else name.toList.flatMap hyphenate := by
  unfold cssName
  split
  · rename_i rest hname
    have hcustom : IsCustomName name := ⟨rest, hname.symm⟩
    rw [if_pos hcustom]
  · rename_i hname
    have hplain : ¬IsCustomName name := fun ⟨rest, hrest⟩ => hname rest hrest.symm
    rw [if_neg hplain, String.toList_ofList]

theorem IsCustomName.cssName_eq {name : String} (h : IsCustomName name) : cssName name = name := by
  rw [← String.toList_inj, toList_cssName, if_pos h]

theorem toLower_not_mem {c : Char} (h : c.isUpper = true) {l : List Char} (hl : ∀ d ∈ l, d.isLower = false) :
    c.toLower ∉ l := by
  intro hmem
  have hlower := isLower_toLower h
  rw [hl _ hmem] at hlower
  cases hlower

theorem isUpper_eq_false_of_mem_hyphenate {c d : Char} (h : d ∈ hyphenate c) : d.isUpper = false := by
  unfold hyphenate at h
  split at h
  · rcases List.mem_pair.1 h with rfl | rfl
    · rfl
    · exact isUpper_toLower c
  · rename_i hsmall
    rw [List.mem_singleton.1 h]
    exact Bool.eq_false_iff.2 hsmall

theorem isUpper_eq_false_of_mem_cssName {name : String} (hname : ¬IsCustomName name) {c : Char}
    (hc : c ∈ (cssName name).toList) : c.isUpper = false := by
  rw [toList_cssName, if_neg hname] at hc
  obtain ⟨d, -, hd⟩ := List.mem_flatMap.1 hc
  exact isUpper_eq_false_of_mem_hyphenate hd

/-- The names that are written as they are. -/
theorem cssName_eq_self_iff {name : String} :
    cssName name = name ↔ IsCustomName name ∨ ∀ c ∈ name.toList, c.isUpper = false := by
  constructor
  · intro h
    by_cases hname : IsCustomName name
    · exact .inl hname
    · right
      intro c hc
      rw [← h] at hc
      exact isUpper_eq_false_of_mem_cssName hname hc
  · rintro (hname | hsmall)
    · exact hname.cssName_eq
    · rw [← String.toList_inj, toList_cssName]
      split
      · rfl
      · have hkept : ∀ c ∈ name.toList, hyphenate c = [c] := fun c hc => if_neg (by simp [hsmall c hc])
        rw [List.flatMap_congr hkept, List.flatMap_singleton']

theorem cssName_cssName (name : String) : cssName (cssName name) = cssName name := by
  by_cases hname : IsCustomName name
  · rw [hname.cssName_eq, hname.cssName_eq]
  · -- the form may start with two hyphens where the name does not, but it is kept for having no capitals
    exact cssName_eq_self_iff.2 (.inr fun c hc => isUpper_eq_false_of_mem_cssName hname hc)

/-! ### Reading a property's name back -/

/-- Joins the words of a hyphenated name, each hyphen and the letter after it to one capital. -/
def camelize : List Char → List Char
  | '-' :: c :: rest => c.toUpper :: camelize rest
  | c :: rest => c :: camelize rest
  | [] => []

theorem camelize_cons {c : Char} (hc : c ≠ '-') (rest : List Char) : camelize (c :: rest) = c :: camelize rest := by
  rw [camelize]
  rintro d t rfl
  exact absurd rfl hc

theorem camelize_hyphenate {c : Char} (hc : c ≠ '-') (rest : List Char) :
    camelize (hyphenate c ++ rest) = c :: camelize rest := by
  unfold hyphenate
  split
  · rename_i hupper
    rw [List.cons_append, List.singleton_append, camelize, toUpper_toLower hupper]
  · exact camelize_cons hc rest

theorem camelize_flatMap_hyphenate {s : List Char} (hs : '-' ∉ s) : camelize (s.flatMap hyphenate) = s := by
  induction s with
  | nil => rfl
  | cons c s ih =>
    rw [List.mem_cons, not_or] at hs
    rw [List.flatMap_cons, camelize_hyphenate (Ne.symm hs.1), ih hs.2]

theorem camelize_cssName {name : String} (h : '-' ∉ name.toList) : camelize (cssName name).toList = name.toList := by
  have hplain : ¬IsCustomName name := fun hcustom => h (hcustom.subset List.mem_cons_self)
  rw [toList_cssName, if_neg hplain, camelize_flatMap_hyphenate h]

theorem cssName_inj {a b : String} (ha : '-' ∉ a.toList) (hb : '-' ∉ b.toList) : cssName a = cssName b ↔ a = b := by
  refine ⟨fun h => ?_, fun h => by rw [h]⟩
  rw [← String.toList_inj, ← camelize_cssName ha, ← camelize_cssName hb, h]

/-- Hyphenating a name again changes nothing, only a custom property has capitals in its hyphenated name, and two names
without hyphens are not hyphenated alike, wherever their capitals stand. -/
theorem cssName_normalizes (name a b : String) :
    cssName (cssName name) = cssName name ∧
    (¬IsCustomName name → ∀ c ∈ (cssName name).toList, c.isUpper = false) ∧
    ('-' ∉ a.toList → '-' ∉ b.toList → (cssName a = cssName b ↔ a = b)) :=
  ⟨cssName_cssName name, fun hname _ hc => isUpper_eq_false_of_mem_cssName hname hc, cssName_inj⟩

/-- The first name becomes that of a custom property; the other two differ in a leading capital. -/
theorem cssName_normalizes_vendor :
    (¬IsCustomName "-FontSize" ∧ '-' ∉ "WebkitMask".toList ∧ '-' ∉ "webkitMask".toList) ∧
    cssName (cssName "-FontSize") = cssName "-FontSize" ∧
    (∀ c ∈ (cssName "-FontSize").toList, c.isUpper = false) ∧
    cssName "WebkitMask" ≠ cssName "webkitMask" := by
  have hname : ¬IsCustomName "-FontSize" := by decide +kernel
  have ha : '-' ∉ "WebkitMask".toList := by decide +kernel
  have hb : '-' ∉ "webkitMask".toList := by decide +kernel
  obtain ⟨hagain, hsmall, hdiffer⟩ := cssName_normalizes "-FontSize" "WebkitMask" "webkitMask"
  exact ⟨⟨hname, ha, hb⟩, hagain, hsmall hname, mt (hdiffer ha hb).1 (by decide)⟩

example : cssName "WebkitTextSizeAdjust" = "-webkit-text-size-adjust" ∧ cssName "-FontSize" = "--font-size" ∧
    cssName "--rippleColor" = "--rippleColor" := by
  decide +kernel

end Theming
