import Mathlib.Data.Bool.AllAny
import Mathlib.Data.List.Infix
import Theming.Proofs.Rules.Composition
import Theming.Proofs.Scope
import Theming.Proofs.Template.Printing

/-!
# Where the blocks of a style sheet apply

A rule narrows down the selectors around it: whatever is nested in it, each selector that is written contains one of
the selectors of the rule, unless it is a frame of an animation.  No `&` is left in any of them (`render_scoped`).  This
is so whatever the templates in the rules expand to; that blocks under a class prefix stay under it is so for engines
that print the prefix.
-/

namespace Theming

open Template (partialEngine printsPrefix_partialEngine)

variable {ε : Type} {engine : Template.Engine ε}

/-! ### Selectors -/

namespace Selector

section Characters

variable {p : Char → Prop} {parent s : List Char}

theorem forall_mem_fill (hparent : ∀ c ∈ parent, p c) (hs : ∀ c ∈ s, c ≠ '&' → p c) : ∀ c ∈ fill parent s, p c := by
  intro c hc
  obtain ⟨d, hd, hcd⟩ := List.mem_flatMap.1 hc
  split at hcd
  · exact hparent c hcd
  · rename_i hne
    obtain rfl := List.mem_singleton.1 hcd
    exact hs c hd hne

theorem forall_mem_under (hspace : p ' ') (hparent : ∀ c ∈ parent, p c) (hs : ∀ c ∈ s, c ≠ '&' → p c) :
    ∀ c ∈ under parent s, p c := by
  unfold under
  split
  · exact forall_mem_fill hparent hs
  · rename_i hamp
    have hall : ∀ c ∈ s, p c := fun c hc => hs c hc (ne_of_mem_of_not_mem hc hamp)
    exact List.forall_mem_append.2 ⟨hparent, List.forall_mem_cons.2 ⟨hspace, hall⟩⟩

/-- The selectors of a rule have the characters of those around it and of its own, without `&`, and spaces. -/
theorem forall_mem_resolve {parents own : List (List Char)} (hspace : p ' ') (hparents : ∀ t ∈ parents, ∀ c ∈ t, p c)
    (hown : ∀ t ∈ own, ∀ c ∈ t, c ≠ '&' → p c) : ∀ t ∈ resolve parents own, ∀ c ∈ t, p c := by
  intro t ht
  unfold resolve at ht
  split at ht
  · exact hparents t ht
  · split at ht
    · obtain ⟨u, hu, rfl⟩ := List.mem_map.1 (List.mem_filter.1 ht).1
      exact fun c hc => forall_mem_fill (by simp) (hown u hu) c (Text.mem_of_mem_trim hc)
    · obtain ⟨q, hq, htq⟩ := List.mem_flatMap.1 ht
      obtain ⟨u, hu, rfl⟩ := List.mem_map.1 htq
      exact forall_mem_under hspace (hparents q hq) (hown u hu)

end Characters

/-- The selectors of a rule have no `&` if those around it have none. -/
theorem not_mem_of_mem_resolve {parents own : List (List Char)} (hp : ∀ p ∈ parents, '&' ∉ p) :
    ∀ s ∈ resolve parents own, '&' ∉ s := by
  have hne : ∀ t ∈ resolve parents own, ∀ c ∈ t, c ≠ '&' :=
    forall_mem_resolve (by decide) (fun t ht c hc => ne_of_mem_of_not_mem hc (hp t ht)) fun t ht c hc h => h
  exact fun t ht hmem => hne t ht '&' hmem rfl

theorem infix_under (parent s : List Char) : parent <:+: under parent s := by
  unfold under
  split
  · rename_i hs
    obtain ⟨a, b, rfl⟩ := List.append_of_mem hs
    refine ⟨fill parent a, fill parent b, ?_⟩
    simp [fill]
  · exact (List.prefix_append _ _).isInfix

/-- The text contains one of the selectors. -/
def Covers (selectors : List (List Char)) (s : List Char) : Prop := ∃ p ∈ selectors, p <:+: s

theorem covers_of_mem {selectors : List (List Char)} {s : List Char} (h : s ∈ selectors) : Covers selectors s :=
  ⟨s, h, List.infix_rfl⟩

theorem Covers.trans {outer inner : List (List Char)} (h : ∀ s ∈ inner, Covers outer s) {s : List Char}
    (hs : Covers inner s) : Covers outer s := by
  obtain ⟨t, ht, hts⟩ := hs
  obtain ⟨p, hp, hpt⟩ := h t ht
  exact ⟨p, hp, hpt.trans hts⟩

theorem covers_of_mem_resolve {parents own : List (List Char)} (hne : parents ≠ []) :
    ∀ s ∈ resolve parents own, Covers parents s := by
  intro s hs
  unfold resolve at hs
  rw [if_neg hne] at hs
  split at hs
  · exact covers_of_mem hs
  · obtain ⟨p, hp, hsp⟩ := List.mem_flatMap.1 hs
    obtain ⟨t, -, rfl⟩ := List.mem_map.1 hsp
    exact ⟨p, hp, infix_under p t⟩

theorem resolve_ne_nil {parents own : List (List Char)} (hne : parents ≠ []) : resolve parents own ≠ [] := by
  unfold resolve
  rw [if_neg hne]
  split
  · exact hne
  · rename_i hown
    obtain ⟨p, ps, rfl⟩ := List.exists_cons_of_ne_nil hne
    obtain ⟨s, ss, rfl⟩ := List.exists_cons_of_ne_nil hown
    simp

end Selector

/-! ### The selectors of a style sheet -/

namespace Css

mutual

/-- The selectors of the blocks in an item, without at-rules that are not entered. -/
def Item.selectors (enter : Text → Bool) : Item → List Text
  | .block selectors _ => selectors
  | .atRule pre _ items => if enter pre then selectorsAll enter items else []

def selectorsAll (enter : Text → Bool) : List Item → List Text
  | [] => []
  | item :: items => item.selectors enter ++ selectorsAll enter items

end

theorem selectorsAll_append (enter : Text → Bool) (a b : List Item) :
    selectorsAll enter (a ++ b) = selectorsAll enter a ++ selectorsAll enter b := by
  induction a with
  | nil => rfl
  | cons item items ih => simp [selectorsAll, ih]

/-- All selectors of blocks. -/
def allSelectors (items : List Item) : List Text := selectorsAll (fun _ => true) items

/-- The selectors of blocks outside animations. -/
def openSelectors (items : List Item) : List Text := selectorsAll (fun pre => !Rule.isKeyframes pre) items

end Css

namespace Rule

theorem mem_selectorsAll_blocks {enter : Css.Text → Bool} {selectors declarations : List (List Char)}
    {s : List Char} (h : s ∈ Css.selectorsAll enter (blocks selectors declarations)) : s ∈ selectors := by
  unfold blocks at h
  split at h
  · exact absurd h (by simp [Css.selectorsAll])
  · simpa [Css.selectorsAll, Css.Item.selectors] using h

theorem mem_selectorsAll_atRule {enter : Css.Text → Bool} {empty : Prop} [Decidable empty] {pre : List Char}
    {declarations : List (List Char)} {held : List Css.Item} {s : List Char}
    (h : s ∈ Css.selectorsAll enter (if empty then [] else [.atRule pre declarations held])) :
    enter pre = true ∧ s ∈ Css.selectorsAll enter held := by
  split at h
  · simp [Css.selectorsAll] at h
  · simp only [Css.selectorsAll, Css.Item.selectors, List.append_nil] at h
    split at h
    · rename_i henter
      exact ⟨henter, h⟩
    · simp at h

/-! ### One rule -/

section Step

variable {scope : Scope} {parents : List (List Char)} {r : Rule} {items : List Css.Item}

/-- What applies in a rule: its own selectors, or in an at-rule those around it. -/
def applied (engine : Template.Engine ε) (scope : Scope) (parents : List (List Char)) (r : Rule) :
    Except ε (List (List Char)) :=
  if (atRule? r.selectors).isSome then return parents else resolved engine scope parents r

/-- Whether the children of a rule are frames, and the selectors that they are below. -/
def inner (engine : Template.Engine ε) (scope : Scope) (parents : List (List Char)) (r : Rule) :
    Except ε (Bool × List (List Char)) :=
  match atRule? r.selectors with
  | some pre => do
    let pre ← scope.expand engine pre
    return (isKeyframes pre, if isKeyframes pre then [] else parents)
  | none => return (false, ← resolved engine scope parents r)

theorem eq_or_eq_resolve_of_applied {s : List (List Char)} (h : applied engine scope parents r = .ok s) :
    s = parents ∨ ∃ own, s = Selector.resolve parents own := by
  unfold applied at h
  split at h
  · exact .inl (pure_eq_ok_iff.1 h).symm
  · obtain ⟨own, -, hs⟩ := bind_eq_ok_iff.1 h
    exact .inr ⟨own, (pure_eq_ok_iff.1 hs).symm⟩

theorem inner_eq_of_applied {s : List (List Char)} {frames : Bool} {q : List (List Char)}
    (hs : applied engine scope parents r = .ok s) (hq : inner engine scope parents r = .ok (frames, q)) :
    q = if frames then [] else s := by
  unfold applied at hs
  unfold inner at hq
  cases hat : atRule? r.selectors with
  | some pre =>
    simp only [hat, Option.isSome_some, if_true, pure_eq_ok_iff] at hs hq
    obtain ⟨pre', -, hq⟩ := bind_eq_ok_iff.1 hq
    simp only [pure_eq_ok_iff, Prod.mk.injEq] at hq
    rw [← hq.1, ← hq.2, hs]
  | none =>
    simp only [hat, Option.isSome_none, Bool.false_eq_true, if_false] at hs hq
    rw [hs, ok_bind, pure_eq_ok_iff, Prod.mk.injEq] at hq
    rw [← hq.1, ← hq.2]
    rfl

/-- All that a rule can do when it is compiled: its blocks are for what applies in it, the others are its children's,
and blocks among frames are in an animation. -/
theorem compile_cases (h : compile engine scope parents r = .ok items) :
    ∃ s frames q held, applied engine scope parents r = .ok s ∧ inner engine scope parents r = .ok (frames, q) ∧
      compileAll engine scope q r.children = .ok held ∧
      ∀ enter, ∀ t ∈ Css.selectorsAll enter items,
        (t ∈ s ∨ t ∈ Css.selectorsAll enter held) ∧
          (frames = true → ∃ pre, isKeyframes pre = true ∧ enter pre = true) := by
  obtain ⟨selectors, body, children⟩ := r
  cases hat : atRule? selectors with
  | some pre =>
    simp only [compile, hat, bind_eq_ok_iff, pure_eq_ok_iff] at h
    obtain ⟨pre', hpre, declarations, -, held, hheld, rfl⟩ := h
    refine ⟨parents, isKeyframes pre', _, held, ?_, ?_, hheld, ?_⟩
    · simp [applied, Rule.selectors, hat]
    · simp [inner, Rule.selectors, hat, hpre]
    · intro enter t ht
      -- the declarations of an at-rule make a block only if there are selectors around it
      by_cases hp : parents = []
      · simp only [hp, if_true] at ht
        obtain ⟨henter, hth⟩ := mem_selectorsAll_atRule ht
        exact ⟨.inr hth, fun hk => ⟨pre', hk, henter⟩⟩
      · simp only [hp, if_false] at ht
        obtain ⟨henter, hth⟩ := mem_selectorsAll_atRule ht
        rw [Css.selectorsAll_append, List.mem_append] at hth
        exact ⟨hth.imp_left mem_selectorsAll_blocks, fun hk => ⟨pre', hk, henter⟩⟩
  | none =>
    rw [compile_of_ordinary engine scope parents hat] at h
    simp only [bind_eq_ok_iff, pure_eq_ok_iff] at h
    obtain ⟨s, hs, declarations, -, held, hheld, rfl⟩ := h
    refine ⟨s, false, s, held, ?_, ?_, hheld, ?_⟩
    · simp [applied, Rule.selectors, hat, hs]
    · simp [inner, Rule.selectors, hat, hs]
    · intro enter t ht
      rw [Css.selectorsAll_append, List.mem_append] at ht
      exact ⟨ht.imp_left mem_selectorsAll_blocks, by simp⟩

end Step

/-! ### Trees of rules -/

section Tree

variable {scope : Scope}

/-- `d` is `r` or inside it, and compiled below `q` if `r` is compiled below `parents`; `framed` tells whether there is
an animation around it in `r`. -/
inductive Below (engine : Template.Engine ε) (scope : Scope) (parents : List (List Char)) (r : Rule) :
    (framed : Bool) → (q : List (List Char)) → (d : Rule) → Prop
  | self : Below engine scope parents r false parents r
  | child {framed frames : Bool} {q q' : List (List Char)} {d c : Rule} (h : Below engine scope parents r framed q d)
      (hq' : inner engine scope q d = .ok (frames, q')) (hc : c ∈ d.children) :
      Below engine scope parents r (framed || frames) q' c

/-- A condition on the selectors around a rule that holds in the rule too, and then of its selectors; where it need not
hold among frames, these are not entered. -/
structure Carried (engine : Template.Engine ε) (scope : Scope) (enter : Css.Text → Bool)
    (around : List (List Char) → Prop) (holds : List Char → Prop) : Prop where
  of_applied {parents : List (List Char)} {r : Rule} {s : List (List Char)} :
    around parents → applied engine scope parents r = .ok s → around s ∧ ∀ t ∈ s, holds t
  of_frames : around [] ∨ ∀ pre, isKeyframes pre = true → enter pre = false

variable {enter : Css.Text → Bool} {around : List (List Char) → Prop} {holds : List Char → Prop}

theorem around_inner {parents s q : List (List Char)} {r : Rule} {frames : Bool}
    (hs : applied engine scope parents r = .ok s) (has : around s) (hq : inner engine scope parents r = .ok (frames, q))
    (hframes : frames = true → around []) : around q := by
  rw [inner_eq_of_applied hs hq]
  cases frames with
  | false => exact has
  | true => exact hframes rfl

mutual

theorem Carried.compile (h : Carried engine scope enter around holds) :
    (parents s : List (List Char)) → (r : Rule) → (items : List Css.Item) → applied engine scope parents r = .ok s →
      around s → (∀ t ∈ s, holds t) → Rule.compile engine scope parents r = .ok items →
      ∀ t ∈ Css.selectorsAll enter items, holds t
  | parents, s, ⟨selectors, body, children⟩, items, hs, has, hsel, hr => by
    obtain ⟨s', frames, q, held, hs', hq, hheld, hcases⟩ := compile_cases hr
    obtain rfl : s = s' := Except.ok.inj (hs.symm.trans hs')
    intro t ht
    obtain ⟨hts | hth, hframes⟩ := hcases enter t ht
    · exact hsel t hts
    · -- there is a selector, so the frames have been entered
      have haq : around q := around_inner hs has hq fun hf => by
        obtain ⟨pre, hk, henter⟩ := hframes hf
        rcases h.of_frames with hnil | hskip
        · exact hnil
        · rw [hskip pre hk] at henter
          cases henter
      exact h.compileAll q children held haq hheld t hth

theorem Carried.compileAll (h : Carried engine scope enter around holds) :
    (parents : List (List Char)) → (rs : List Rule) → (items : List Css.Item) → around parents →
      Rule.compileAll engine scope parents rs = .ok items → ∀ t ∈ Css.selectorsAll enter items, holds t
  | _, [], items, _, hrs => by
    rw [Rule.compileAll, pure_eq_ok_iff] at hrs
    simp [← hrs, Css.selectorsAll]
  | parents, r :: rs, items, ha, hrs => by
    simp only [Rule.compileAll, bind_eq_ok_iff, pure_eq_ok_iff] at hrs
    obtain ⟨first, hfirst, more, hmore, rfl⟩ := hrs
    intro t ht
    rw [Css.selectorsAll_append, List.mem_append] at ht
    rcases ht with ht | ht
    · obtain ⟨s, -, -, -, hs, -⟩ := compile_cases hfirst
      obtain ⟨has, hsel⟩ := h.of_applied ha hs
      exact h.compile parents s r first hs has hsel hfirst t ht
    · exact h.compileAll parents rs more ha hmore t ht

end

theorem exists_compile_of_mem {parents : List (List Char)} {rs : List Rule} {items : List Css.Item}
    (h : compileAll engine scope parents rs = .ok items) {r : Rule} (hr : r ∈ rs) :
    ∃ own, Rule.compile engine scope parents r = .ok own := by
  induction rs generalizing items with
  | nil => cases hr
  | cons r' rs ih =>
    simp only [compileAll, bind_eq_ok_iff, pure_eq_ok_iff] at h
    obtain ⟨first, hfirst, more, hmore, -⟩ := h
    rcases List.mem_cons.1 hr with rfl | hr
    · exact ⟨first, hfirst⟩
    · exact ih hmore hr

variable {parents : List (List Char)} {r : Rule} {items : List Css.Item} {framed : Bool} {q : List (List Char)}
  {d : Rule}

/-- Where a rule is compiled, all that is inside it is. -/
theorem Below.exists_compile (h : Below engine scope parents r framed q d)
    (hr : compile engine scope parents r = .ok items) : ∃ own, compile engine scope q d = .ok own := by
  induction h with
  | self => exact ⟨items, hr⟩
  | child _ hq' hc ih =>
    obtain ⟨own, hown⟩ := ih
    obtain ⟨s, frames', q'', held, -, hq'', hheld, -⟩ := compile_cases hown
    cases hq'.symm.trans hq''
    exact exists_compile_of_mem hheld hc

theorem Carried.below (h : Carried engine scope enter around holds)
    (hr : Rule.compile engine scope parents r = .ok items) {s : List (List Char)}
    (hs : applied engine scope parents r = .ok s) (has : around s) (hd : Below engine scope parents r framed q d)
    (hframed : framed = true → around []) :
    (q = parents ∨ around q) ∧ ∃ t, applied engine scope q d = .ok t ∧ around t := by
  induction hd with
  | self => exact ⟨.inl rfl, s, hs, has⟩
  | @child framed frames q q' d c hd hq' hc ih =>
    obtain ⟨-, t, ht, hat⟩ := ih fun hf => hframed (by rw [hf, Bool.true_or])
    have haq : around q' := around_inner ht hat hq' fun hf => hframed (by rw [hf, Bool.or_true])
    obtain ⟨own, hown⟩ := (Below.child hd hq' hc).exists_compile hr
    obtain ⟨t', -, -, -, ht', -⟩ := compile_cases hown
    exact ⟨.inr haq, t', ht', (h.of_applied haq ht').1⟩

/-! ### What is carried -/

theorem carried_noAmpersand (enter : Css.Text → Bool) :
    Carried engine scope enter (fun selectors => ∀ t ∈ selectors, '&' ∉ t) ('&' ∉ ·) where
  of_applied {parents r s} hp hs := by
    have hall : ∀ t ∈ s, '&' ∉ t := by
      rcases eq_or_eq_resolve_of_applied hs with rfl | ⟨own, rfl⟩
      · exact hp
      · exact Selector.not_mem_of_mem_resolve hp
    exact ⟨hall, hall⟩
  of_frames := .inl (by simp)

theorem carried_covers (outer : List (List Char)) :
    Carried engine scope (fun pre => !isKeyframes pre)
      (fun selectors => selectors ≠ [] ∧ ∀ t ∈ selectors, Selector.Covers outer t) (Selector.Covers outer) where
  of_applied {parents r s} hp hs := by
    have hall : s ≠ [] ∧ ∀ t ∈ s, Selector.Covers outer t := by
      rcases eq_or_eq_resolve_of_applied hs with rfl | ⟨own, rfl⟩
      · exact hp
      · exact ⟨Selector.resolve_ne_nil hp.1, fun t ht => (Selector.covers_of_mem_resolve hp.1 t ht).trans hp.2⟩
    exact ⟨hall, hall.2⟩
  of_frames := .inr (by simp)

end Tree

/-! ### Blocks under a class prefix -/

/-- A name that stands in a selector as it is. -/
structure IsPlainName (name : List Char) : Prop where
  plain : ∀ c ∈ name, c ∉ [',', '"', '\'', '(', ')', '[', ']', '&', '\x7b']
  trimmed : Text.trim name = name

end Rule

theorem Selector.segments_plain {s : List Char} (h : ∀ c ∈ s, c ∉ [',', '"', '\'', '(', ')', '[', ']']) :
    segments {} s = [s] := by
  induction s with
  | nil => rfl
  | cons c s ih =>
    have hc := h c List.mem_cons_self
    simp only [List.mem_cons, List.not_mem_nil, or_false, not_or] at hc
    have hstep : Scan.step {} c = {} := by simp [Scan.step, hc]
    simp [segments, hc.1, hstep, ih fun d hd => h d (List.mem_cons_of_mem c hd)]

theorem Selector.splitGroup_plain {s : List Char} (h : ∀ c ∈ s, c ∉ [',', '"', '\'', '(', ')', '[', ']'])
    (hs : Text.IsTrimmed s) (hne : s ≠ []) : splitGroup s = [s] := by
  simp [splitGroup, segments_plain h, hs.trim_eq, hne]

theorem Selector.fill_eq_self {s : List Char} (hs : '&' ∉ s) (parent : List Char) : fill parent s = s := by
  induction s with
  | nil => rfl
  | cons c s ih =>
    rw [List.mem_cons, not_or] at hs
    have hrest := ih hs.2
    simp only [fill, List.flatMap_cons] at hrest ⊢
    rw [hrest, if_neg (Ne.symm hs.1), List.singleton_append]

/-- A selector without `&` is a descendant of each parent. -/
theorem Selector.resolve_single {s : List Char} (hamp : '&' ∉ s) (hs : Text.IsTrimmed s) (hne : s ≠ [])
    (parents : List (List Char)) :
    resolve parents [s] = if parents = [] then [s] else parents.map fun p => p ++ ' ' :: s := by
  by_cases h : parents = []
  · simp [resolve, h, fill_eq_self hamp, hs.trim_eq, hne]
  · rw [resolve, if_neg (List.cons_ne_nil _ _), if_neg h, if_neg h, List.map_eq_flatMap]
    simp [under, hamp]

namespace Rule

section Block

variable {name : List Char} {clsPrefix : String}

/-- In front of a plain name, a text that starts and ends in no blank makes a trimmed text. -/
theorem IsPlainName.isTrimmed_append (h : IsPlainName name) {pre : List Char} (hpre : Text.IsTrimmed pre)
    (hne : pre ≠ []) : Text.IsTrimmed (pre ++ name) where
  head := by
    obtain ⟨c, s, rfl⟩ := List.exists_cons_of_ne_nil hne
    simpa using hpre.head
  last := by
    intro c hc
    by_cases hname : name = []
    · rw [hname, List.append_nil] at hc
      exact hpre.last c hc
    · rw [Option.mem_def, List.getLast?_append_of_ne_nil _ hname] at hc
      exact (Text.isTrimmed_iff.2 h.trimmed).last c hc

theorem IsPlainName.isTrimmed_placeholder_append (h : IsPlainName name) :
    Text.IsTrimmed (placeholder.toList ++ name) :=
  h.isTrimmed_append Pattern.isTrimmed_placeholder (by decide)

theorem atRule?_placeholder_append (h : IsPlainName name) : atRule? [placeholder ++ String.ofList name] = none := by
  have htext : (placeholder ++ String.ofList name).toList = placeholder.toList ++ name := by simp
  simp only [atRule?, htext, h.isTrimmed_placeholder_append.trim_eq]
  rfl

theorem parts_placeholder_append (h : IsPlainName name) :
    parts [placeholder ++ String.ofList name] = [placeholder.toList ++ name] := by
  have htext : (placeholder ++ String.ofList name).toList = placeholder.toList ++ name := by simp
  have hplaceholder : ∀ c ∈ placeholder.toList, c ∉ [',', '"', '\'', '(', ')', '[', ']'] :=
    List.all_iff_forall_prop.1 (by decide)
  have hplain : ∀ c ∈ placeholder.toList ++ name, c ∉ [',', '"', '\'', '(', ')', '[', ']'] := by
    intro c hc
    rcases List.mem_append.1 hc with hc | hc
    · exact hplaceholder c hc
    · have hall := h.plain c hc
      simp only [List.mem_cons, List.not_mem_nil, or_false, not_or] at hall ⊢
      simp [hall]
  simp only [parts, List.flatMap_singleton, htext]
  exact Selector.splitGroup_plain hplain h.isTrimmed_placeholder_append (by simp [placeholder])

theorem expand_placeholder_append (h : IsPlainName name) (hprints : engine.PrintsPrefix) (clsPrefix : String) :
    (Scope.ofPrefix clsPrefix).expand engine (placeholder.toList ++ name) =
      .ok (Scope.classStart clsPrefix ++ name) := by
  have hbrace : some '{' ∉ none :: name.map some := by
    simpa using fun hmem => absurd (h.plain '{' hmem) (by decide)
  have hfill := Scope.expand_ofPrefix_fill hprints clsPrefix hbrace
  have hsource : Pattern.fill placeholder.toList (none :: name.map some) = placeholder.toList ++ name := by simp
  have htrimmed : Text.IsTrimmed (Pattern.fill placeholder.toList (none :: name.map some)) :=
    hsource ▸ h.isTrimmed_placeholder_append
  rw [Pattern.dropLastBreak_of_isTrimmed Pattern.endsSolid_placeholder htrimmed, hsource] at hfill
  rw [hfill]
  simp

/-- The selector of a block is its class. -/
theorem applied_block (h : IsPlainName name) (hprints : engine.PrintsPrefix) (hp : '&' ∉ clsPrefix.toList)
    (parents : List (List Char)) (body : Body) (children : List Rule) :
    let cls := Scope.classStart clsPrefix ++ name
    applied engine (.ofPrefix clsPrefix) parents (block (String.ofList name) body children) =
      .ok (if parents = [] then [cls] else parents.map fun p => p ++ ' ' :: cls) := by
  intro cls
  have hcls : Text.IsTrimmed cls :=
    h.isTrimmed_append (Scope.isTrimmed_classStart clsPrefix) (by simp [Scope.classStart])
  have hamp : '&' ∉ cls := by
    have hname : '&' ∉ name := fun hmem => absurd (h.plain '&' hmem) (by decide)
    simp [cls, Scope.classStart, hp, hname]
  have hne : cls ≠ [] := by simp [cls, Scope.classStart]
  simp only [applied, block, Rule.selectors, atRule?_placeholder_append h, Option.isSome_none, Bool.false_eq_true,
    if_false, resolved, parts_placeholder_append h, List.mapM_cons, List.mapM_nil,
    expand_placeholder_append h hprints clsPrefix, ok_bind, pure_bind]
  rw [Selector.resolve_single hamp hcls hne, pure_eq_ok_iff]

theorem covers_block (h : IsPlainName name) (hprints : engine.PrintsPrefix) (hp : '&' ∉ clsPrefix.toList)
    {parents : List (List Char)} {body : Body} {children : List Rule} {items : List Css.Item}
    (hitems : compile engine (.ofPrefix clsPrefix) parents (block (String.ofList name) body children) = .ok items) :
    ∀ s ∈ Css.openSelectors items, Scope.classStart clsPrefix ++ name <:+: s := by
  have hs := applied_block h hprints hp parents body children
  have hcovers : ∀ t, Selector.Covers [Scope.classStart clsPrefix ++ name] t ↔
      Scope.classStart clsPrefix ++ name <:+: t := by
    simp [Selector.Covers]
  have haround : ∀ t ∈ (if parents = [] then [Scope.classStart clsPrefix ++ name]
      else parents.map fun p => p ++ ' ' :: (Scope.classStart clsPrefix ++ name)),
      Selector.Covers [Scope.classStart clsPrefix ++ name] t := by
    intro t ht
    rw [hcovers]
    split at ht
    · rw [List.mem_singleton.1 ht]
    · obtain ⟨p, -, rfl⟩ := List.mem_map.1 ht
      exact ((List.suffix_cons ' ' _).trans (List.suffix_append p _)).isInfix
  intro t ht
  refine (hcovers t).1 ((carried_covers _).compile _ _ _ items hs ⟨?_, haround⟩ haround hitems t ht)
  split
  · simp
  · simpa

end Block

/-! ### Style sheets -/

/-- Where rules compile, no selector around a rule, of a rule or of a block has an `&` left.  If a rule has selectors,
then so has all that is inside it but for what is among frames, and each of these contains one of the selectors of the
rule; in particular the blocks under a class prefix that the engine prints have their class in all selectors. -/
theorem render_scoped {scope : Scope} {roots : List Rule} {css : String} (h : render engine scope roots = .ok css) :
    (∃ items, compileAll engine scope [] roots = .ok items ∧ css = String.ofList (Css.writeAll items) ∧
      ∀ t ∈ Css.allSelectors items, '&' ∉ t) ∧
    ∀ root ∈ roots, ∀ framed parents r, Below engine scope [] root framed parents r →
      (∀ t ∈ parents, '&' ∉ t) ∧
      ∃ s items, applied engine scope parents r = .ok s ∧ compile engine scope parents r = .ok items ∧
        (∀ t ∈ s, '&' ∉ t) ∧ (∀ t ∈ Css.allSelectors items, '&' ∉ t) ∧
        (s ≠ [] →
          (∀ t ∈ Css.openSelectors items, ∃ p ∈ s, p <:+: t) ∧
          ∀ q d, Below engine scope parents r false q d →
            ∃ t, applied engine scope q d = .ok t ∧ t ≠ [] ∧ ∀ u ∈ t, ∃ p ∈ s, p <:+: u) ∧
        (engine.PrintsPrefix →
          ∀ clsPrefix name body children, scope = .ofPrefix clsPrefix → '&' ∉ clsPrefix.toList →
          IsPlainName name.toList → r = block name body children →
          ∀ t ∈ Css.openSelectors items, ("." ++ clsPrefix ++ "-" ++ name).toList <:+: t) := by
  rw [render_eq, map_eq_ok_iff] at h
  obtain ⟨all, hall, hcss⟩ := h
  have hno := @carried_noAmpersand ε engine scope fun _ => true
  refine ⟨⟨all, hall, hcss.symm, hno.compileAll [] roots all (by simp) hall⟩, ?_⟩
  intro root hroot framed parents r hbelow
  obtain ⟨rootItems, hrootItems⟩ := exists_compile_of_mem hall hroot
  obtain ⟨rootSelectors, -, -, -, hrootSelectors, -⟩ := compile_cases hrootItems
  obtain ⟨items, hitems⟩ := hbelow.exists_compile hrootItems
  have hrootNo := (hno.of_applied (by simp) hrootSelectors).1
  obtain ⟨hparents, s, hs, hsNo⟩ := hno.below hrootItems hrootSelectors hrootNo hbelow (by simp)
  have hparentsNo : ∀ t ∈ parents, '&' ∉ t := by
    rcases hparents with rfl | h
    · simp
    · exact h
  refine ⟨hparentsNo, s, items, hs, hitems, hsNo, hno.compile _ _ _ items hs hsNo hsNo hitems, ?_, ?_⟩
  · -- the selectors of the rule contain themselves, which is carried to all that is inside it
    intro hne
    have hcovers := @carried_covers ε engine scope s
    have haround : s ≠ [] ∧ ∀ t ∈ s, Selector.Covers s t := ⟨hne, fun t => Selector.covers_of_mem⟩
    refine ⟨hcovers.compile _ _ _ items hs haround haround.2 hitems, ?_⟩
    intro q d hd
    obtain ⟨-, t, ht, htAround⟩ := hcovers.below hitems hs haround hd (by simp)
    exact ⟨t, ht, htAround⟩
  · rintro hprints clsPrefix name body children rfl hp hname rfl t ht
    rw [String.toList_append, Scope.toList_classStart]
    rw [← String.ofList_toList (s := name)] at hitems
    exact covers_block hname hprints hp hitems t ht

/-- A block with a comma group, an at-rule and an animation in it. -/
theorem render_scoped_card :
    let card := block "card" .empty [
      mk ["&:hover, b"] (.raw "a: b;") [],
      mk ["@media print"] (.raw "c: d;") [mk ["@keyframes k"] .empty [mk ["to"] (.raw "e: f;") []]]]
    render partialEngine (.ofPrefix "n") [card] = .ok (String.join [
      ".n-card:hover,\n.n-card b \x7b\n  a: b;\n\x7d\n\n",
      "@media print \x7b\n  .n-card \x7b\n    c: d;\n  \x7d\n\n",
      "  @keyframes k \x7b\n    to \x7b\n      e: f;\n    \x7d\n  \x7d\n\x7d\n"]) ∧
    ∃ items, compile partialEngine (.ofPrefix "n") [] card = .ok items ∧
      ∀ t ∈ Css.openSelectors items, ".n-card".toList <:+: t := by
  intro card
  have h : render partialEngine (.ofPrefix "n") [card] = .ok (String.join [
      ".n-card:hover,\n.n-card b \x7b\n  a: b;\n\x7d\n\n",
      "@media print \x7b\n  .n-card \x7b\n    c: d;\n  \x7d\n\n",
      "  @keyframes k \x7b\n    to \x7b\n      e: f;\n    \x7d\n  \x7d\n\x7d\n"]) := by
    decide +kernel
  obtain ⟨-, s, items, -, hitems, -, -, -, hblock⟩ := (render_scoped h).2 card (by simp) false [] card .self
  have hname : IsPlainName "card".toList := ⟨List.all_iff_forall_prop.1 (by decide), by decide⟩
  exact ⟨h, items, hitems, hblock printsPrefix_partialEngine "n" "card" _ _ rfl (by decide) hname rfl⟩

end Rule

end Theming
