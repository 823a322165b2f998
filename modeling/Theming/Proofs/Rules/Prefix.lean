import Theming.Proofs.Failure
import Theming.Proofs.Rules.Groups
import Theming.Proofs.Template.Printing
import Theming.Rule.Compile

/-!
# Class prefixes

Under a class prefix the texts of rules are expanded one by one: selectors after their comma groups are taken apart,
preludes after they are trimmed, texts of declarations before they are cut into lines.  For texts that are plain but
for placeholders it makes no difference to put the start of the class selectors for every placeholder first, and then
to compile the rules without a prefix, if the engine prints the prefix (`render_classPrefix`).
-/

namespace Theming

open Template (partialEngine printsPrefix_partialEngine)

variable {ε : Type} {engine : Template.Engine ε}

/-! ### Replacing the placeholder -/

/-- The text with a value for every placeholder, from left to right; the first `skip` characters belong to a
placeholder that has been replaced. -/
def replaceFrom (value : List Char) (skip : Nat) : List Char → List Char
  | [] => []
  | c :: rest =>
    match skip with
    | skip + 1 => replaceFrom value skip rest
    | 0 =>
      if Rule.placeholder.toList.isPrefixOf (c :: rest) then
        value ++ replaceFrom value (Rule.placeholder.length - 1) rest
      else c :: replaceFrom value 0 rest

def replacePlaceholder (value s : String) : String := String.ofList (replaceFrom value.toList 0 s.toList)

theorem replaceFrom_fill {t : Pattern} (ht : some '{' ∉ t) (value : List Char) :
    replaceFrom value 0 (t.fill Rule.placeholder.toList) = t.fill value := by
  induction t with
  | nil => rfl
  | cons c t ih =>
    rw [List.mem_cons, not_or] at ht
    have hrest := ih ht.2
    cases c with
    | none =>
      have hskip : ∀ rest, replaceFrom value 0 (Rule.placeholder.toList ++ rest) = value ++ replaceFrom value 0 rest :=
        fun rest => rfl
      rw [Pattern.fill_none_cons, hskip, hrest, Pattern.fill_none_cons]
    | some c =>
      have hc : ¬Rule.placeholder.toList.isPrefixOf (c :: Pattern.fill Rule.placeholder.toList t) = true := by
        intro h
        obtain ⟨u, hu⟩ := List.isPrefixOf_iff_prefix.1 h
        exact ht.1 (congrArg some (List.cons.inj hu).1)
      rw [Pattern.fill_some_cons, replaceFrom, if_neg hc, hrest, Pattern.fill_some_cons]

def Token.mapText (f : String → String) : Token → Token
  | .text s => .text (f s)
  | t => t

def Body.mapTexts (f : String → String) : Body → Body
  | .empty => .empty
  | .props ps => .props (ps.map fun p => (p.1, p.2.mapText f))
  | .raw s => .raw (f s)

mutual

/-- The rule with other texts: its selectors, its declarations if they are one text, and values that are texts. -/
def Rule.mapTexts (f : String → String) : Rule → Rule
  | .mk selectors body children => .mk (selectors.map f) (body.mapTexts f) (Rule.mapTextsAll f children)

def Rule.mapTextsAll (f : String → String) : List Rule → List Rule
  | [] => []
  | r :: rs => r.mapTexts f :: Rule.mapTextsAll f rs

end

/-! ### Plain rules -/

/-- The text is plain but for placeholders. -/
def IsPlainTemplate (s : String) : Prop :=
  ∃ t : Pattern, some '{' ∉ t ∧ some '}' ∉ t ∧ s.toList = t.fill Rule.placeholder.toList

/-- All texts are plain but for placeholders, and the values that are texts meet a condition. -/
inductive Body.IsPlain (value : String → Prop) : Body → Prop
  | empty : IsPlain value .empty
  | props {ps : List (String × Token)} (h : ∀ name s, (name, Token.text s) ∈ ps → IsPlainTemplate s ∧ value s) :
      IsPlain value (.props ps)
  | raw {s : String} (h : IsPlainTemplate s) : IsPlain value (.raw s)

inductive Rule.IsPlain (value : String → Prop) : Rule → Prop
  | mk {selectors : List String} {body : Body} {children : List Rule} (hselectors : ∀ s ∈ selectors, IsPlainTemplate s)
      (hbody : body.IsPlain value) (hchildren : ∀ r ∈ children, IsPlain value r) :
      IsPlain value (.mk selectors body children)

/-- The text ends in no line feed, and in no carriage return where it is a template. -/
def EndsInNoBreak (s : String) : Prop :=
  s.toList.getLast? ≠ some '\n' ∧ (Rule.placeholder.toList <:+: s.toList → s.toList.getLast? ≠ some '\r')

/-! ### Expanding -/

/-- What stands in a class name. -/
def IsClassPrefix (clsPrefix : String) : Prop := ∀ c ∈ clsPrefix.toList, c.isAlphanum ∨ c = '-' ∨ c = '_'

instance (clsPrefix : String) : Decidable (IsClassPrefix clsPrefix) :=
  List.decidableBAll _ _

theorem IsClassPrefix.plain {clsPrefix : String} (h : IsClassPrefix clsPrefix) :
    ∀ c ∈ Scope.classStart clsPrefix, c ∉ [',', '"', '\'', '(', ')', '[', ']', '\\', '@', '{'] := by
  intro c hc
  simp only [Scope.classStart, List.cons_append, List.mem_cons, List.mem_append, List.not_mem_nil, or_false] at hc
  rcases hc with rfl | hc | rfl
  · decide
  · intro hmem
    have hall : ∀ d ∈ [',', '"', '\'', '(', ')', '[', ']', '\\', '@', '{'], ¬(d.isAlphanum ∨ d = '-' ∨ d = '_') :=
      List.all_iff_forall_prop.1 (by decide)
    exact hall c hmem (h c hc)
  · decide

theorem IsClassPrefix.isInert {clsPrefix : String} (h : IsClassPrefix clsPrefix) :
    IsInert (Scope.classStart clsPrefix) where
  ne_nil := List.cons_ne_nil _ _
  trimmed := Scope.isTrimmed_classStart clsPrefix
  plain := by
    intro c hc hmem
    exact h.plain c hc (List.mem_append_left ['{'] hmem)

theorem Pattern.not_mem_fill {c : Char} {gap : List Char} (hgap : c ∉ gap) {t : Pattern} (ht : some c ∉ t) :
    c ∉ t.fill gap := by
  intro h
  obtain ⟨d, hd, hc⟩ := List.mem_flatMap.1 h
  cases d with
  | none => exact hgap hc
  | some d => exact ht (List.mem_singleton.1 hc ▸ hd)

/-- What is put for the placeholder. -/
def classText (clsPrefix : String) : String := "." ++ clsPrefix ++ "-"

theorem toList_classText (clsPrefix : String) : (classText clsPrefix).toList = Scope.classStart clsPrefix :=
  Scope.toList_classStart clsPrefix

section Expand

variable {clsPrefix : String} {t : Pattern}

theorem toList_replacePlaceholder {s : String} (ht : some '{' ∉ t) (hs : s.toList = t.fill Rule.placeholder.toList) :
    (replacePlaceholder (classText clsPrefix) s).toList = t.fill (Scope.classStart clsPrefix) := by
  rw [replacePlaceholder, String.toList_ofList, hs, replaceFrom_fill ht, toList_classText]

theorem expand_filled (hp : IsClassPrefix clsPrefix) (ht : some '{' ∉ t) (scope : Scope) :
    scope.expand engine (t.fill (Scope.classStart clsPrefix)) = .ok (t.fill (Scope.classStart clsPrefix)) :=
  have hbrace := Pattern.not_mem_fill (fun h => hp.plain '{' h (by decide)) ht
  (Template.IsUntagged.of_not_mem hbrace).expand_eq engine scope

theorem expand_trimmed (hprints : engine.PrintsPrefix) (ht : some '{' ∉ t)
    (htrim : Text.IsTrimmed (t.fill Rule.placeholder.toList)) :
    (Scope.ofPrefix clsPrefix).expand engine (t.fill Rule.placeholder.toList) =
      .ok (t.fill (Scope.classStart clsPrefix)) := by
  rw [Scope.expand_ofPrefix_fill hprints clsPrefix ht,
    Pattern.dropLastBreak_of_isTrimmed Pattern.endsSolid_placeholder htrim, ite_self]

end Expand

/-! ### Declarations -/

section Body

variable {clsPrefix : String} (hprints : engine.PrintsPrefix) (hp : IsClassPrefix clsPrefix)
include hprints hp

theorem agree_text {s : String} (hs : IsPlainTemplate s) (hend : EndsInNoBreak s) :
    Agree ((Scope.ofPrefix clsPrefix).expand engine s.toList)
      (Scope.expand engine {} (replacePlaceholder (classText clsPrefix) s).toList) := by
  obtain ⟨t, ht, -, hfill⟩ := hs
  refine ⟨t.fill (Scope.classStart clsPrefix), ?_, ?_⟩
  · rw [hfill, Scope.expand_ofPrefix_fill hprints clsPrefix ht]
    -- without a placeholder the value is no template, and keeps its end
    split
    · rename_i hgap
      have hplaceholder := hend.2 (by rw [hfill]; exact Pattern.infix_fill hgap)
      rw [hfill] at hplaceholder
      rw [Pattern.dropLastBreak_of_getLast? Pattern.endsSolid_placeholder (by rw [← hfill]; exact hend.1) hplaceholder]
    · rfl
  · rw [toList_replacePlaceholder ht hfill, expand_filled hp ht]

theorem agree_declarations {body : Body} (h : body.IsPlain EndsInNoBreak) :
    Agree (body.declarations engine (.ofPrefix clsPrefix))
      ((body.mapTexts (replacePlaceholder (classText clsPrefix))).declarations engine {}) := by
  cases h with
  | empty => exact .ok []
  | raw hs =>
    obtain ⟨t, ht, -, hfill⟩ := hs
    refine ⟨Body.trimmedLines (t.fill (Scope.classStart clsPrefix)), ?_, ?_⟩
    · rw [Body.declarations, hfill, Scope.expand_ofPrefix_fill hprints clsPrefix ht, ok_bind, pure_eq_ok_iff]
      -- a line break that the template loses would have been trimmed away
      split
      · rw [Pattern.fill_dropLastBreak hp.isInert.endsSolid, Text.trimmedLines_dropLastBreak]
      · rfl
    · rw [Body.mapTexts, Body.declarations, toList_replacePlaceholder ht hfill, expand_filled hp ht]
      rfl
  | props hall =>
    rw [Body.mapTexts, Body.declarations, Body.declarations, List.mapM_map]
    refine .mapM fun p hmem => ?_
    obtain ⟨name, token⟩ := p
    have hvalue : Agree (Body.value engine (.ofPrefix clsPrefix) token)
        (Body.value engine {} (token.mapText (replacePlaceholder (classText clsPrefix)))) := by
      cases token with
      | flag b => exact .ok _
      | number x => exact .ok _
      | text s => exact agree_text hprints hp (hall name s hmem).1 (hall name s hmem).2
    exact hvalue.bind fun s => .ok _

end Body

/-! ### Selectors -/

section Selectors

variable {clsPrefix : String} (hprints : engine.PrintsPrefix) (hp : IsClassPrefix clsPrefix)
include hprints hp

theorem agree_atRule? {selectors : List String} (h : ∀ s ∈ selectors, IsPlainTemplate s) :
    (∃ pre pre', Rule.atRule? selectors = some pre ∧
      Rule.atRule? (selectors.map (replacePlaceholder (classText clsPrefix))) = some pre' ∧
      Agree ((Scope.ofPrefix clsPrefix).expand engine pre) (Scope.expand engine {} pre')) ∨
    Rule.atRule? selectors = none ∧
      Rule.atRule? (selectors.map (replacePlaceholder (classText clsPrefix))) = none := by
  match selectors with
  | [] => exact .inr ⟨rfl, rfl⟩
  | _ :: _ :: _ => exact .inr ⟨rfl, rfl⟩
  | [s] =>
    obtain ⟨t, ht, -, hfill⟩ := h s (List.mem_singleton_self s)
    obtain ⟨u, hu, htrim⟩ := t.exists_trim
    have hsource := htrim _ isInert_placeholder
    have htarget := htrim _ hp.isInert
    simp only [Rule.atRule?, List.map_cons, List.map_nil, toList_replacePlaceholder ht hfill, hfill, hsource, htarget]
    simp only [isInert_placeholder.head?_fill_eq_at_iff, hp.isInert.head?_fill_eq_at_iff]
    split
    · refine .inl ⟨_, _, rfl, rfl, u.fill (Scope.classStart clsPrefix), ?_, ?_⟩
      · exact expand_trimmed hprints (fun hmem => ht (hu hmem)) (hsource ▸ Text.isTrimmed_trim _)
      · exact expand_filled hp (fun hmem => ht (hu hmem)) _
    · exact .inr ⟨rfl, rfl⟩

theorem agree_parts {selectors : List String} (h : ∀ s ∈ selectors, IsPlainTemplate s) :
    Agree ((Rule.parts selectors).mapM ((Scope.ofPrefix clsPrefix).expand engine))
      ((Rule.parts (selectors.map (replacePlaceholder (classText clsPrefix)))).mapM (Scope.expand engine {})) := by
  induction selectors with
  | nil => exact .ok []
  | cons s selectors ih =>
    obtain ⟨t, ht, -, hfill⟩ := h s List.mem_cons_self
    obtain ⟨us, hus, hsplit⟩ := Selector.exists_splitGroup t
    have hsource := hsplit _ isInert_placeholder
    have hgroup : Agree ((Selector.splitGroup s.toList).mapM ((Scope.ofPrefix clsPrefix).expand engine))
        ((Selector.splitGroup (replacePlaceholder (classText clsPrefix) s).toList).mapM (Scope.expand engine {})) := by
      rw [toList_replacePlaceholder ht hfill, hfill, hsource, hsplit _ hp.isInert, List.mapM_map, List.mapM_map]
      refine .mapM fun u hu => ⟨u.fill (Scope.classStart clsPrefix), ?_, ?_⟩
      · have hmem : u.fill Rule.placeholder.toList ∈ Selector.splitGroup (t.fill Rule.placeholder.toList) := by
          rw [hsource]
          exact List.mem_map_of_mem hu
        exact expand_trimmed hprints (fun hbrace => ht (hus u hu hbrace)) (Selector.isTrimmed_of_mem_splitGroup hmem)
      · exact expand_filled hp (fun hbrace => ht (hus u hu hbrace)) _
    rw [List.map_cons, Rule.parts, Rule.parts, List.flatMap_cons, List.flatMap_cons, List.mapM_append, List.mapM_append]
    exact hgroup.bind fun own => (ih fun d hd => h d (List.mem_cons_of_mem s hd)).bind fun more => .ok _

end Selectors

/-! ### Rules -/

namespace Rule

mutual

theorem agree_compile {clsPrefix : String} (hprints : engine.PrintsPrefix) (hp : IsClassPrefix clsPrefix) :
    (parents : List (List Char)) → (r : Rule) →
    r.IsPlain EndsInNoBreak →
    Agree (compile engine (.ofPrefix clsPrefix) parents r)
      (compile engine {} parents (r.mapTexts (replacePlaceholder (classText clsPrefix))))
  | parents, mk selectors body children, .mk hselectors hbody hchildren => by
    obtain ⟨pre, pre', hat, hat', hpre⟩ | ⟨hat, hat'⟩ := agree_atRule? hprints hp hselectors
    · simp only [compile, mapTexts, hat, hat']
      exact hpre.bind fun pre => (agree_declarations hprints hp hbody).bind fun declarations =>
        (agree_compileAll hprints hp _ children hchildren).bind fun items => .ok _
    · simp only [compile, mapTexts, hat, hat']
      exact (agree_parts hprints hp hselectors).bind fun own =>
        (agree_declarations hprints hp hbody).bind fun declarations =>
          (agree_compileAll hprints hp _ children hchildren).bind fun items => .ok _

theorem agree_compileAll {clsPrefix : String} (hprints : engine.PrintsPrefix) (hp : IsClassPrefix clsPrefix) :
    (parents : List (List Char)) → (rs : List Rule) → (∀ r ∈ rs, r.IsPlain EndsInNoBreak) →
    Agree (compileAll engine (.ofPrefix clsPrefix) parents rs)
      (compileAll engine {} parents (mapTextsAll (replacePlaceholder (classText clsPrefix)) rs))
  | parents, [], _ => .ok []
  | parents, r :: rs, h => by
    simp only [compileAll, mapTextsAll]
    exact (agree_compile hprints hp parents r (h r List.mem_cons_self)).bind fun items =>
      (agree_compileAll hprints hp parents rs fun d hd => h d (List.mem_cons_of_mem r hd)).bind fun more => .ok _

end

/-- Rules under a class prefix have a style sheet, and it is that of the rules in which the start of the class
selectors stands for every placeholder, compiled without a prefix.  This is for engines that print the prefix, and for
rules in which all texts that are expanded are plain but for placeholders, and in which no value would lose a line break
at its end. -/
theorem render_classPrefix (hprints : engine.PrintsPrefix) {clsPrefix : String} (hp : IsClassPrefix clsPrefix)
    {roots : List Rule} (hroots : ∀ r ∈ roots, r.IsPlain EndsInNoBreak) :
    ∃ css, render engine (.ofPrefix clsPrefix) roots = .ok css ∧
      render engine {} (mapTextsAll (replacePlaceholder ("." ++ clsPrefix ++ "-")) roots) = .ok css := by
  obtain ⟨items, hleft, hright⟩ := agree_compileAll hprints hp [] roots hroots
  rw [classText] at hright
  exact ⟨_, by rw [render, hleft]; rfl, by rw [render, hright]; rfl⟩

/-- Placeholders in a comma group, in a value and in what an at-rule holds. -/
theorem render_classPrefix_card :
    let card := mk [placeholder ++ "card, b " ++ placeholder ++ "e"]
      (.props [("animation", .text (placeholder ++ "fade 1s"))])
      [mk ["@media print"] (.raw "c: d;\n") [mk ["&:hover"] (.raw ("e: " ++ placeholder ++ ";")) []]]
    let css := String.join [
      ".n-card,\nb .n-e \x7b\n  animation: .n-fade 1s;\n\x7d\n\n",
      "@media print \x7b\n  .n-card,\n  b .n-e \x7b\n    c: d;\n  \x7d\n\n",
      "  .n-card:hover,\n  b .n-e:hover \x7b\n    e: .n-;\n  \x7d\n\x7d\n"]
    IsClassPrefix "n" ∧ card.IsPlain EndsInNoBreak ∧ render partialEngine (.ofPrefix "n") [card] = .ok css ∧
      render partialEngine {} (mapTextsAll (replacePlaceholder ".n-") [card]) = .ok css := by
  intro card css
  have hp : IsClassPrefix "n" := by decide
  have hplain : ∀ s : String, '{' ∉ s.toList → '}' ∉ s.toList → IsPlainTemplate s := fun s hopen hclose =>
    ⟨s.toList.map some, by simpa using hopen, by simpa using hclose, (Pattern.fill_map_some _ _).symm⟩
  have hcard : card.IsPlain EndsInNoBreak := by
    refine .mk ?_ (.props ?_) ?_
    · simp only [List.mem_singleton, forall_eq]
      exact ⟨none :: "card, b ".toList.map some ++ none :: "e".toList.map some, by decide, by decide, by decide⟩
    · simp only [List.mem_singleton, Prod.mk.injEq, Token.text.injEq]
      rintro name s ⟨-, rfl⟩
      exact ⟨⟨none :: "fade 1s".toList.map some, by decide, by decide, by decide⟩, by decide, fun _ => by decide⟩
    · simp only [List.mem_singleton, forall_eq]
      refine .mk (by simpa using hplain _ (by decide) (by decide)) (.raw (hplain _ (by decide) (by decide))) ?_
      simp only [List.mem_singleton, forall_eq]
      refine .mk (by simpa using hplain _ (by decide) (by decide)) (.raw ?_) (by simp)
      exact ⟨"e: ".toList.map some ++ none :: ";".toList.map some, by decide, by decide, by decide⟩
  have hcss : render partialEngine (.ofPrefix "n") [card] = .ok css := by decide +kernel
  have hroots : ∀ r ∈ [card], r.IsPlain EndsInNoBreak := by simpa using hcard
  obtain ⟨css', hleft, hright⟩ := render_classPrefix printsPrefix_partialEngine hp hroots
  obtain rfl : css = css' := Except.ok.inj (hcss.symm.trans hleft)
  exact ⟨hp, hcard, hcss, hright⟩

/-- Where a value is a template, it loses a carriage return at its end too. -/
theorem render_classPrefix_carriageReturn :
    let roots := [mk ["a"] (.props [("b", .text (placeholder ++ "\r"))]) []]
    IsClassPrefix "n" ∧ (∀ r ∈ roots, r.IsPlain fun s => s.toList.getLast? ≠ some '\n') ∧
      render partialEngine (.ofPrefix "n") roots = .ok "a \x7b\n  b: .n-;\n\x7d\n" ∧
      render partialEngine {} (mapTextsAll (replacePlaceholder ".n-") roots) = .ok "a \x7b\n  b: .n-\r;\n\x7d\n" ∧
      ¬∃ css, render partialEngine (.ofPrefix "n") roots = .ok css ∧
        render partialEngine {} (mapTextsAll (replacePlaceholder ".n-") roots) = .ok css := by
  intro roots
  have hleft : render partialEngine (.ofPrefix "n") roots = .ok "a \x7b\n  b: .n-;\n\x7d\n" := by decide +kernel
  have hright :
      render partialEngine {} (mapTextsAll (replacePlaceholder ".n-") roots) = .ok "a \x7b\n  b: .n-\r;\n\x7d\n" := by
    decide +kernel
  refine ⟨by decide, ?_, hleft, hright, ?_⟩
  · simp only [roots, List.mem_singleton, forall_eq]
    refine .mk ?_ (.props ?_) (by simp)
    · simp only [List.mem_singleton, forall_eq]
      exact ⟨"a".toList.map some, by decide, by decide, by decide⟩
    · simp only [List.mem_singleton, Prod.mk.injEq, Token.text.injEq]
      rintro name s ⟨-, rfl⟩
      exact ⟨⟨[none, some '\r'], by decide, by decide, by decide⟩, by decide⟩
  · rintro ⟨css, hl, hr⟩
    rw [hleft] at hl
    rw [hright, ← hl] at hr
    exact absurd hr (by decide)

end Rule

end Theming
