import Theming.Proofs.Decimal
import Theming.Proofs.Rules.Layout

/-!
# Declarations as properties and as text

A list of properties may be given as a text with one declaration a line, and such a text with its lines trimmed.  The
declarations are the same, and the style sheet hangs on a rule's declarations only, wherever among other rules the rule
stands (`render_revised`).
-/

namespace Theming

open Template (IsUntagged partialEngine)

variable {ε : Type} (engine : Template.Engine ε)

/-! ### One declaration a line -/

namespace Body

/-- Declarations as text, one a line. -/
def ofLines (lines : List (List Char)) : Body := .raw (String.ofList (['\n'].intercalate lines))

/-- A property as a line of text. -/
def line (p : String × Token) : List Char := declaration (cssName p.1).toList p.2.css.toList

/-- The text has no line break and opens no tag. -/
structure IsSimple (s : List Char) : Prop where
  unbroken : '\n' ∉ s
  untagged : IsUntagged s

/-- The property fits in one line, at whose start stands its name. -/
structure FitsLine (p : String × Token) : Prop where
  name : IsSimple p.1.toList
  start : ∀ c ∈ p.1.toList.head?, Text.isBlank c = false
  value : ∀ s, p.2 = .text s → IsSimple s.toList

theorem IsSimple.append_cons {a b : List Char} {c : Char} (ha : IsSimple a) (hb : IsSimple b)
    (hc : c ∉ ['\n', '{', '%']) : IsSimple (a ++ c :: b) := by
  simp only [List.mem_cons, List.not_mem_nil, or_false, not_or] at hc
  obtain ⟨hbreak, hbrace, hpercent⟩ := hc
  refine ⟨?_, ⟨fun h => ?_, fun h => ?_⟩⟩
  · simp [ha.unbroken, hb.unbroken, Ne.symm hbreak]
  · exact (Text.infix_or_infix_of_append_cons (by simp [hbrace]) h).elim ha.untagged.print hb.untagged.print
  · exact (Text.infix_or_infix_of_append_cons (by simp [hbrace, hpercent]) h).elim ha.untagged.statement
      hb.untagged.statement

theorem isSimple_nil : IsSimple [] := ⟨by simp, by decide⟩

theorem isSimple_of_not_mem {s : List Char} (hbreak : '\n' ∉ s) (hbrace : '{' ∉ s) : IsSimple s :=
  ⟨hbreak, .of_not_mem hbrace⟩

/-! ### Names -/

theorem head?_hyphenate {s : List Char} {c : Char} (h : (s.flatMap hyphenate).head? = some c) :
    s.head? = some c ∨ c = '-' := by
  cases s with
  | nil => cases h
  | cons d s =>
    rw [List.flatMap_cons, hyphenate] at h
    split at h
    · exact .inr (Option.some.inj h).symm
    · exact .inl h

theorem IsSimple.hyphenate {s : List Char} (hs : IsSimple s) : IsSimple (s.flatMap hyphenate) := by
  induction s with
  | nil => exact isSimple_nil
  | cons c s ih =>
    have hrest : IsSimple (s.flatMap Theming.hyphenate) :=
      ih ⟨fun h => hs.unbroken (List.mem_cons_of_mem c h), hs.untagged.of_infix (List.suffix_cons c s).isInfix⟩
    rw [List.flatMap_cons, Theming.hyphenate]
    split
    · rename_i hupper
      have hlower : c.toLower ∉ ['\n', '{', '%'] := toLower_not_mem hupper (by simp)
      exact isSimple_nil.append_cons (isSimple_nil.append_cons hrest hlower) (by decide)
    · -- the character next to a brace is the one that has been next to it, unless that has been a capital
      have hnext : ∀ d, d ≠ '-' → ¬['{', d] <:+: c :: s → ¬['{', d] <:+: s.flatMap Theming.hyphenate →
          ¬['{', d] <:+: c :: s.flatMap Theming.hyphenate := by
        intro d hd hnot hrest h
        rcases List.infix_cons_iff.1 h with hstart | hlater
        · obtain ⟨rfl, t, ht⟩ := List.cons_prefix_cons.1 hstart
          rcases head?_hyphenate (c := d) (by rw [← ht]; rfl) with hhead | hhead
          · obtain ⟨u, rfl⟩ := List.head?_eq_some_iff.1 hhead
            exact hnot ⟨[], u, rfl⟩
          · exact hd hhead
        · exact hrest hlater
      refine ⟨?_, hnext '{' (by decide) hs.untagged.print hrest.untagged.print,
        hnext '%' (by decide) hs.untagged.statement hrest.untagged.statement⟩
      rw [List.singleton_append, List.mem_cons, not_or]
      exact ⟨fun h => hs.unbroken (by rw [h]; exact List.mem_cons_self), hrest.unbroken⟩

theorem IsSimple.cssName {name : String} (h : IsSimple name.toList) : IsSimple (cssName name).toList := by
  rw [toList_cssName]
  split
  · exact h
  · exact h.hyphenate

theorem isBlank_head_cssName {name : String} (h : ∀ c ∈ name.toList.head?, Text.isBlank c = false) :
    ∀ c ∈ (cssName name).toList.head?, Text.isBlank c = false := by
  rw [toList_cssName]
  split
  · exact h
  · intro c hc
    rcases head?_hyphenate hc with hc | rfl
    · exact h c hc
    · rfl

/-! ### Lines -/

theorem FitsLine.css {p : String × Token} (hp : FitsLine p) : IsSimple p.2.css.toList := by
  cases htext : p.2.text? with
  | some s =>
    obtain ⟨name, token⟩ := p
    cases token with
    | text t => exact hp.value t rfl
    | number x => cases htext
    | flag b => cases htext
  | none =>
    have hnot : ∀ c : Char, (c.isAlphanum = true ∨ c = '.' ∨ c = '-' → False) → c ∉ p.2.css.toList :=
      fun c hc hmem => hc (p.2.mem_css htext hmem)
    exact isSimple_of_not_mem (hnot '\n' (by decide)) (hnot '{' (by decide))

theorem FitsLine.isSimple_line {p : String × Token} (hp : FitsLine p) : IsSimple (line p) := by
  have hline : line p = (Theming.cssName p.1).toList ++ ':' :: ([] ++ ' ' :: (p.2.css.toList ++ ';' :: [])) := by
    simp [line, declaration]
  rw [hline]
  exact hp.name.cssName.append_cons
    (isSimple_nil.append_cons (hp.css.append_cons isSimple_nil (by decide)) (by decide)) (by decide)

theorem FitsLine.isTrimmed_line {p : String × Token} (hp : FitsLine p) : Text.IsTrimmed (line p) where
  head := by
    have hname := isBlank_head_cssName hp.start
    intro c hc
    cases hcss : (Theming.cssName p.1).toList with
    | nil =>
      rw [line, declaration, hcss] at hc
      rw [← Option.some.inj hc]
      rfl
    | cons d s =>
      rw [hcss] at hname
      rw [line, declaration, hcss] at hc
      exact hname c hc
  last := by
    intro c hc
    rw [line, declaration, Option.mem_def, List.getLast?_concat, Option.some.injEq] at hc
    rw [← hc]
    rfl

theorem FitsLine.value_eq {p : String × Token} (hp : FitsLine p) (scope : Scope) :
    Body.value engine scope p.2 = .ok p.2.css.toList := by
  obtain ⟨name, token⟩ := p
  cases token with
  | text s => exact (hp.value s rfl).untagged.expand_eq engine scope
  | number x => rfl
  | flag b => rfl

/-! ### The same declarations -/

/-- A tag does not reach from one line into the next. -/
theorem isUntagged_intercalate {ls : List (List Char)} (h : ∀ l ∈ ls, IsUntagged l) :
    IsUntagged (['\n'].intercalate ls) := by
  have hline : ∀ c, '\n' ∉ ['{', c] → (∀ l ∈ ls, ¬['{', c] <:+: l) → ¬['{', c] <:+: ['\n'].intercalate ls := by
    intro c hc hls
    induction ls with
    | nil => simp
    | cons l ls ih =>
      rw [List.forall_mem_cons] at h hls
      cases ls with
      | nil => simpa using hls.1
      | cons m ls =>
        have hjoin : ['\n'].intercalate (l :: m :: ls) = l ++ '\n' :: ['\n'].intercalate (m :: ls) := by simp
        rw [hjoin]
        exact fun hinfix => (Text.infix_or_infix_of_append_cons hc hinfix).elim hls.1 (ih h.2 hls.2)
  exact ⟨hline '{' (by decide) fun l hl => (h l hl).print, hline '%' (by decide) fun l hl => (h l hl).statement⟩

/-- Lines without tags are the declarations that they are put together to. -/
theorem declarations_ofLines (scope : Scope) {ls : List (List Char)}
    (h : ∀ l ∈ ls, IsSimple l ∧ l ≠ [] ∧ Text.IsTrimmed l) : (ofLines ls).declarations engine scope = .ok ls := by
  have hsimple : IsUntagged (['\n'].intercalate ls) := isUntagged_intercalate fun l hl => (h l hl).1.untagged
  have hlines : trimmedLines (['\n'].intercalate ls) = ls :=
    Text.trimmedLines_intercalate fun l hl => ⟨(h l hl).1.unbroken, (h l hl).2⟩
  rw [ofLines, declarations, String.toList_ofList, hsimple.expand_eq, ok_bind, hlines]
  rfl

theorem declarations_props (scope : Scope) {ps : List (String × Token)} (h : ∀ p ∈ ps, FitsLine p) :
    (ofLines (ps.map line)).declarations engine scope = (props ps).declarations engine scope := by
  have hprops : (props ps).declarations engine scope = .ok (ps.map line) := by
    rw [declarations, mapM_congr (g := fun p => pure (line p)) fun p hp => ?_]
    · exact List.mapM_pure
    · simp only [(h p hp).value_eq engine scope, line]
      rfl
  rw [hprops]
  refine declarations_ofLines engine scope fun l hl => ?_
  obtain ⟨p, hp, rfl⟩ := List.mem_map.1 hl
  exact ⟨(h p hp).isSimple_line, by simp [line, declaration], (h p hp).isTrimmed_line⟩

theorem declarations_raw (scope : Scope) {s : String} (hs : IsUntagged s.toList) :
    (ofLines (trimmedLines s.toList)).declarations engine scope = (raw s).declarations engine scope := by
  have hraw : (raw s).declarations engine scope = .ok (trimmedLines s.toList) := by
    rw [declarations, hs.expand_eq]
    rfl
  rw [hraw]
  refine declarations_ofLines engine scope fun l hl => ?_
  obtain ⟨hbreak, hne, htrimmed, hinfix⟩ := Text.mem_trimmedLines hl
  exact ⟨⟨hbreak, hs.of_infix hinfix⟩, hne, htrimmed⟩

end Body

/-! ### One rule among others -/

namespace Rule

/-- The same rules but for one of them, however deep it stands, which has the declarations `body'` for `body`. -/
inductive Revised (body body' : Body) : List Rule → List Rule → Prop
  | here (selectors : List String) (children later : List Rule) :
    Revised body body' (mk selectors body children :: later) (mk selectors body' children :: later)
  | inside (selectors : List String) (around : Body) (later : List Rule) {children children' : List Rule}
    (h : Revised body body' children children') :
    Revised body body' (mk selectors around children :: later) (mk selectors around children' :: later)
  | after (r : Rule) {rs rs' : List Rule} (h : Revised body body' rs rs') : Revised body body' (r :: rs) (r :: rs')

/-- What rules compile to hangs on the declarations of each, and not on how these are given. -/
theorem Revised.compileAll_eq {scope : Scope} {body body' : Body} {rs rs' : List Rule} (h : Revised body body' rs rs')
    (hbody : body'.declarations engine scope = body.declarations engine scope) (parents : List (List Char)) :
    compileAll engine scope parents rs' = compileAll engine scope parents rs := by
  induction h generalizing parents with
  | here selectors children later => simp only [compileAll, compile, hbody]
  | inside selectors around later h ih => simp only [compileAll, compile, ih]
  | after r h ih => simp only [compileAll, ih]

mutual

theorem exists_revised (body' : Body) : (r : Rule) → (later : List Rule) → {q : Rule} → q ∈ nodes r →
    ∃ rs', Revised q.body body' (r :: later) rs'
  | mk selectors body children, later, q, hq => by
    rcases List.mem_cons.1 hq with rfl | hq
    · exact ⟨_, .here selectors children later⟩
    · obtain ⟨children', h⟩ := exists_revisedAll body' children hq
      exact ⟨_, .inside selectors body later h⟩

/-- Every rule can be revised where it stands. -/
theorem exists_revisedAll (body' : Body) : (rs : List Rule) → {q : Rule} → q ∈ nodesAll rs →
    ∃ rs', Revised q.body body' rs rs'
  | r :: rs, q, hq => by
    rcases List.mem_append.1 hq with hq | hq
    · exact exists_revised body' r rs hq
    · obtain ⟨rs', h⟩ := exists_revisedAll body' rs hq
      exact ⟨_, .after r h⟩

end

/-- A style sheet, or the failure to compile one, stays the same when any rule is revised: when its properties, if each
of them fits in a line, are given as a text with one declaration a line, and when a text in which no tag opens is cut
down to its trimmed lines.  This is so at the root, in other rules and in at-rules, and also where there is no property
and no line at all. -/
theorem render_revised (scope : Scope) (roots : List Rule) :
    (∀ ps, (∀ p ∈ ps, Body.FitsLine p) → ∀ roots', Revised (.props ps) (.ofLines (ps.map Body.line)) roots roots' →
      render engine scope roots' = render engine scope roots) ∧
    (∀ s, IsUntagged s.toList →
      ∀ roots', Revised (.raw s) (.ofLines (Body.trimmedLines s.toList)) roots roots' →
      render engine scope roots' = render engine scope roots) ∧
    ∀ r ∈ nodesAll roots, ∀ body', ∃ roots', Revised r.body body' roots roots' := by
  refine ⟨fun ps hps roots' h => ?_, fun s hs roots' h => ?_, fun r hr body' => exists_revisedAll body' roots hr⟩
  · rw [render, render, h.compileAll_eq engine (Body.declarations_props engine scope hps)]
  · rw [render, render, h.compileAll_eq engine (Body.declarations_raw engine scope hs)]

/-- Properties in an at-rule, and in it a text with blank lines and with braces that open no tag. -/
theorem render_revised_media :
    let ps := [("fontSize", Token.text "a \x7b"), ("WebkitX", .flag true)]
    let text := "\n  b: \x7b# c;\r\n\n \x7d d;"
    let roots (outer inner : Body) := [mk ["e"] .empty [mk ["@media print"] outer [mk ["&:hover"] inner []]]]
    (∀ p ∈ ps, Body.FitsLine p) ∧ IsUntagged text.toList ∧
      render partialEngine {} (roots (.raw "font-size: a \x7b;\n-webkit-x: true;") (.raw text)) =
        render partialEngine {} (roots (.props ps) (.raw text)) ∧
      render partialEngine {} (roots (.props ps) (.raw "b: \x7b# c;\n\x7d d;")) =
        render partialEngine {} (roots (.props ps) (.raw text)) := by
  intro ps text roots
  have hps : ∀ p ∈ ps, Body.FitsLine p := by
    simp only [ps, List.forall_mem_cons]
    refine ⟨⟨⟨by decide, by decide⟩, by simp [Text.isBlank], ?_⟩,
      ⟨⟨by decide, by decide⟩, by simp [Text.isBlank], ?_⟩, by simp⟩
    · rintro s ⟨⟩
      exact ⟨by decide, by decide⟩
    · rintro s ⟨⟩
  have htext : IsUntagged text.toList := by decide
  have hlines : Body.raw "font-size: a \x7b;\n-webkit-x: true;" = .ofLines (ps.map Body.line) :=
    congrArg Body.raw (by decide +kernel)
  have htrimmed : Body.raw "b: \x7b# c;\n\x7d d;" = .ofLines (Body.trimmedLines text.toList) :=
    congrArg Body.raw (by decide +kernel)
  refine ⟨hps, htext, ?_, ?_⟩
  · rw [hlines]
    exact (render_revised partialEngine {} _).1 ps hps _ (.inside _ _ _ (.here _ _ _))
  · rw [htrimmed]
    exact (render_revised partialEngine {} _).2.1 text htext _ (.inside _ _ _ (.inside _ _ _ (.here _ _ _)))

end Rule

end Theming
