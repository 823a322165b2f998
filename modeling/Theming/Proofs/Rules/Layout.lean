import Theming.Proofs.Css.Reading
import Theming.Proofs.Naming
import Theming.Proofs.Rules.Failing
import Theming.Proofs.Rules.Scoping

/-!
# The layout of a compiled style sheet

Rules whose expanded texts have no braces and no line breaks are compiled to a style sheet that can be read line by
line, however deep its rules and at-rules are nested: at every line the braces are open that have been opened and not
closed, the line is indented by them, and at the end none is left open (`render_laidOut`).  Only the text of raw
declarations may have line feeds, because its lines are written one by one.
-/

namespace Theming

open Template (partialEngine)

variable {ε : Type} {engine : Template.Engine ε}

/-! ### What is written of a rule -/

/-- The declarations are expanded to texts without braces and line breaks; a text with one declaration a line may have
line feeds. -/
def Body.IsInline (engine : Template.Engine ε) (scope : Scope) : Body → Prop
  | .empty => True
  | .props ps => ∀ p ∈ ps, Css.IsInline p.1.toList ∧ ∀ v, value engine scope p.2 = .ok v → Css.IsInline v
  | .raw s => ∀ t, scope.expand engine s.toList = .ok t → ∀ c ∈ t, c ∉ ['{', '}', '\r']

instance Body.decidableIsInline (scope : Scope) : (body : Body) → Decidable (body.IsInline engine scope)
  | .empty => inferInstanceAs (Decidable True)
  | .props ps =>
    inferInstanceAs (Decidable (∀ p ∈ ps, Css.IsInline p.1.toList ∧
      ∀ v, Body.value engine scope p.2 = .ok v → Css.IsInline v))
  | .raw s =>
    have : DecidablePred fun t : List Char => ∀ c ∈ t, c ∉ ['{', '}', '\r'] := fun t => List.decidableBAll _ t
    inferInstanceAs (Decidable (∀ t, scope.expand engine s.toList = .ok t → ∀ c ∈ t, c ∉ ['{', '}', '\r']))

/-- The texts of the rule itself are expanded to texts without braces and line breaks. -/
structure Rule.IsInline (engine : Template.Engine ε) (scope : Scope) (r : Rule) : Prop where
  heading : ∀ s ∈ Rule.heading r.selectors, ∀ t, scope.expand engine s = .ok t → Css.IsInline t
  body : r.body.IsInline engine scope

instance Rule.decidableIsInline (scope : Scope) (r : Rule) : Decidable (r.IsInline engine scope) :=
  decidable_of_iff ((∀ s ∈ Rule.heading r.selectors, ∀ t, scope.expand engine s = .ok t → Css.IsInline t) ∧
    r.body.IsInline engine scope) ⟨fun h => ⟨h.1, h.2⟩, fun h => ⟨h.heading, h.body⟩⟩

/-! ### Declarations -/

theorem isInline_hyphenate {c : Char} (hc : c ∉ ['{', '}', '\n', '\r']) : Css.IsInline (hyphenate c) := by
  unfold hyphenate
  split
  · rename_i hupper
    exact .cons (by decide) (.cons (toLower_not_mem hupper (by simp)) .nil)
  · exact .cons hc .nil

theorem isInline_cssName {name : String} (h : Css.IsInline name.toList) : Css.IsInline (cssName name).toList := by
  rw [toList_cssName]
  split
  · exact h
  · exact .flatMap fun c hc => isInline_hyphenate (h c hc)

theorem Body.isInline_declaration {name value : List Char} (hname : Css.IsInline name) (hvalue : Css.IsInline value) :
    Css.IsInline (declaration name value) :=
  (hname.append (.cons (by decide) (.cons (by decide) hvalue))).append (.cons (by decide) .nil)

/-- Lines have no line feeds, so nothing else is asked of a text that is cut into them. -/
theorem Body.isInline_of_mem_trimmedLines {s line : List Char} (hs : ∀ c ∈ s, c ∉ ['{', '}', '\r'])
    (h : line ∈ trimmedLines s) : Css.IsInline line := by
  obtain ⟨l, hl, rfl⟩ := List.mem_map.1 (List.mem_filter.1 h).1
  refine Css.IsInline.trim fun c hc => ?_
  obtain ⟨hmem, hbreak⟩ := Text.mem_of_mem_lines hl hc
  have hc := hs c hmem
  simp only [List.mem_cons, List.not_mem_nil, or_false, not_or] at hc ⊢
  exact ⟨hc.1, hc.2.1, hbreak, hc.2.2⟩

theorem Body.IsInline.declarations {scope : Scope} {body : Body} (h : body.IsInline engine scope)
    {ds : List (List Char)} (hds : body.declarations engine scope = .ok ds) : ∀ d ∈ ds, Css.IsInline d := by
  cases body with
  | empty =>
    obtain rfl := pure_eq_ok_iff.1 hds
    simp
  | props ps =>
    intro d hd
    obtain ⟨p, hp, hwritten⟩ := exists_ok_of_mem_mapM hds hd
    obtain ⟨v, hv, hwritten⟩ := bind_eq_ok_iff.1 hwritten
    obtain rfl := pure_eq_ok_iff.1 hwritten
    obtain ⟨hname, hvalue⟩ := h p hp
    exact isInline_declaration (isInline_cssName hname) (hvalue v hv)
  | raw s =>
    obtain ⟨t, ht, hlines⟩ := bind_eq_ok_iff.1 hds
    obtain rfl := pure_eq_ok_iff.1 hlines
    exact fun d hd => isInline_of_mem_trimmedLines (h t ht) hd

/-! ### Rules -/

namespace Rule

theorem isInline_of_mem_blocks {selectors declarations : List (List Char)}
    (hselectors : ∀ s ∈ selectors, Css.IsInline s) (hdeclarations : ∀ d ∈ declarations, Css.IsInline d) :
    ∀ item ∈ blocks selectors declarations, item.IsInline := by
  unfold blocks
  split
  · simp
  · exact List.forall_mem_singleton.2 (.block hselectors hdeclarations)

theorem isInline_of_mem_atRule {empty : Prop} [Decidable empty] {pre : List Char} {declarations : List (List Char)}
    {items : List Css.Item} (hpre : Css.IsInline pre) (hdeclarations : ∀ d ∈ declarations, Css.IsInline d)
    (hitems : ∀ item ∈ items, item.IsInline) :
    ∀ item ∈ if empty then [] else [Css.Item.atRule pre declarations items], item.IsInline := by
  split
  · simp
  · exact List.forall_mem_singleton.2 (.atRule hpre hdeclarations hitems)

mutual

/-- What a rule compiles to has no braces and line breaks if the selectors around it and all texts in it have none. -/
theorem isInline_of_compile {scope : Scope} : (parents : List (List Char)) → (r : Rule) → (items : List Css.Item) →
    (∀ q ∈ nodes r, q.IsInline engine scope) → (∀ p ∈ parents, Css.IsInline p) →
    compile engine scope parents r = .ok items → ∀ item ∈ items, item.IsInline
  | parents, mk selectors body children, items, hnodes, hparents, h => by
    rw [nodes, List.forall_mem_cons] at hnodes
    obtain ⟨⟨hheading, hbody⟩, hchildren⟩ := hnodes
    cases hat : atRule? selectors with
    | some pre =>
      simp only [compile, hat, bind_eq_ok_iff, pure_eq_ok_iff] at h
      obtain ⟨p, hp, ds, hds, held, hheld, rfl⟩ := h
      have hpre : Css.IsInline p := hheading pre (by simp [heading, Rule.selectors, hat]) p hp
      have hdeclarations := hbody.declarations hds
      have hframes : ∀ q ∈ if isKeyframes p then [] else parents, Css.IsInline q := by
        split
        · simp
        · exact hparents
      have hitems := isInline_of_compileAll _ children held hchildren hframes hheld
      -- the declarations stand in the at-rule itself, or in a block below the selectors around it
      by_cases hroot : parents = []
      · simp only [hroot, if_true]
        exact isInline_of_mem_atRule hpre hdeclarations hitems
      · simp only [hroot, if_false]
        exact isInline_of_mem_atRule hpre (by simp)
          (List.forall_mem_append.2 ⟨isInline_of_mem_blocks hparents hdeclarations, hitems⟩)
    | none =>
      simp only [compile, hat, bind_eq_ok_iff, pure_eq_ok_iff] at h
      obtain ⟨own, hown, ds, hds, held, hheld, rfl⟩ := h
      have hparts : ∀ s ∈ own, Css.IsInline s := by
        intro s hs
        obtain ⟨part, hpart, hexpand⟩ := exists_ok_of_mem_mapM hown hs
        exact hheading part (by simpa [heading, Rule.selectors, hat] using hpart) s hexpand
      have hresolved : ∀ s ∈ Selector.resolve parents own, Css.IsInline s :=
        Selector.forall_mem_resolve (by decide) hparents fun s hs c hc _ => hparts s hs c hc
      have hitems := isInline_of_compileAll _ children held hchildren hresolved hheld
      exact List.forall_mem_append.2 ⟨isInline_of_mem_blocks hresolved (hbody.declarations hds), hitems⟩

theorem isInline_of_compileAll {scope : Scope} : (parents : List (List Char)) → (rs : List Rule) →
    (items : List Css.Item) → (∀ q ∈ nodesAll rs, q.IsInline engine scope) → (∀ p ∈ parents, Css.IsInline p) →
    compileAll engine scope parents rs = .ok items → ∀ item ∈ items, item.IsInline
  | parents, [], items, _, _, h => by
    obtain rfl := pure_eq_ok_iff.1 h
    simp
  | parents, r :: rs, items, hnodes, hparents, h => by
    rw [nodesAll, List.forall_mem_append] at hnodes
    simp only [compileAll, bind_eq_ok_iff, pure_eq_ok_iff] at h
    obtain ⟨first, hfirst, more, hmore, rfl⟩ := h
    exact List.forall_mem_append.2 ⟨isInline_of_compile parents r first hnodes.1 hparents hfirst,
      isInline_of_compileAll parents rs more hnodes.2 hparents hmore⟩

end

/-- Rules whose expanded texts have no braces and no line breaks have a style sheet of whole lines.  At every line, as
many braces are open as have been opened and not closed so far, counting those the line closes, and the line starts with
two spaces for each of them unless it is empty.  Nowhere in the sheet have more braces been closed than opened, and at
its end none is open; it is empty or ends with a closing brace. -/
theorem render_laidOut {scope : Scope} {roots : List Rule} {css : String} (h : render engine scope roots = .ok css)
    (hinline : ∀ r ∈ nodesAll roots, r.IsInline engine scope) :
    ((Text.lines css.toList).flatMap fun line => line ++ ['\n']) = css.toList ∧
    (∀ before line after, Text.lines css.toList = before ++ line :: after → ∃ around,
      before.flatten.count '{' = before.flatten.count '}' + line.count '}' + around ∧
        (line ≠ [] → List.replicate (2 * around) ' ' <+: line)) ∧
    (∀ seen, seen <+: css.toList → seen.count '}' ≤ seen.count '{') ∧
    css.toList.count '{' = css.toList.count '}' ∧
    (css = "" ∨ "\x7d\n".toList <:+ css.toList) := by
  obtain ⟨items, hitems, rfl⟩ := map_eq_ok_iff.1 h
  have hall : ∀ item ∈ items, item.IsInline := isInline_of_compileAll [] roots items hinline (by simp) hitems
  obtain ⟨lines, hlines, hreads⟩ := Css.isLaidOut_writeAll items hall
  rw [String.toList_ofList, hlines, Css.lines_writeLines hreads.unbroken]
  refine ⟨rfl, ?_, ?_, ?_, ?_⟩
  · rintro before line after rfl
    obtain ⟨depth, hbefore, hafter⟩ := hreads.of_append
    obtain ⟨next, -, hline, -⟩ := hafter.of_cons
    obtain ⟨around, rfl, -, hindented⟩ := Css.readLine_eq_some_iff.1 hline
    have hcount := hbefore.count_eq
    exact ⟨around, by omega, hindented.resolve_left⟩
  · intro seen hseen
    have hle := hreads.count_le_of_prefix hseen
    omega
  · have hcount := hreads.count_eq
    rw [Css.count_writeLines (by decide), Css.count_writeLines (by decide)]
    omega
  · obtain hnil | hends := Css.writeAll_eq_nil_or_suffix items
    · exact .inl (by rw [← hlines, hnil])
    · exact .inr (hlines ▸ hends)

/-- An at-rule around a block, and another one in the block. -/
theorem render_laidOut_card :
    let card := block "card" (.props [("maxWidth", .text "1px")]) [mk ["@supports (x: y)"] (.raw "a: b;\n c: d;") []]
    let css := String.join [
      "@media print \x7b\n  .n-card \x7b\n    max-width: 1px;\n  \x7d\n\n",
      "  @supports (x: y) \x7b\n    .n-card \x7b\n      a: b;\n      c: d;\n    \x7d\n  \x7d\n\x7d\n"]
    render partialEngine (.ofPrefix "n") [mk ["@media print"] .empty [card]] = .ok css ∧
      (∀ seen, seen <+: css.toList → seen.count '}' ≤ seen.count '{') ∧
      css.toList.count '{' = css.toList.count '}' := by
  intro card css
  have h : render partialEngine (.ofPrefix "n") [mk ["@media print"] .empty [card]] = .ok css := by decide +kernel
  have hinline : ∀ r ∈ nodesAll [mk ["@media print"] .empty [card]], r.IsInline partialEngine (.ofPrefix "n") := by
    decide +kernel
  obtain ⟨-, -, hseen, hcount, -⟩ := render_laidOut h hinline
  exact ⟨h, hseen, hcount⟩

end Rule

end Theming
