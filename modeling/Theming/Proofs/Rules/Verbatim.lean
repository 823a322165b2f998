import Theming.Proofs.Rules.Failing

/-!
# Rules without templates

A text in which no brace opens is not a template.  Rules with no other texts compile whatever the engine and the scope
are, and in all scopes to the same style sheet (`render_verbatim`); the baseline is such a rule.
-/

namespace Theming

/-- No text of the declarations has an opening brace. -/
inductive Body.IsVerbatim : Body → Prop
  | empty : IsVerbatim .empty
  | props {ps : List (String × Token)} (h : ∀ name s, (name, Token.text s) ∈ ps → '{' ∉ s.toList) :
      IsVerbatim (.props ps)
  | raw {s : String} (h : '{' ∉ s.toList) : IsVerbatim (.raw s)

/-- No text of the rule has an opening brace. -/
inductive Rule.IsVerbatim : Rule → Prop
  | mk {selectors : List String} {body : Body} {children : List Rule} (hselectors : ∀ s ∈ selectors, '{' ∉ s.toList)
      (hbody : body.IsVerbatim) (hchildren : ∀ r ∈ children, IsVerbatim r) : IsVerbatim (.mk selectors body children)

/-! ### Texts -/

theorem Selector.mem_of_mem_segments {s : Scan} {group segment : List Char} (h : segment ∈ segments s group) {c : Char}
    (hc : c ∈ segment) : c ∈ group := by
  induction group generalizing s segment with
  | nil =>
    obtain rfl := List.mem_singleton.1 h
    cases hc
  | cons d rest ih =>
    rw [segments] at h
    split at h
    · rcases List.mem_cons.1 h with rfl | h
      · cases hc
      · exact List.mem_cons_of_mem d (ih h hc)
    · split at h
      · obtain rfl := List.mem_singleton.1 h
        exact List.mem_cons.2 (.inl (List.mem_singleton.1 hc))
      · rename_i first more hsegments
        rcases List.mem_cons.1 h with rfl | h
        · rcases List.mem_cons.1 hc with rfl | hc
          · exact List.mem_cons_self
          · exact List.mem_cons_of_mem d (ih (hsegments ▸ List.mem_cons_self) hc)
        · exact List.mem_cons_of_mem d (ih (hsegments ▸ List.mem_cons_of_mem first h) hc)

theorem Selector.mem_of_mem_splitGroup {group s : List Char} (h : s ∈ splitGroup group) {c : Char} (hc : c ∈ s) :
    c ∈ group := by
  obtain ⟨segment, hsegment, rfl⟩ := List.mem_map.1 (List.mem_filter.1 h).1
  exact mem_of_mem_segments hsegment (Text.mem_of_mem_trim hc)

theorem Body.IsVerbatim.not_mem {body : Body} (h : body.IsVerbatim) : ∀ s ∈ body.templates, '{' ∉ s := by
  cases h with
  | empty => simp [templates]
  | raw hs => exact List.forall_mem_singleton.2 hs
  | props hall =>
    intro s hs
    obtain ⟨⟨name, token⟩, hp, htext⟩ := List.mem_filterMap.1 hs
    cases token with
    | flag b => cases htext
    | number x => cases htext
    | text t =>
      obtain rfl := Option.some.inj htext
      exact hall name t hp

/-! ### Rules -/

namespace Rule

theorem not_mem_of_atRule? {selectors : List String} (h : ∀ s ∈ selectors, '{' ∉ s.toList) {pre : List Char}
    (hat : atRule? selectors = some pre) : '{' ∉ pre := by
  match selectors with
  | [s] =>
    simp only [atRule?, Option.ite_none_right_eq_some, Option.some.injEq] at hat
    obtain ⟨-, rfl⟩ := hat
    exact fun hmem => h s (List.mem_singleton_self s) (Text.mem_of_mem_trim hmem)

theorem not_mem_of_mem_parts {selectors : List String} (h : ∀ s ∈ selectors, '{' ∉ s.toList) {part : List Char}
    (hpart : part ∈ parts selectors) : '{' ∉ part := by
  obtain ⟨s, hs, hgroup⟩ := List.mem_flatMap.1 hpart
  exact fun hmem => h s hs (Selector.mem_of_mem_splitGroup hgroup hmem)

theorem not_mem_of_mem_heading {selectors : List String} (h : ∀ s ∈ selectors, '{' ∉ s.toList) :
    ∀ s ∈ heading selectors, '{' ∉ s := by
  unfold heading
  split
  · rename_i pre hat
    exact List.forall_mem_singleton.2 (not_mem_of_atRule? h hat)
  · exact fun s hs => not_mem_of_mem_parts h hs

mutual

theorem IsVerbatim.not_mem : (r : Rule) → r.IsVerbatim → ∀ s ∈ (nodes r).flatMap templates, '{' ∉ s
  | .mk selectors body children, .mk hselectors hbody hchildren => by
    rw [templates_nodes, List.forall_mem_append, List.forall_mem_append]
    exact ⟨not_mem_of_mem_heading hselectors, hbody.not_mem, IsVerbatim.not_mem_all children hchildren⟩

theorem IsVerbatim.not_mem_all : (rs : List Rule) → (∀ r ∈ rs, r.IsVerbatim) →
    ∀ s ∈ (nodesAll rs).flatMap templates, '{' ∉ s
  | [], _ => by simp [nodesAll]
  | r :: rs, h => by
    rw [List.forall_mem_cons] at h
    rw [templates_nodesAll_cons, List.forall_mem_append]
    exact ⟨IsVerbatim.not_mem r h.1, IsVerbatim.not_mem_all rs h.2⟩

end

/-- Rules without templates have a style sheet, the same under every scope. -/
theorem render_verbatim {ε : Type} (engine : Template.Engine ε) {roots : List Rule} (h : ∀ r ∈ roots, r.IsVerbatim) :
    ∃ css, ∀ scope, render engine scope roots = .ok css :=
  exists_render_of_untagged engine fun s hs => .of_not_mem (IsVerbatim.not_mem_all roots h s hs)

theorem isVerbatim_baseline : baseline.IsVerbatim := by
  unfold baseline Palette.fontSize Palette.fontFamily Palette.lineHeight
  refine .mk (by simp) (.raw ?_) (List.forall_mem_singleton.2 (.mk (by simp) (.raw ?_) (by simp)))
  -- literal by literal, since to evaluate the whole texts takes long
  all_goals
    simp only [String.toList_append, String.toList_join, List.map_cons, List.map_nil, List.flatMap_cons,
      List.flatMap_nil, List.mem_append, not_or]
    and_intros <;> decide

end Rule

end Theming
