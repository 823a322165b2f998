import Theming.Proofs.Failure
import Theming.Proofs.Scope
import Theming.Rule.Compile
import Theming.Template.Expand

/-!
# When rules fail to compile

The texts of rules are expanded one after the other, whether or not what they belong to is written in the end.  So
rules fail to compile exactly if one of their texts fails to expand, and then with the failure of the first such text
in the order of the document (`render_firstFailure`).
-/

namespace Theming

open Template (partialEngine)

variable {ε : Type} (engine : Template.Engine ε)

/-! ### Texts in the order of the document -/

/-- The texts in the declarations that are expanded; names of properties, numbers and flags are written as they are. -/
def Body.templates : Body → List (List Char)
  | .empty => []
  | .props ps => ps.filterMap fun p => p.2.text?.map String.toList
  | .raw s => [s.toList]

namespace Rule

/-- What stands in front of the braces: the prelude of an at-rule, or the selectors with comma groups taken apart. -/
def heading (selectors : List String) : List (List Char) :=
  match atRule? selectors with
  | some pre => [pre]
  | none => parts selectors

/-- The texts of a rule itself, without those of its children. -/
def templates (r : Rule) : List (List Char) := heading r.selectors ++ r.body.templates

mutual

/-- The rule and all that is nested in it, in the order of the document. -/
def nodes : Rule → List Rule
  | mk selectors body children => mk selectors body children :: nodesAll children

def nodesAll : List Rule → List Rule
  | [] => []
  | r :: rs => nodes r ++ nodesAll rs

end

mutual

/-- The rule with other declarations, in it and in all that is nested in it. -/
def mapBodies (f : Body → Body) : Rule → Rule
  | mk selectors body children => mk selectors (f body) (mapBodiesAll f children)

def mapBodiesAll (f : Body → Body) : List Rule → List Rule
  | [] => []
  | r :: rs => mapBodies f r :: mapBodiesAll f rs

end

theorem templates_nodes (selectors : List String) (body : Body) (children : List Rule) :
    (nodes (mk selectors body children)).flatMap templates =
      heading selectors ++ (body.templates ++ (nodesAll children).flatMap templates) := by
  simp [nodes, templates, Rule.selectors, Rule.body]

theorem templates_nodesAll_cons (r : Rule) (rs : List Rule) :
    (nodesAll (r :: rs)).flatMap templates = (nodes r).flatMap templates ++ (nodesAll rs).flatMap templates := by
  rw [nodesAll, List.flatMap_append]

mutual

theorem templates_mapBodies {f : Body → Body} (hf : ∀ b, (f b).templates = b.templates) : (r : Rule) →
    (nodes (mapBodies f r)).flatMap templates = (nodes r).flatMap templates
  | mk selectors body children => by
    rw [mapBodies, templates_nodes, templates_nodes, hf, templates_mapBodiesAll hf children]

theorem templates_mapBodiesAll {f : Body → Body} (hf : ∀ b, (f b).templates = b.templates) : (rs : List Rule) →
    (nodesAll (mapBodiesAll f rs)).flatMap templates = (nodesAll rs).flatMap templates
  | [] => rfl
  | r :: rs => by
    rw [mapBodiesAll, templates_nodesAll_cons, templates_nodesAll_cons, templates_mapBodies hf r,
      templates_mapBodiesAll hf rs]

end

end Rule

/-! ### The first failure -/

theorem Body.failure?_declarations (scope : Scope) (body : Body) :
    failure? (body.declarations engine scope) = firstFailure? (body.templates.map (scope.expand engine)) := by
  cases body with
  | empty => rfl
  | raw s =>
    rw [declarations, failure?_bind_ok fun s => rfl]
    exact ((firstFailure?_cons _ []).trans Option.or_none).symm
  | props ps =>
    rw [declarations, failure?_mapM]
    induction ps with
    | nil => rfl
    | cons p ps ih =>
      obtain ⟨name, token⟩ := p
      rw [List.map_cons, firstFailure?_cons, failure?_bind_ok fun v => rfl, ih]
      cases token with
      | flag b => rfl
      | number x => rfl
      | text s => exact (firstFailure?_cons _ _).symm

namespace Rule

section Compile

variable (scope : Scope)

mutual

/-- Neither the rules around it nor what is written of it decide how compiling a rule ends. -/
theorem failure?_compile : (parents : List (List Char)) → (r : Rule) →
    failure? (compile engine scope parents r) = firstFailure? (((nodes r).flatMap templates).map (scope.expand engine))
  | parents, mk selectors body children => by
    have hbody := body.failure?_declarations engine scope
    have hchildren : ∀ parents, failure? (compileAll engine scope parents children) =
        firstFailure? (((nodesAll children).flatMap templates).map (scope.expand engine)) :=
      fun parents => failure?_compileAll parents children
    rw [templates_nodes, List.map_append, List.map_append, firstFailure?_append, firstFailure?_append]
    cases hat : atRule? selectors with
    | some pre =>
      have hheading :
          firstFailure? ((heading selectors).map (scope.expand engine)) = failure? (scope.expand engine pre) := by
        rw [heading, hat]
        exact (firstFailure?_cons _ []).trans Option.or_none
      simp only [compile, hat]
      rw [hheading, ← hbody]
      refine failure?_bind fun pre => failure?_bind fun declarations => ?_
      rw [failure?_bind_ok fun items => rfl, hchildren]
    | none =>
      have hheading : firstFailure? ((heading selectors).map (scope.expand engine)) =
          failure? ((parts selectors).mapM (scope.expand engine)) := by
        rw [heading, hat, failure?_mapM]
      simp only [compile, hat]
      rw [hheading, ← hbody]
      refine failure?_bind fun own => failure?_bind fun declarations => ?_
      rw [failure?_bind_ok fun items => rfl, hchildren]

theorem failure?_compileAll : (parents : List (List Char)) → (rs : List Rule) →
    failure? (compileAll engine scope parents rs) =
      firstFailure? (((nodesAll rs).flatMap templates).map (scope.expand engine))
  | parents, [] => rfl
  | parents, r :: rs => by
    rw [templates_nodesAll_cons, List.map_append, firstFailure?_append, ← failure?_compile parents r, compileAll]
    refine failure?_bind fun items => ?_
    rw [failure?_bind_ok fun more => rfl, failure?_compileAll parents rs]

end

theorem failure?_render (roots : List Rule) :
    failure? (render engine scope roots) =
      firstFailure? (((nodesAll roots).flatMap templates).map (scope.expand engine)) := by
  rw [← failure?_compileAll engine scope []]
  exact failure?_map _ _

end Compile

end Rule

/-! ### What a style sheet hangs on -/

section Congruence

variable {engine} {scope scope' : Scope}

theorem Body.declarations_congr {body : Body}
    (h : ∀ s ∈ body.templates, scope.expand engine s = scope'.expand engine s) :
    body.declarations engine scope = body.declarations engine scope' := by
  cases body with
  | empty => rfl
  | raw s => rw [declarations, declarations, h s.toList (List.mem_singleton_self _)]
  | props ps =>
    refine mapM_congr fun p hp => ?_
    obtain ⟨name, token⟩ := p
    cases token with
    | flag b => rfl
    | number x => rfl
    | text s =>
      have hmem : s.toList ∈ (props ps).templates := List.mem_filterMap.2 ⟨_, hp, rfl⟩
      simp only [value, h _ hmem]

namespace Rule

mutual

/-- Rules compile alike in scopes in which their texts expand alike. -/
theorem compile_congr : (parents : List (List Char)) → (r : Rule) →
    (∀ s ∈ (nodes r).flatMap templates, scope.expand engine s = scope'.expand engine s) →
    compile engine scope parents r = compile engine scope' parents r
  | parents, mk selectors body children, h => by
    simp only [templates_nodes, List.mem_append, or_imp, forall_and] at h
    obtain ⟨hheading, hbody, hchildren⟩ := h
    have hall : ∀ parents, compileAll engine scope parents children = compileAll engine scope' parents children :=
      fun parents => compileAll_congr parents children hchildren
    cases hat : atRule? selectors with
    | some pre =>
      have hpre : scope.expand engine pre = scope'.expand engine pre := hheading pre (by simp [heading, hat])
      simp only [compile, hat, hpre, Body.declarations_congr hbody, hall]
    | none =>
      have hparts : (parts selectors).mapM (scope.expand engine) = (parts selectors).mapM (scope'.expand engine) :=
        mapM_congr fun s hs => hheading s (by simpa [heading, hat] using hs)
      simp only [compile, hat, hparts, Body.declarations_congr hbody, hall]

theorem compileAll_congr : (parents : List (List Char)) → (rs : List Rule) →
    (∀ s ∈ (nodesAll rs).flatMap templates, scope.expand engine s = scope'.expand engine s) →
    compileAll engine scope parents rs = compileAll engine scope' parents rs
  | parents, [], _ => rfl
  | parents, r :: rs, h => by
    simp only [templates_nodesAll_cons, List.mem_append, or_imp, forall_and] at h
    simp only [compileAll, compile_congr parents r h.1, compileAll_congr parents rs h.2]

end

end Rule

end Congruence

namespace Rule

/-- Rules without tags have a style sheet, the same in every scope. -/
theorem exists_render_of_untagged {roots : List Rule}
    (h : ∀ s ∈ (nodesAll roots).flatMap templates, Template.IsUntagged s) :
    ∃ css, ∀ scope, render engine scope roots = .ok css := by
  have hexpand : ∀ scope : Scope, ∀ s ∈ (nodesAll roots).flatMap templates, scope.expand engine s = .ok s :=
    fun scope s hs => (h s hs).expand_eq engine scope
  obtain ⟨css, hcss⟩ : ∃ css, render engine {} roots = .ok css := by
    rw [← failure?_eq_none_iff, failure?_render, firstFailure?_eq_none_iff]
    simp only [List.mem_map]
    rintro x ⟨s, hs, rfl⟩
    exact ⟨s, hexpand {} s hs⟩
  refine ⟨css, fun scope => ?_⟩
  rw [← hcss, render, render, compileAll_congr [] roots fun s hs => (hexpand scope s hs).trans (hexpand {} s hs).symm]

/-- Rules fail to compile exactly if one of their texts fails to expand, and then with the failure of the first one:
for every rule in the order of the document its selectors or its prelude, then the texts of its declarations, then the
rules nested in it.  The selectors around the rules, the names of their properties and the values that are not texts
have no part in it, and if there are no tags in the texts, then no scope has a part in the style sheet. -/
theorem render_firstFailure (scope : Scope) (roots : List Rule) :
    let texts := (nodesAll roots).flatMap templates
    ((∃ e, render engine scope roots = .error e) ↔ ∃ s ∈ texts, ∃ e, scope.expand engine s = .error e) ∧
    (∀ e, render engine scope roots = .error e ↔ ∃ before s after, texts = before ++ s :: after ∧
      (∀ t ∈ before, ∃ u, scope.expand engine t = .ok u) ∧ scope.expand engine s = .error e) ∧
    (∀ parents e, compileAll engine scope parents roots = .error e ↔ render engine scope roots = .error e) ∧
    (∀ f : Body → Body, (∀ b, (f b).templates = b.templates) →
      ∀ e, render engine scope (mapBodiesAll f roots) = .error e ↔ render engine scope roots = .error e) ∧
    ((∀ s ∈ texts, ¬"\x7b\x7b".toList <:+: s ∧ ¬"\x7b%".toList <:+: s) →
      ∃ css, ∀ scope', render engine scope' roots = .ok css) := by
  intro texts
  have hfirst : failure? (render engine scope roots) = firstFailure? (texts.map (scope.expand engine)) :=
    failure?_render engine scope roots
  refine ⟨?_, ?_, ?_, ?_, fun h => exists_render_of_untagged engine fun s hs => ⟨(h s hs).1, (h s hs).2⟩⟩
  · constructor
    · rintro ⟨e, he⟩
      rw [← failure?_eq_some_iff, hfirst, firstFailure?_map_eq_some_iff] at he
      obtain ⟨before, s, after, htexts, -, hs⟩ := he
      exact ⟨s, htexts ▸ List.mem_append_right before List.mem_cons_self, e, hs⟩
    · rintro ⟨s, hs, e, he⟩
      cases hrender : render engine scope roots with
      | error e' => exact ⟨e', rfl⟩
      | ok css =>
        -- then every text expands, also the one that fails
        have hnone : firstFailure? (texts.map (scope.expand engine)) = none := by rw [← hfirst, hrender]; rfl
        obtain ⟨u, hu⟩ := firstFailure?_eq_none_iff.1 hnone _ (List.mem_map_of_mem hs)
        rw [he] at hu
        cases hu
  · intro e
    rw [← failure?_eq_some_iff, hfirst, firstFailure?_map_eq_some_iff]
  · intro parents e
    rw [← failure?_eq_some_iff, ← failure?_eq_some_iff, failure?_compileAll, failure?_render]
  · intro f hf e
    rw [← failure?_eq_some_iff, ← failure?_eq_some_iff, failure?_render, failure?_render, templates_mapBodiesAll hf]

/-- The first of two texts that fail to expand is a value in a block that is not written; renaming the properties and
leaving flags out changes nothing, and braces that open no tag do no harm. -/
theorem render_firstFailure_unwritten :
    let declarations := Body.props [("b", .flag true), ("c", .text "\x7b\x7b nope() \x7d\x7d")]
    let root := mk ["&"] declarations [mk ["\x7b\x7b"] .empty []]
    let rename : Body → Body := fun body => match body with
      | .props ps => .props ((ps.filter fun p => p.2.text?.isSome).map fun p => ("d", p.2))
      | body => body
    let plain := mk ["a \x7b b"] (.raw "\x7b# c: d; \x7d\x7d") []
    render partialEngine {} [root] = .error .unknownFunction ∧
      render partialEngine {} (mapBodiesAll rename [root]) = .error .unknownFunction ∧
      ∃ css, ∀ scope, render partialEngine scope [plain] = .ok css := by
  intro declarations root rename plain
  have hroot : render partialEngine {} [root] = .error .unknownFunction := by
    refine ((render_firstFailure partialEngine {} [root]).2.1 _).2
      ⟨["&".toList], "\x7b\x7b nope() \x7d\x7d".toList, ["\x7b\x7b".toList], rfl, ?_, by decide +kernel⟩
    simp only [List.mem_singleton, forall_eq]
    exact ⟨_, rfl⟩
  have hrename : ∀ body, (rename body).templates = body.templates := by
    intro body
    cases body with
    | empty => rfl
    | raw s => rfl
    | props ps =>
      simp only [rename, Body.templates, List.filterMap_map, List.filterMap_filter]
      refine List.filterMap_congr fun p _ => ?_
      cases h : p.2.text? <;> simp [h]
  refine ⟨hroot, ((render_firstFailure partialEngine {} [root]).2.2.2.1 rename hrename _).2 hroot, ?_⟩
  have hplain : (nodesAll [plain]).flatMap templates = ["a \x7b b".toList, "\x7b# c: d; \x7d\x7d".toList] := rfl
  refine (render_firstFailure partialEngine {} [plain]).2.2.2.2 ?_
  simp only [hplain, ← Text.contains_iff_infix, List.forall_mem_cons]
  decide

end Rule

end Theming
