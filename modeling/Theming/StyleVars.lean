import Theming.Theme.Merged

/-!
# Custom properties

The custom properties of a component's style attribute, in the order in which they were first given a value.  Tokens
that the theme does not have are skipped, so that the style sheet's own defaults apply.
-/

namespace Theming

structure StyleVars where
  vars : List (String × String) := []

namespace StyleVars

private def assign (name value : String) : List (String × String) → List (String × String)
  | [] => [(name, value)]
  | (n, v) :: rest => if n = name then (n, value) :: rest else (n, v) :: assign name value rest

/-- Sets a property, in place if it is there already. -/
def set (name value : String) (s : StyleVars) : StyleVars := ⟨assign name value s.vars⟩

def setToken (name : String) (token : Option Token) (s : StyleVars) : StyleVars :=
  token.elim s fun t => s.set name t.css

def setCommon (theme : MergedTheme) (name token : String) (s : StyleVars) : StyleVars :=
  s.setToken name (theme.common.get? token)

def setOwn (theme : MergedTheme) (name token : String) (s : StyleVars) : StyleVars :=
  s.setToken name (theme.tokens.get? token)

def setVariant (theme : MergedTheme) (name base variant : String) (s : StyleVars) : StyleVars :=
  s.setToken name (theme.variant? base variant)

def get? (name : String) (s : StyleVars) : Option String := s.vars.lookup name

/-- The properties in their order. -/
def names (s : StyleVars) : List String := s.vars.map Prod.fst

/-- The style attribute's text. -/
def style (s : StyleVars) : String := " ".intercalate (s.vars.map fun p => p.1 ++ ": " ++ p.2 ++ ";")

private theorem lookup_cons_pair (n : String) (p : String × String) (rest : List (String × String)) :
    (p :: rest).lookup n = if n = p.1 then some p.2 else rest.lookup n := by
  rw [List.lookup_cons]
  by_cases h : n = p.1
  · simp [h]
  · rw [if_neg h, beq_eq_false_iff_ne.2 h]

private theorem lookup_assign (n name value : String) (vars : List (String × String)) :
    (assign name value vars).lookup n = if n = name then some value else vars.lookup n := by
  induction vars with
  | nil => rw [assign, lookup_cons_pair]
  | cons p rest ih =>
    rw [assign]
    split
    · next h =>
      subst h
      simp only [lookup_cons_pair]
      split <;> rfl
    · next h =>
      simp only [lookup_cons_pair, ih]
      split
      · next e => rw [if_neg (e ▸ h)]
      · rfl

theorem get?_set (n name value : String) (s : StyleVars) :
    (s.set name value).get? n = if n = name then some value else s.get? n :=
  lookup_assign n name value s.vars

private theorem map_fst_assign (name value : String) (vars : List (String × String)) :
    (assign name value vars).map Prod.fst =
      if name ∈ vars.map Prod.fst then vars.map Prod.fst else vars.map Prod.fst ++ [name] := by
  induction vars with
  | nil => rfl
  | cons p rest ih =>
    obtain ⟨n, v⟩ := p
    rw [assign]
    by_cases hn : n = name
    · simp [hn]
    · rw [if_neg hn, List.map_cons, ih, List.map_cons]
      simp only [List.mem_cons, Ne.symm hn, false_or]
      split <;> rfl

/-- A property that is there keeps its place, and a new one comes last. -/
theorem names_set (name value : String) (s : StyleVars) :
    (s.set name value).names = if name ∈ s.names then s.names else s.names ++ [name] :=
  map_fst_assign name value s.vars

end StyleVars

end Theming
