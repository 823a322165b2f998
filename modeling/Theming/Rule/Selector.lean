import Theming.Text.Blank

/-!
# Selectors

A selector text may be a comma group.  Commas inside brackets or quotes do not separate, whether these are closed or
not; a backslash inside quotes hides the character after it.  A selector of a nested rule either names its parent by
`&` or is a descendant of it; at the root `&` stands for nothing.
-/

namespace Theming.Selector

/-- Where in a comma group a character stands: below how many open brackets, inside which quotes, and whether just
after a backslash there. -/
structure Scan where
  depth : Nat := 0
  quote : Option Char := none
  escaped : Bool := false
  deriving DecidableEq

namespace Scan

def step (s : Scan) (c : Char) : Scan :=
  match s.quote with
  | some q =>
    if s.escaped then { s with escaped := false }
    else if c = '\\' then { s with escaped := true }
    else if c = q then { s with quote := none }
    else s
  | none =>
    if c = '"' ∨ c = '\'' then { s with quote := some c }
    else if c = '(' ∨ c = '[' then { s with depth := s.depth + 1 }
    else if c = ')' ∨ c = ']' then { s with depth := s.depth - 1 }
    else s

/-- A comma separates here. -/
def isOpen (s : Scan) : Bool := s.quote.isNone && s.depth == 0

end Scan

/-- The segments between separating commas; there is at least one. -/
def segments (s : Scan) : List Char → List (List Char)
  | [] => [[]]
  | c :: rest =>
    if c = ',' ∧ s.isOpen then [] :: segments s rest
    else
      match segments (s.step c) rest with
      | [] => [[c]]
      | first :: more => (c :: first) :: more

/-- The selectors of a comma group, trimmed, without empty ones. -/
def splitGroup (group : List Char) : List (List Char) :=
  ((segments {} group).map Text.trim).filter (· ≠ [])

/-- Puts a text for every `&`. -/
def fill (parent : List Char) (selector : List Char) : List Char :=
  selector.flatMap fun c => if c = '&' then parent else [c]

/-- A selector below one parent. -/
def under (parent selector : List Char) : List Char :=
  if '&' ∈ selector then fill parent selector else parent ++ ' ' :: selector

/-- The selectors of a rule below its parents, parents first; a rule without selectors takes over its parents'. -/
def resolve (parents selectors : List (List Char)) : List (List Char) :=
  if selectors = [] then parents
  else if parents = [] then (selectors.map fun s => Text.trim (fill [] s)).filter (· ≠ [])
  else parents.flatMap fun parent => selectors.map (under parent)

end Theming.Selector
