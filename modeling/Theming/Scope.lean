import Theming.Text.Blank
import Theming.Value

/-!
# Scopes

The texts of rules are templates, and a scope is the value of the one variable that they may have.  What else a template
may say is left open: an engine expands it in a scope, or fails in a way of its own.  Whatever is built from rules has
the engine as a parameter.
-/

namespace Theming

/-- What replaces the placeholder when rules are compiled: nothing, or the start of every class selector. -/
structure Scope where
  selector : Option String := none
  deriving DecidableEq

/-- Expands templates; `ε` are its failures. -/
abbrev Template.Engine (ε : Type) := Scope → List Char → Except ε (List Char)

namespace Scope

/-- Scopes blocks under a class prefix. -/
def ofPrefix (clsPrefix : String) : Scope := ⟨some ("." ++ clsPrefix ++ "-")⟩

/-- The scope as a configuration value; without a selector it is empty. -/
def toValue (scope : Scope) : Value := .object (scope.selector.map fun s => ("prefix", Value.text s)).toList

/-- The text as it is written.  One with neither printing nor statement tags does not come before the engine and is kept
as it is, comments and last line break included. -/
def expand {ε : Type} (engine : Template.Engine ε) (scope : Scope) (s : List Char) : Except ε (List Char) :=
  if Text.contains ['{', '{'] s || Text.contains ['{', '%'] s then engine scope s else return s

end Scope

end Theming
