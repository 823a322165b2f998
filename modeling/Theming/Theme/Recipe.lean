import Theming.Naming
import Theming.Theme.Definition

/-!
# Generators by recipe

A recipe derives own tokens from common ones by a list of steps; a later step replaces an earlier token of its name.
-/

namespace Theming

inductive RecipeStep
  /-- Sets a token to a fixed value. -/
  | set (key : String) (value : Token)
  /-- Copies a common token if there is one. -/
  | copy (key source : String)
  /-- The common token if it is text, else the given text. -/
  | text (key source otherwise : String)
  /-- The common token if it is a number, else the given number, times a factor. -/
  | multiply (key source : String) (otherwise factor : Float)
  /-- The number of common tokens. -/
  | count (key : String)
  /-- Every common token, as a variant of a base. -/
  | variants (base : String)

def RecipeStep.run (common : TokenMap) (tokens : TokenMap) : RecipeStep → TokenMap
  | set key value => tokens.insert key value
  | copy key source => (common.get? source).elim tokens (tokens.insert key ·)
  | text key source otherwise => tokens.insert key (.text ((common.text? source).getD otherwise))
  | multiply key source otherwise factor =>
    tokens.insert key (.number ((common.number? source).getD otherwise * factor))
  | count key => tokens.insert key (.number common.size.toFloat)
  | variants base => common.foldl (fun tokens name value => tokens.insert (variantKey base name) value) tokens

def Generator.ofRecipe (steps : List RecipeStep) : Generator := fun common => steps.foldl (RecipeStep.run common) ∅

end Theming
