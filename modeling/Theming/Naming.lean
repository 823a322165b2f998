/-!
# Names of tokens and of properties

The token of a size or variant is named by its base and the capitalised variant, as in `heightLarge`; the variant
`default` is the base itself.  A property is written in hyphenated form: each ASCII capital becomes a hyphen and its
small letter, so a leading capital gives a vendor prefix.  Custom properties, which start with two hyphens, are left
alone.
-/

namespace Theming

/-- Makes the first character a capital if it is a small ASCII letter. -/
def capitalize : List Char → List Char
  | [] => []
  | c :: rest => c.toUpper :: rest

def variantKey (base variant : String) : String :=
  if variant = "default" then base else base ++ String.ofList (capitalize variant.toList)

/-- How one character of a property name is written. -/
def hyphenate (c : Char) : List Char :=
  if c.isUpper then ['-', c.toLower] else [c]

def cssName (name : String) : String :=
  match name.toList with
  | '-' :: '-' :: _ => name
  | cs => String.ofList (cs.flatMap hyphenate)

end Theming
