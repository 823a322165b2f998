import Theming.NameMap
import Theming.Decimal.Layout

/-!
# Tokens

A token is a single design value: a text such as a colour or a length, a number, or a flag.  Two numbers are the same
token when they are equal as numbers, so a token that is not a number equals nothing.
-/

namespace Theming

inductive Token
  | flag (b : Bool)
  | number (x : Float)
  | text (s : String)
  deriving BEq, Inhabited

namespace Token

def text? : Token → Option String
  | .text s => some s
  | _ => none

def number? : Token → Option Float
  | .number x => some x
  | _ => none

/-- The token as it stands in a style sheet. -/
def css : Token → String
  | .flag b => if b then "true" else "false"
  | .number x => Decimal.cssText x
  | .text s => s

end Token

/-- Token values by name. -/
abbrev TokenMap := NameMap Token

namespace TokenMap

def text? (m : TokenMap) (name : String) : Option String := (m.get? name).bind Token.text?

def number? (m : TokenMap) (name : String) : Option Float := (m.get? name).bind Token.number?

end TokenMap

end Theming
