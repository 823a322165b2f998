/-!
# Configuration values

What a configuration text says, whatever its format.  An object keeps its members in order and may repeat a name: what
a repeated name means is for the reader of the object to say.  What is well formed but has no value, such as a number
beyond the range, is `unreadable`; it is in the way only of those who use it.
-/

namespace Theming

inductive Value where
  | null
  | flag (b : Bool)
  | number (x : Float)
  | text (s : String)
  | list (items : List Value)
  | object (members : List (String × Value))
  | unreadable
  deriving Inhabited

namespace Value

mutual

/-- How deep lists and objects are nested. -/
def depth : Value → Nat
  | .null | .flag _ | .number _ | .text _ | .unreadable => 0
  | .list items => listDepth items + 1
  | .object members => objectDepth members + 1

def listDepth : List Value → Nat
  | [] => 0
  | v :: vs => max v.depth (listDepth vs)

def objectDepth : List (String × Value) → Nat
  | [] => 0
  | (_, v) :: ms => max v.depth (objectDepth ms)

end

end Value

end Theming
