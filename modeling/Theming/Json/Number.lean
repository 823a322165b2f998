import Theming.Decimal.Layout
import Theming.Decimal.Literal

/-!
# Numbers in JSON

A number is written with its shortest digits and a point, without an exponent from `1e-5` to below `1e16`; one that is
not finite is written as `null`.  It is read by scaling its leading digits.  A literal beyond the range is well formed
but has no value.
-/

namespace Theming.Json

def layout : Decimal.Layout := ⟨.even, fun k => -5 ≤ k && k < 16, true⟩

def numberText (x : Float) : List Char := if x.isFinite then layout.finite x else "null".toList

/-- A literal of JSON: at least one whole digit, no needless zero before the others, and digits after a point. -/
def isStrict (l : Decimal.Literal) : Bool :=
  (match l.whole with
    | [] => false
    | [_] => true
    | c :: _ => c != '0') && l.fraction != some []

/-- The value of a whole text as a literal, where only the value may be missing. -/
def number? (s : List Char) : Option (Option Float) :=
  let unsigned (cs : List Char) : Option (Option Float) := do
    let l ← Decimal.Literal.ofText? cs
    if isStrict l then some l.scaled? else none
  let signed : Option (Option Float) := match s with
    | '-' :: cs => (unsigned cs).map fun x => x.map fun x => -x
    | cs => unsigned cs
  signed.map fun x => x.filter Float.isFinite

end Theming.Json
