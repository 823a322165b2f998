/-!
# Digits

Texts of digits and the numbers that they stand for.  Beyond base ten the letters up to `f` are digits too, in either
case.
-/

namespace Theming.Text

/-- The value of a digit of a base up to sixteen. -/
def digit? (c : Char) : Option Nat :=
  if c.isDigit then some (c.toNat - '0'.toNat)
  else if 'a' ≤ c ∧ c ≤ 'f' then some (c.toNat - 'a'.toNat + 10)
  else if 'A' ≤ c ∧ c ≤ 'F' then some (c.toNat - 'A'.toNat + 10)
  else none

def ofDigits (base : Nat) (ds : List Nat) : Nat := ds.foldl (fun n d => base * n + d) 0

/-- The number that digits of a base stand for; there is at least one. -/
def number? (base : Nat) (s : List Char) : Option Nat := do
  let ds ← s.mapM digit?
  if ds ≠ [] ∧ ds.all (· < base) then some (ofDigits base ds) else none

/-- The number that decimal digits stand for. -/
def decimalValue (ds : List Char) : Nat := ofDigits 10 (ds.map fun c => c.toNat - '0'.toNat)

example : number? 16 "fF".toList = some 255 ∧ number? 8 "08".toList = none := by decide

end Theming.Text
