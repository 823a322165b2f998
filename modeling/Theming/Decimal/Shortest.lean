/-!
# The shortest decimal of a binary number

A finite double is `mantissa * 2 ^ power`.  Every decimal that lies closer to it than to its neighbours reads back as
the same number (the midpoints do so when the mantissa is even), and among these the shortest is the one with the
fewest digits, of those the nearest.  Every double has an exact decimal expansion, so all comparisons here are made
between whole numbers, in quarters of its last decimal place.
-/

namespace Theming.Decimal

/-- The number `mantissa * 2 ^ power`. -/
structure Binary where
  mantissa : Nat
  power : Int

/-- Normal doubles have mantissas from this one up to below its double, the others smaller ones. -/
def leastNormal : Nat := Nat.pow 2 52

/-- The magnitude of a finite double. -/
def Binary.ofFloat (x : Float) : Binary :=
  let bits := x.toBits.toNat
  let exponent := bits / leastNormal % 2048
  let fraction := bits % leastNormal
  if exponent = 0 then ⟨fraction, -1074⟩ else ⟨leastNormal + fraction, (exponent : Int) - 1075⟩

/-- The number `digits * 10 ^ power`. -/
structure Tens where
  digits : Nat
  power : Int

/-- Which of two equally near decimals with the fewest digits is taken. -/
inductive Tie
  | up
  | even

def countDigits (n : Nat) : Nat := (Nat.toDigits 10 n).length

/-- One unit of the last binary place, in units of the last place of the exact decimal expansion. -/
def Binary.unit (b : Binary) : Nat := Nat.pow 2 b.power.toNat * Nat.pow 5 (-b.power).toNat

/-- The exact decimal expansion. -/
def Binary.exact (b : Binary) : Tens := ⟨b.mantissa * b.unit, min b.power 0⟩

/-- `candidate`, in units of the last place of the exact expansion, reads back as `b`. -/
def Binary.readsBack (b : Binary) (candidate : Nat) : Bool :=
  let centre := 4 * b.exact.digits
  let above := centre + 2 * b.unit
  let below := centre - if b.mantissa = leastNormal ∧ b.power ≠ -1074 then b.unit else 2 * b.unit
  if b.mantissa % 2 = 0 then below ≤ 4 * candidate && 4 * candidate ≤ above
  else below < 4 * candidate && 4 * candidate < above

/-- The better of the two neighbours of `b` among the multiples of `10 ^ place`, if one reads back. -/
def Binary.onGrid? (b : Binary) (tie : Tie) (place : Nat) : Option Tens :=
  let step := Nat.pow 10 place
  let exact := b.exact
  let low := exact.digits / step
  let rest := exact.digits % step
  let takeLow := 2 * rest < step || (2 * rest == step && (match tie with | .up => false | .even => low % 2 == 0))
  let nearer := if takeLow then low else low + 1
  let farther := if takeLow then low + 1 else low
  ([nearer, farther].find? fun d => b.readsBack (d * step)).map fun d => ⟨d, exact.power + place⟩

/-- Drops zeros at the end of the digits; the fuel bounds their number. -/
def Tens.trimZeros : Nat → Tens → Tens
  | 0, t => t
  | fuel + 1, t => if t.digits ≠ 0 ∧ t.digits % 10 = 0 then trimZeros fuel ⟨t.digits / 10, t.power + 1⟩ else t

/-- The shortest decimal that reads back as `b`: the coarsest grid with a hit wins. -/
def Binary.shortest (tie : Tie) (b : Binary) : Tens :=
  if b.mantissa = 0 then ⟨0, 0⟩ else
    let exact := b.exact
    let size := countDigits exact.digits
    (((List.range size).reverse.findSome? fun place => b.onGrid? tie place).getD exact).trimZeros size

end Theming.Decimal
