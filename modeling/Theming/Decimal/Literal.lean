import Theming.Decimal.Shortest
import Theming.Text.Digit

/-!
# Numbers as written

A literal has whole digits, perhaps a point with digits after it, and perhaps an exponent.  It is read in one of two
ways: as the nearest double, with the even mantissa at equal distances, or by scaling, where as many leading digits as
fit in 64 bits are taken as a whole number and multiplied or divided once by a power of ten in floating point.
-/

namespace Theming.Decimal

/-- An unsigned literal; `fraction` is `none` when there is no point. -/
structure Literal where
  whole : List Char
  fraction : Option (List Char)
  exponent : Int

/-- What may follow the digits and the fraction: nothing, or an exponent with at least one digit. -/
def exponent? : List Char → Option Int
  | [] => some 0
  | e :: rest =>
    if e = 'e' ∨ e = 'E' then
      let (negative, ds) := match rest with
        | '-' :: ds => (true, ds)
        | '+' :: ds => (false, ds)
        | ds => (false, ds)
      if ds ≠ [] ∧ ds.all Char.isDigit then
        some (if negative then -Text.decimalValue ds else Text.decimalValue ds)
      else none
    else none

/-- Reads a whole text as a literal; digits are needed before or after the point. -/
def Literal.ofText? (s : List Char) : Option Literal :=
  let whole := s.takeWhile Char.isDigit
  match s.dropWhile Char.isDigit with
  | '.' :: rest =>
    let fraction := rest.takeWhile Char.isDigit
    if whole = [] ∧ fraction = [] then none
    else (exponent? (rest.dropWhile Char.isDigit)).map fun e => ⟨whole, some fraction, e⟩
  | rest => if whole = [] then none else (exponent? rest).map fun e => ⟨whole, none, e⟩

def Literal.fractionDigits (l : Literal) : List Char := l.fraction.getD []

/-! ### The nearest double -/

def infinity : Float := 1.0 / 0.0

/-- The double nearest to `num / den`, both positive. -/
def nearestQuotient (num den : Nat) : Float :=
  let low : Int := (num.log2 : Int) - den.log2 - 53
  let scaled (p : Int) : Nat × Nat := (num * Nat.pow 2 (-p).toNat, den * Nat.pow 2 p.toNat)
  let fits := (scaled low).1 < 2 * leastNormal * (scaled low).2
  let power := max (if fits then low else low + 1) (-1074)
  let (n, d) := scaled power
  let mantissa := n / d
  let twice := 2 * (n % d)
  let rounded := if d < twice ∨ (twice = d ∧ mantissa % 2 = 1) then mantissa + 1 else mantissa
  let bits := rounded + (power + 1074).toNat * leastNormal
  if bits < 2047 * leastNormal then Float.ofBits bits.toUInt64 else infinity

/-- The nearest double; beyond the range it is infinity, below it zero. -/
def Literal.nearest (l : Literal) : Float :=
  let digits := Text.decimalValue (l.whole ++ l.fractionDigits)
  let power := l.exponent - l.fractionDigits.length
  let size : Int := (l.whole.length + l.fractionDigits.length : Nat)
  if digits = 0 ∨ size + power < -330 then 0.0
  else if 310 < power then infinity
  else nearestQuotient (digits * Nat.pow 10 power.toNat) (Nat.pow 10 (-power).toNat)

/-! ### Scaling -/

/-- Appends digits to a number as long as it stays below `2 ^ 64`; the second part is what is left. -/
def absorb (n : Nat) : List Char → Nat × List Char
  | [] => (n, [])
  | c :: rest =>
    let next := 10 * n + (c.toNat - '0'.toNat)
    if next < Nat.pow 2 64 then absorb next rest else (n, c :: rest)

def tenTo (k : Nat) : Float := nearestQuotient (Nat.pow 10 k) 1

/-- `x * 10 ^ power` with one rounding; `none` beyond the range. -/
def scale? (x : Float) (power : Int) : Option Float :=
  if x == 0 then some 0.0
  else if 308 < power then none
  else if 0 ≤ power then
    let y := x * tenTo power.toNat
    if y.isInf then none else some y
  else if -308 ≤ power then some (x / tenTo (-power).toNat)
  else if -616 ≤ power then some (x / tenTo 308 / tenTo (-power - 308).toNat)
  else some 0.0

def Literal.scaled? (l : Literal) : Option Float :=
  let (w, excess) := absorb 0 l.whole
  let (n, left) := absorb w l.fractionDigits
  scale? n.toUInt64.toFloat (l.exponent + excess.length - (l.fractionDigits.length - left.length : Nat))

/-! ### Number text with words -/

/-- The nearest double to a decimal text with an optional sign, or one of the words for infinity and not-a-number in
any letter case. -/
def ofText? (s : String) : Option Float :=
  let unsigned (cs : List Char) : Option Float :=
    let word := cs.map Char.toLower
    if word = "inf".toList ∨ word = "infinity".toList then some infinity
    else if word = "nan".toList then some (infinity - infinity)
    else (Literal.ofText? cs).map Literal.nearest
  match s.toList with
  | '-' :: cs => (unsigned cs).map fun x => -x
  | '+' :: cs => unsigned cs
  | cs => unsigned cs

end Theming.Decimal
