import Theming.Decimal.Shortest

/-!
# How numbers are written

A layout says which way equal distances go, which numbers are written without an exponent, and whether a whole
number shows its point.  The digits are always the shortest ones.
-/

namespace Theming.Decimal

structure Layout where
  tie : Tie
  /-- Whether a number whose first digit counts `10 ^ k` is written without an exponent. -/
  plain : Int → Bool
  /-- Whether a whole number written without an exponent ends in `.0`. -/
  point : Bool

def digitsText (n : Nat) : List Char := Nat.toDigits 10 n

/-- `t` without an exponent. -/
def Tens.plainText (point : Bool) (t : Tens) : List Char :=
  let ds := digitsText t.digits
  if 0 ≤ t.power then
    ds ++ List.replicate t.power.toNat '0' ++ if point then ['.', '0'] else []
  else
    let places := (-t.power).toNat
    let padded := List.replicate (places + 1 - ds.length) '0' ++ ds
    padded.take (padded.length - places) ++ '.' :: padded.drop (padded.length - places)

/-- `t` with one digit before the point and an exponent with a sign. -/
def Tens.exponentText (t : Tens) : List Char :=
  let ds := digitsText t.digits
  let e := t.power + (ds.length - 1 : Nat)
  let sign := if e < 0 then '-' else '+'
  ds.take 1 ++ (if ds.length = 1 then [] else '.' :: ds.drop 1) ++ 'e' :: sign :: digitsText e.natAbs

/-- A finite number; the sign of zero is kept. -/
def Layout.finite (l : Layout) (x : Float) : List Char :=
  let t := (Binary.ofFloat x).shortest l.tie
  let sign := if Nat.pow 2 63 ≤ x.toBits.toNat then ['-'] else []
  sign ++ if l.plain (t.power + (countDigits t.digits - 1 : Nat)) then t.plainText l.point else t.exponentText

/-- Style sheets have no exponents and no needless point. -/
def Layout.css : Layout := ⟨.up, fun _ => true, false⟩

/-- Number text in style sheets; zero has no sign there. -/
def cssText (x : Float) : String :=
  if x.isNaN then "NaN"
  else if x.isInf then (if x < 0 then "-inf" else "inf")
  else if x == 0 then "0"
  else String.ofList (Layout.css.finite x)

end Theming.Decimal
