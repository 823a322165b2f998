import Theming.Template.Datum
import Theming.Template.Expr
import Theming.Text.Blank

/-!
# What operators do

Whole numbers have at most 128 bits with their sign, and what does not fit is an error, as is any operator on values
that it is not made for.  Division of whole numbers rounds so that the remainder is not negative.
-/

namespace Theming.Template

namespace Datum

/-- A whole number, if it is not too large. -/
def ofWhole (n : Int) : Except TemplateError Datum :=
  if -(Nat.pow 2 127) ≤ n ∧ n < Nat.pow 2 127 then return .whole n else throw .invalidOperation

/-- A whole number from `2 ^ 127` on has no negative; `2 ^ 127` itself is left as it is. -/
def negate : Datum → Except TemplateError Datum
  | .whole n =>
    if n < Nat.pow 2 127 then return .whole (-n)
    else if n = Nat.pow 2 127 then return .whole n
    else throw .invalidOperation
  | .decimal x => return .decimal (-x)
  | _ => throw .invalidOperation

/-- Two numbers, as decimals if one of them is. -/
def combine (wholes : Int → Int → Except TemplateError Datum) (decimals : Float → Float → Float)
    (d e : Datum) : Except TemplateError Datum :=
  match d.number?, e.number? with
  | some (.whole m), some (.whole n) =>
    if m < Nat.pow 2 127 ∧ n < Nat.pow 2 127 then wholes m n else throw .invalidOperation
  | some a, some b => return .decimal (decimals a.toFloat b.toFloat)
  | _, _ => throw .invalidOperation

/-- A decimal without its fraction. -/
def truncate (x : Float) : Float := if x < 0 then x.ceil else x.floor

def remainder (x y : Float) : Float := x - y * truncate (x / y)

/-- The quotient whose remainder is not negative. -/
def floorQuotient (x y : Float) : Float :=
  let q := truncate (x / y)
  if remainder x y < 0 then (if 0 < y then q - 1 else q + 1) else q

/-- `m` to a power; the exponent has at most 32 bits. -/
def wholePower (m n : Int) : Except TemplateError Datum :=
  if n < 0 ∨ Nat.pow 2 32 ≤ n then throw .invalidOperation
  else if m.natAbs ≤ 1 then ofWhole (if n % 2 = 0 then (if n = 0 then 1 else m * m) else m)
  else if 127 < n then throw .invalidOperation
  else ofWhole (Int.pow m n.toNat)

/-- A text or list repeated. -/
def repeated (d n : Datum) : Except TemplateError Datum :=
  match n.whole?, d with
  | some n, .text s =>
    if 0 ≤ n then return .text (List.replicate n.toNat s).flatten else throw .invalidOperation
  | some n, .list items =>
    if 0 ≤ n then return .list (List.replicate n.toNat items).flatten else throw .invalidOperation
  | _, _ => throw .invalidOperation

def isRepeatable : Datum → Bool
  | .text _ | .list _ => true
  | _ => false

/-- Whether a value is in a text, list or mapping; nothing is in a missing one. -/
def contains : Datum → Datum → Except TemplateError Bool
  | .undefined, _ => return false
  | .text s, d => return Text.contains d.print s
  | .list items, d => return items.any d.equals
  | .mapping members, d => return (lookup? d members).isSome
  | _, _ => throw .invalidOperation

/-- The elements between two positions, either of which may be counted from the end or left out, one in `step`; a
negative step goes backwards. -/
def sliceOf {α : Type} (start stop : Option Int) (step : Int) (xs : List α) : List α :=
  let count (i : Int) : Int := if i < 0 then max 0 (xs.length + i) else min xs.length i
  if 0 < step then
    let first := count (start.getD 0)
    let part := (xs.take (count (stop.getD xs.length)).toNat).drop first.toNat
    (part.zipIdx.filter fun x => x.2 % step.toNat = 0).map (·.1)
  else
    let last : Int := start.elim (xs.length : Int) fun i => count i + 1
    let part := ((xs.take last.toNat).drop (stop.elim (0 : Nat) fun i => (count i + 1).toNat)).reverse
    (part.zipIdx.filter fun x => x.2 % step.natAbs = 0).map (·.1)

/-- A bound of a slice. -/
def bound? : Datum → Except TemplateError (Option Int)
  | .nothing => return none
  | d => match d.whole? with
    | some n => return some n
    | none => throw .invalidOperation

def slice (d start stop step : Datum) : Except TemplateError Datum := do
  let start ← start.bound?
  let stop ← stop.bound?
  let step := (← step.bound?).getD 1
  if step = 0 then throw .invalidOperation
  match d with
  | .undefined | .nothing => return .list []
  | .text s => return .text (sliceOf start stop step s)
  | .list items => return .list (sliceOf start stop step items)
  | _ => throw .invalidOperation

end Datum

/-- What an operator makes of its two operands.  `or` gives one of them, and so does `and` if it holds. -/
def Operator.apply (op : Operator) (d e : Datum) : Except TemplateError Datum :=
  match op with
  | .or => return if d.isTrue then d else e
  | .and => return if d.isTrue && e.isTrue then e else .flag false
  | .equal => return .flag (d.equals e)
  | .unequal => return .flag (!d.equals e)
  | .less => return .flag (d.compare e == .lt)
  | .atMost => return .flag (d.compare e != .gt)
  | .greater => return .flag (d.compare e == .gt)
  | .atLeast => return .flag (d.compare e != .lt)
  | .member => return .flag (← e.contains d)
  | .plus =>
    match d, e with
    | .text s, .text t => return .text (s ++ t)
    | .list ds, .list es => return .list (ds ++ es)
    | d, e => Datum.combine (fun m n => Datum.ofWhole (m + n)) (· + ·) d e
  | .minus => Datum.combine (fun m n => Datum.ofWhole (m - n)) (· - ·) d e
  | .concat => return .text (d.print ++ e.print)
  | .times =>
    if d.isRepeatable then d.repeated e
    else if e.isRepeatable then e.repeated d
    else Datum.combine (fun m n => Datum.ofWhole (m * n)) (· * ·) d e
  | .divide =>
    match d.number?, e.number? with
    | some a, some b => return .decimal (a.toFloat / b.toFloat)
    | _, _ => throw .invalidOperation
  | .floor =>
    Datum.combine (fun m n => if n = 0 then throw .invalidOperation else Datum.ofWhole (m / n)) Datum.floorQuotient d e
  | .remainder =>
    Datum.combine (fun m n => if n = 0 then throw .invalidOperation else Datum.ofWhole (m % n)) Datum.remainder d e
  | .power => Datum.combine Datum.wholePower Float.pow d e

end Theming.Template
