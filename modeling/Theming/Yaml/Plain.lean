import Theming.Decimal.Literal
import Theming.Value
import Theming.Yaml.Node

/-!
# What scalars mean

A plain scalar is null, a flag, a number or a text, by the core rules of YAML 1.2: whole numbers may be written with
base sixteen, eight or two, a run of digits that starts with a needless zero is text, and so is a decimal beyond the
range of doubles.  A whole number of more than 64 bits, but not more than 128, has no value here.
-/

namespace Theming.Yaml

def isNullWord (s : String) : Bool := ["~", "null", "Null", "NULL"].contains s

def isNull (s : String) : Bool := s == "" || isNullWord s

def flag? (s : String) : Option Bool :=
  if ["true", "True", "TRUE"].contains s then some true
  else if ["false", "False", "FALSE"].contains s then some false
  else none

/-- Digits that start with a needless zero, after an optional sign. -/
def isZeroRun (s : List Char) : Bool :=
  let ds := match s with
    | '-' :: ds => ds
    | '+' :: ds => ds
    | ds => ds
  1 < ds.length && ds.head? == some '0' && ds.all Char.isDigit

/-- A whole number without its sign. -/
def magnitude? : List Char → Option Nat
  | '0' :: 'x' :: ds => Text.number? 16 ds
  | '0' :: 'o' :: ds => Text.number? 8 ds
  | '0' :: 'b' :: ds => Text.number? 2 ds
  | ds => Text.number? 10 ds

def integer? (s : List Char) : Option Int :=
  if isZeroRun s then none
  else match s with
    | '-' :: ds => (magnitude? ds).map fun n => -n
    | '+' :: ds => (magnitude? ds).map fun n => n
    | ds => (magnitude? ds).map fun n => n

def float? (s : String) : Option Float :=
  if ["+.inf", "+.Inf", "+.INF", ".inf", ".Inf", ".INF"].contains s then some Decimal.infinity
  else if ["-.inf", "-.Inf", "-.INF"].contains s then some (-Decimal.infinity)
  else if [".nan", ".NaN", ".NAN"].contains s then some (Decimal.infinity - Decimal.infinity)
  else (Decimal.ofText? s).filter Float.isFinite

/-- A whole number that is a word of `bits` bits, with or without a sign. -/
def fits (bits : Nat) (n : Int) : Bool := -(Nat.pow 2 (bits - 1) : Int) ≤ n && n < (Nat.pow 2 bits : Int)

/-- The value of a whole number; one too wide for 64 bits has none. -/
def integerValue? (n : Int) : Option Value :=
  if fits 64 n then
    let x := if n = 0 then 0.0 else Decimal.nearestQuotient n.natAbs 1
    some (.number (if n < 0 then -x else x))
  else none

/-- A whole number, if it fits into 128 bits. -/
def wideInteger? (s : String) : Option Int := (integer? s.toList).filter (fits 128)

/-- The value of a plain scalar. -/
def plainValue? (s : String) : Option Value :=
  if isNull s then some .null
  else
    match flag? s, wideInteger? s with
    | some b, _ => some (.flag b)
    | none, some n => integerValue? n
    | none, none => some ((((float? s).filter fun _ => !isZeroRun s.toList).map Value.number).getD (.text s))

/-! ### Tags -/

/-- A tag that the schema of YAML defines. -/
def schemaTag (kind : String) : String := "tag:yaml.org,2002:" ++ kind

/-- A tag that is made up by whoever uses it. -/
def isLocalTag (tag : String) : Bool := tag.startsWith "!"

/-- The value of a scalar.  A tag of the schema says what kind of scalar it is, whatever it looks like. -/
def scalarValue? (tag : Option String) (style : Style) (s : String) : Option Value :=
  match tag with
  | none => if style = .plain then plainValue? s else some (.text s)
  | some tag =>
    if isLocalTag tag then none
    else if tag = schemaTag "bool" then (flag? s).map .flag
    else if tag = schemaTag "int" then (wideInteger? s).bind integerValue?
    else if tag = schemaTag "float" then (float? s).map .number
    else if tag = schemaTag "null" then (if isNullWord s then some .null else none)
    else some (.text s)

namespace Node

/-- A flag; its kind is told by a plain style, or by the tag of a literal one. -/
def flag? : Node → Option Bool
  | .scalar tag style s =>
    if style = .plain ∨ style = .literal ∧ tag = some (schemaTag "bool") then Yaml.flag? s else none
  | _ => none

/-- Reads a node that may stand for nothing. -/
def optional? {β : Type} (read : Node → Option β) : Node → Option (Option β)
  | .scalar tag .plain s =>
    if tag = some (schemaTag "null") then (if isNullWord s then some none else none)
    else if tag = none ∧ isNull s then some none
    else (read (.scalar tag .plain s)).map some
  | n => (read n).map some

mutual

/-- The value of a node; the names of a mapping have to be texts. -/
def value? : Node → Option Value
  | .scalar tag style s => scalarValue? tag style s
  | .sequence tag items => if tag.any isLocalTag then none else (values? items).map .list
  | .mapping tag ms => if tag.any isLocalTag then none else (membersValue? ms).map .object
termination_by structural n => n

def values? : List Node → Option (List Value)
  | [] => some []
  | n :: ns => return (← value? n) :: (← values? ns)
termination_by structural ns => ns

def membersValue? : List (Node × Node) → Option (List (String × Value))
  | [] => some []
  | (key, n) :: ms => do
    match ← value? key with
    | .text name => return (name, ← value? n) :: (← membersValue? ms)
    | _ => none
termination_by structural ms => ms

end

end Node

end Theming.Yaml
