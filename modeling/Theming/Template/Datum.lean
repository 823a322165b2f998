import Theming.Decimal.Layout

/-!
# The values of expressions

Values are told apart by kinds, and those of different kinds are ordered by their kinds; but a flag equals the number
one or zero.  In a list or mapping a text is written in quotes.
-/

namespace Theming.Template

inductive Datum
  | undefined
  | nothing
  | flag (b : Bool)
  | whole (n : Int)
  | decimal (x : Float)
  | text (s : List Char)
  | list (items : List Datum)
  /-- The names are different and in order. -/
  | mapping (members : List (Datum × Datum))
  deriving Inhabited

namespace Datum

/-! ### Text -/

/-- Decimals have no exponents, and always a point. -/
def decimalLayout : Decimal.Layout := ⟨.up, fun _ => true, true⟩

def decimalText (x : Float) : List Char :=
  if x.isNaN then "NaN".toList
  else if x.isInf then (if x < 0 then "-inf" else "inf").toList
  else decimalLayout.finite x

/-- A character in a quoted text. -/
def quotedChar (quote c : Char) : List Char :=
  if c = '\\' ∨ c = quote then ['\\', c]
  else if c = '\n' then "\\n".toList
  else if c = '\r' then "\\r".toList
  else if c = '\t' then "\\t".toList
  else [c]

/-- A text in single quotes, or in double quotes if there are only single ones in it. -/
def quotedText (s : List Char) : List Char :=
  let quote := if s.contains '\'' && !s.contains '"' then '"' else '\''
  quote :: s.flatMap (quotedChar quote) ++ [quote]

mutual

/-- The text of a value in a list or mapping. -/
def inner : Datum → List Char
  | .undefined => "undefined".toList
  | .nothing => "None".toList
  | .flag b => (if b then "True" else "False").toList
  | .whole n => (if n < 0 then ['-'] else []) ++ Nat.toDigits 10 n.natAbs
  | .decimal x => decimalText x
  | .text s => quotedText s
  | .list items => '[' :: innerItems items ++ [']']
  | .mapping members => '{' :: innerMembers members ++ ['}']
termination_by structural d => d

def innerItems : List Datum → List Char
  | [] => []
  | [d] => d.inner
  | d :: ds => d.inner ++ ", ".toList ++ innerItems ds
termination_by structural ds => ds

def innerMembers : List (Datum × Datum) → List Char
  | [] => []
  | [(key, d)] => key.inner ++ ": ".toList ++ d.inner
  | (key, d) :: ms => key.inner ++ ": ".toList ++ d.inner ++ ", ".toList ++ innerMembers ms
termination_by structural ms => ms

end

def print : Datum → List Char
  | .undefined => []
  | .text s => s
  | d => d.inner

def isTrue : Datum → Bool
  | .undefined | .nothing => false
  | .flag b => b
  | .whole n => n != 0
  | .decimal x => x != 0
  | .text s => !s.isEmpty
  | .list items => !items.isEmpty
  | .mapping members => !members.isEmpty

/-! ### Numbers -/

inductive Number
  | whole (n : Int)
  | decimal (x : Float)

def Number.toFloat : Number → Float
  | .whole n => Float.ofInt n
  | .decimal x => x

/-- The number that a value stands for. -/
def number? : Datum → Option Number
  | .flag b => some (.whole (if b then 1 else 0))
  | .whole n => some (.whole n)
  | .decimal x => some (.decimal x)
  | _ => none

/-- The whole number that a value stands for. -/
def whole? (d : Datum) : Option Int := do
  match ← d.number? with
  | .whole n => some n
  | .decimal x => if x.floor == x ∧ x.abs < 9.0e18 then some x.toInt64.toInt else none

/-! ### Order -/

/-- The place of a kind among the kinds. -/
def rank : Datum → Nat
  | .undefined => 0
  | .nothing => 1
  | .flag _ => 2
  | .whole _ | .decimal _ => 3
  | .text _ => 4
  | .list _ => 5
  | .mapping _ => 6

def Number.compare : Number → Number → Ordering
  | .whole m, .whole n => Ord.compare m n
  | a, b =>
    let x := a.toFloat
    let y := b.toFloat
    if x < y then .lt else if y < x then .gt else .eq

mutual

def compare : Datum → Datum → Ordering
  | .text s, .text t => compareOfLessAndEq s t
  | .list ds, .list es => compareItems ds es
  | .mapping ms, .mapping ns => compareMembers ms ns
  | d, e =>
    (Ord.compare d.rank e.rank).then
      (match d.number?, e.number? with
        | some a, some b => Number.compare a b
        | _, _ => .eq)
termination_by structural d => d

def compareItems : List Datum → List Datum → Ordering
  | [], [] => .eq
  | [], _ => .lt
  | _, [] => .gt
  | d :: ds, e :: es => (d.compare e).then (compareItems ds es)
termination_by structural ds => ds

def compareMembers : List (Datum × Datum) → List (Datum × Datum) → Ordering
  | [], [] => .eq
  | [], _ => .lt
  | _, [] => .gt
  | (key, d) :: ms, (key', e) :: ns => ((key.compare key').then (d.compare e)).then (compareMembers ms ns)
termination_by structural ms => ms

end

mutual

def equals : Datum → Datum → Bool
  | .text s, .text t => s == t
  | .list ds, .list es => equalItems ds es
  | .mapping ms, .mapping ns => equalMembers ms ns
  | d, e =>
    match d.number?, e.number? with
    | some (.whole m), some (.whole n) => m == n
    | some a, some b => a.toFloat == b.toFloat
    | none, none => d.rank == e.rank
    | _, _ => false
termination_by structural d => d

def equalItems : List Datum → List Datum → Bool
  | [], [] => true
  | d :: ds, e :: es => d.equals e && equalItems ds es
  | _, _ => false
termination_by structural ds => ds

def equalMembers : List (Datum × Datum) → List (Datum × Datum) → Bool
  | [], [] => true
  | (key, d) :: ms, (key', e) :: ns => key.equals key' && d.equals e && equalMembers ms ns
  | _, _ => false
termination_by structural ms => ms

end

/-! ### Parts -/

/-- Sets the value of a name. -/
def insert (key d : Datum) : List (Datum × Datum) → List (Datum × Datum)
  | [] => [(key, d)]
  | (key', e) :: ms =>
    match key.compare key' with
    | .lt => (key, d) :: (key', e) :: ms
    | .eq => (key', d) :: ms
    | .gt => (key', e) :: insert key d ms

/-- The value of a name. -/
def lookup? (key : Datum) (members : List (Datum × Datum)) : Option Datum :=
  (members.find? fun m => key.compare m.1 == .eq).map (·.2)

/-- Sets the value of a name that has none. -/
def insertNew (key d : Datum) (members : List (Datum × Datum)) : List (Datum × Datum) :=
  if (lookup? key members).isSome then members else insert key d members

/-- What an index, counted from the end if it is negative, means for a length. -/
def position? (length : Nat) (index : Int) : Option Nat :=
  let i := if index < 0 then length + index else index
  if 0 ≤ i ∧ i < length then some i.toNat else none

/-- The part that a subscript names. -/
def item? (d index : Datum) : Option Datum :=
  match d with
  | .mapping members => lookup? index members
  | .list items => do items[← position? items.length (← index.whole?)]?
  | .text s => do return .text [← s[← position? s.length (← index.whole?)]?]
  | _ => none

/-- The values that a value consists of. -/
def items? : Datum → Option (List Datum)
  | .undefined | .nothing => some []
  | .text s => some (s.map fun c => .text [c])
  | .list items => some items
  | .mapping members => some (members.map (·.1))
  | _ => none

end Datum

end Theming.Template
