import Theming.Theme.Definition
import Theming.Value

/-!
# Overrides as configuration values

An override is an object.  Its members `common` and `peers` are sections, each at most once; every other member is one
of its own tokens, the last of a repeated name winning.  A missing common section may also be written as null.  The
overrides of an application are laid out the same way, with overrides of components in place of tokens.
-/

namespace Theming

/-- A flag, a number or a text. -/
def Token.ofValue? : Value → Option Token
  | .flag b => some (.flag b)
  | .number x => some (.number x)
  | .text s => some (.text s)
  | _ => none

def Token.toValue : Token → Value
  | .flag b => .flag b
  | .number x => .number x
  | .text s => .text s

namespace TokenMap

def ofMembers? (members : List (String × Value)) : Option TokenMap :=
  (members.mapM fun m => (Token.ofValue? m.2).map (m.1, ·)).map NameMap.ofList

def ofValue? : Value → Option TokenMap
  | .object members => ofMembers? members
  | _ => none

/-- A section that may be missing. -/
def ofOptional? : Value → Option (Option TokenMap)
  | .null => some none
  | v => (ofValue? v).map some

def toMembers (m : TokenMap) : List (String × Value) := m.toList.map fun (name, t) => (name, t.toValue)

def toValue (m : TokenMap) : Value := .object m.toMembers

/-- The member of a common section, if there is one. -/
def sectionMember (common : Option TokenMap) : List (String × Value) :=
  match common with
  | some m => [("common", m.toValue)]
  | none => []

end TokenMap

namespace Override

/-- The members of an object read so far: the sections found, and the other members in order. -/
structure Members (α : Type) where
  common : Option (Option TokenMap) := none
  peers : Option (NameMap (Peered Patch)) := none
  others : List (String × α) := []

mutual

def ofValue? : Value → Option Override
  | .object members => do
    let m ← ofMembers? members
    return .mk { common := m.common.getD none, tokens := NameMap.ofList m.others } (m.peers.getD ∅)
  | _ => none
termination_by structural v => v

def ofMembers? : List (String × Value) → Option (Members Token)
  | [] => some {}
  | (name, v) :: rest => do
    let m ← ofMembers? rest
    if name = "common" then
      if m.common.isSome then none else return { m with common := some (← TokenMap.ofOptional? v) }
    else if name = "peers" then
      if m.peers.isSome then none else return { m with peers := some (← ofPeers? v) }
    else return { m with others := (name, ← Token.ofValue? v) :: m.others }
termination_by structural ms => ms

def ofPeers? : Value → Option (NameMap (Peered Patch))
  | .object members => (ofEntries? members).map NameMap.ofList
  | _ => none
termination_by structural v => v

def ofEntries? : List (String × Value) → Option (List (String × Peered Patch))
  | [] => some []
  | (name, v) :: rest => return (name, ← ofValue? v) :: (← ofEntries? rest)
termination_by structural ms => ms

end

mutual

/-- Absent sections and empty peers are left out. -/
def toValue : Peered Patch → Value
  | .mk patch peers =>
    .object (TokenMap.sectionMember patch.common ++
      (if peers.isEmpty then [] else [("peers", .object (toEntries peers))]) ++ patch.tokens.toMembers)
termination_by structural o => o

def toEntries : {bound : Option String} → Entries (Peered Patch) bound → List (String × Value)
  | _, .nil => []
  | _, .cons name o _ rest => (name, toValue o) :: toEntries rest
termination_by structural _ m => m

end

end Override

namespace GlobalOverrides

def ofMembers? : List (String × Value) → Option (Override.Members Override)
  | [] => some {}
  | (name, v) :: rest => do
    let m ← ofMembers? rest
    if name = "common" then
      if m.common.isSome then none else return { m with common := some (← TokenMap.ofOptional? v) }
    else return { m with others := (name, ← Override.ofValue? v) :: m.others }

def ofValue? : Value → Option GlobalOverrides
  | .object members => do
    let m ← ofMembers? members
    return { common := m.common.getD none, components := NameMap.ofList m.others }
  | _ => none

def toValue (o : GlobalOverrides) : Value :=
  .object (TokenMap.sectionMember o.common ++ Override.toEntries o.components)

end GlobalOverrides

end Theming
