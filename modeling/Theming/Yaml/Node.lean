import Theming.Yaml.Serial

/-!
# The nodes of a YAML document

Composing replaces the aliases of a document by the nodes that they stand for.  It is done only where nodes are used,
so an alias inside of its own node may stand where nobody looks; elsewhere it makes a node that is nested too deep.
There is a limit for the nesting, and one for the number of aliases that are followed, so that a short text does not
become a huge document.
-/

namespace Theming.Yaml

inductive Node where
  | scalar (tag : Option String) (style : Style) (text : String)
  | sequence (tag : Option String) (items : List Node)
  | mapping (tag : Option String) (members : List (Node × Node))
  deriving Inhabited

namespace Serial

mutual

/-- The number of marks that start or end a collection, of scalars and of aliases. -/
def size : Serial → Nat
  | .scalar .. | .alias _ => 1
  | .sequence _ items => sizes items + 2
  | .mapping _ members => memberSizes members + 2
  | .anchored _ n => size n
termination_by structural n => n

def sizes : List Serial → Nat
  | [] => 0
  | n :: ns => size n + sizes ns
termination_by structural ns => ns

def memberSizes : List (Serial × Serial) → Nat
  | [] => 0
  | (key, value) :: ms => size key + size value + memberSizes ms
termination_by structural ms => ms

end

mutual

/-- The anchored nodes in the order in which they start. -/
def targets : Serial → List (Nat × Serial)
  | .scalar .. | .alias _ => []
  | .sequence _ items => targetsAll items
  | .mapping _ members => memberTargets members
  | .anchored number n => (number, n) :: targets n
termination_by structural n => n

def targetsAll : List Serial → List (Nat × Serial)
  | [] => []
  | n :: ns => targets n ++ targetsAll ns
termination_by structural ns => ns

def memberTargets : List (Serial × Serial) → List (Nat × Serial)
  | [] => []
  | (key, value) :: ms => targets key ++ targets value ++ memberTargets ms
termination_by structural ms => ms

end

/-- The node without its anchor. -/
def bare : Serial → Serial
  | .anchored _ n => n
  | n => n

end Serial

/-- A reading that follows aliases; the state is how many more may be followed. -/
abbrev Follow := StateT Nat Option

/-- The node that a node stands for, among the anchored nodes, the latest first. -/
def Serial.follow (targets : List (Nat × Serial)) : Serial → Follow Serial
  | .alias number => do
    match ← get with
    | 0 => failure
    | jumps + 1 =>
      set jumps
      (targets.lookup number).elim failure pure
  | n => return n.bare

/-- Composes a node in which collections are nested no deeper than `depth`. -/
def Serial.compose (targets : List (Nat × Serial)) : (depth : Nat) → Serial → Follow Node
  | 0, n => do
    match ← n.follow targets with
    | .scalar tag style text => return .scalar tag style text
    | _ => failure
  | depth + 1, n => do
    match ← n.follow targets with
    | .scalar tag style text => return .scalar tag style text
    | .sequence tag items => return .sequence tag (← items.mapM (compose targets depth))
    | .mapping tag ms =>
      return .mapping tag (← ms.mapM fun (key, value) => do
        return (← compose targets depth key, ← compose targets depth value))
    | _ => failure

namespace Node

/-- A scalar of any style as a text. -/
def text? : Node → Option String
  | .scalar _ _ s => some s
  | _ => none

end Node

/-- How deep the collections of a document may be nested. -/
def maxDepth : Nat := 128

/-- The members of the only document of a text whose names are wanted.  All names have to be scalars; nothing at all is
an empty mapping. -/
def members? (wanted : String → Bool) (source : String) : Option (List (String × Node)) := do
  match ← Serial.ofText? source with
  | none => return []
  | some root =>
    let targets := root.targets.reverse
    let member? (m : Serial × Serial) : Follow (Option (String × Node)) := do
      match (← m.1.compose targets 0).text? with
      | some name => if wanted name then return some (name, ← m.2.compose targets (maxDepth - 1)) else return none
      | none => failure
    match root.bare with
    | .mapping _ ms => (ms.filterMapM member?).run' (100 * root.size)
    | .scalar _ .plain "" => return []
    | _ => none

end Theming.Yaml
