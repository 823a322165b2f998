import Theming.Yaml.Token

/-!
# The serial form of YAML nodes

In a text the nodes of a document stand one after the other, and an alias stands for a node with an anchor.  A node
with an anchor gets a number, as many as there are names of anchors before it, and an alias has the number that its
name has then.  So two nodes may get one number, when a name is given anew; the later node has it.  A missing node is
an empty plain scalar.
-/

namespace Theming.Yaml

inductive Serial where
  | scalar (tag : Option String) (style : Style) (text : String)
  | sequence (tag : Option String) (items : List Serial)
  | mapping (tag : Option String) (members : List (Serial × Serial))
  | anchored (number : Nat) (node : Serial)
  | alias (number : Nat)
  deriving Inhabited

/-- The names of the anchors so far and their numbers. -/
abbrev Anchors := List (List Char × Nat)

def Anchors.add (name : List Char) (as : Anchors) : Anchors := (name, as.length) :: as.filter fun a => a.1 ≠ name

/-- What handles of tags stand for. -/
abbrev Handles := List (List Char × List Char)

def standardHandles : Handles := [(['!'], ['!']), ("!!".toList, "tag:yaml.org,2002:".toList)]

def tagOf? (handles : Handles) (handle suffix : List Char) : Option String :=
  if handle = [] then some (String.ofList suffix)
  else (handles.lookup handle).map fun start => String.ofList (start ++ suffix)

namespace Serial

def missing : Serial := .scalar none .plain ""

/-- What has been read, the anchors so far, and the tokens that follow. -/
abbrev Read (α : Type) := α × Anchors × List Token

/-- The tokens before which the value or the key of a block mapping is missing. -/
def endsMember : List Token → Bool
  | [] => true
  | t :: _ => t == .key || t == .value || t == .blockEnd

/-- The anchor and the tag before a node, in either order. -/
def properties? (handles : Handles) :
    List Token → Option (Option (List Char) × Option String × List Token)
  | .anchor name :: .tag h s :: ts => (tagOf? handles h s).map fun tag => (some name, some tag, ts)
  | .anchor name :: ts => some (some name, none, ts)
  | .tag h s :: .anchor name :: ts => (tagOf? handles h s).map fun tag => (some name, some tag, ts)
  | .tag h s :: ts => (tagOf? handles h s).map fun tag => (none, some tag, ts)
  | ts => some (none, none, ts)

mutual

/-- Reads a node.  Outside flow collections `block` allows block collections, and `entries` a sequence that is not
indented further than the key before it.  The fuel bounds the depth of the calls. -/
def read? (handles : Handles) : Nat → (block entries : Bool) → Anchors → List Token → Option (Read Serial)
  | 0, _, _, _, _ => none
  | fuel + 1, block, entries, as, ts =>
    match ts with
    | .alias name :: ts => (as.lookup name).map fun number => (.alias number, as, ts)
    | ts => do
      let (anchor, tag, ts) ← properties? handles ts
      match anchor with
      | none => content? handles fuel tag.isSome tag block entries as ts
      | some name => do
        let (n, r) ← content? handles fuel true tag block entries (as.add name) ts
        return (.anchored as.length n, r)
termination_by structural fuel => fuel

/-- Reads a node after its properties; only a node that has some may be missing. -/
def content? (handles : Handles) :
    Nat → (optional : Bool) → (tag : Option String) → (block entries : Bool) → Anchors → List Token →
      Option (Read Serial)
  | 0, _, _, _, _, _, _ => none
  | fuel + 1, optional, tag, block, entries, as, ts =>
    let empty := if optional then some (.scalar tag .plain "", as, ts) else none
    match ts with
    | .scalar style text :: ts => some (.scalar tag style (String.ofList text), as, ts)
    | .flowSequence :: ts => (flowItems? handles fuel true as ts).map fun (ns, r) => (.sequence tag ns, r)
    | .flowMapping :: ts => (flowMembers? handles fuel true as ts).map fun (ms, r) => (.mapping tag ms, r)
    | .blockEntry :: _ =>
      if entries then (entries? handles fuel false as ts).map fun (ns, r) => (.sequence tag ns, r) else empty
    | .blockSequence :: rest =>
      if block then (entries? handles fuel true as rest).map fun (ns, r) => (.sequence tag ns, r) else empty
    | .blockMapping :: rest =>
      if block then (members? handles fuel as rest).map fun (ms, r) => (.mapping tag ms, r) else empty
    | _ => empty
termination_by structural fuel => fuel

/-- The entries of a block sequence; it has an end of its own if it is indented. -/
def entries? (handles : Handles) : Nat → (indented : Bool) → Anchors → List Token → Option (Read (List Serial))
  | 0, _, _, _ => none
  | fuel + 1, indented, as, ts =>
    match ts with
    | .blockEntry :: ts =>
      if ts.head?.any (· == .blockEntry) || (if indented then ts.head? == some .blockEnd else endsMember ts) then do
        let (ns, r) ← entries? handles fuel indented as ts
        return (missing :: ns, r)
      else do
        let (n, as, ts) ← read? handles fuel true false as ts
        let (ns, r) ← entries? handles fuel indented as ts
        return (n :: ns, r)
    | ts =>
      if indented then
        match ts with
        | .blockEnd :: ts => some ([], as, ts)
        | _ => none
      else some ([], as, ts)
termination_by structural fuel => fuel

/-- The members of a block mapping. -/
def members? (handles : Handles) : Nat → Anchors → List Token → Option (Read (List (Serial × Serial)))
  | 0, _, _ => none
  | fuel + 1, as, ts =>
    match ts with
    | .blockEnd :: ts => some ([], as, ts)
    | .key :: ts => do
      let (key, as, ts) ← if endsMember ts then some (missing, as, ts) else read? handles fuel true true as ts
      let (value, as, ts) ← memberValue? handles fuel as ts
      let (ms, r) ← members? handles fuel as ts
      return ((key, value) :: ms, r)
    | _ => none
termination_by structural fuel => fuel

def memberValue? (handles : Handles) : Nat → Anchors → List Token → Option (Read Serial)
  | 0, _, _ => none
  | fuel + 1, as, ts =>
    match ts with
    | .value :: ts => if endsMember ts then some (missing, as, ts) else read? handles fuel true true as ts
    | ts => some (missing, as, ts)
termination_by structural fuel => fuel

/-- The items of a flow sequence.  An item with a key token is a mapping with one member; if its key is missing, the
token that stands in the place of the key is passed over. -/
def flowItems? (handles : Handles) : Nat → (first : Bool) → Anchors → List Token → Option (Read (List Serial))
  | 0, _, _, _ => none
  | fuel + 1, first, as, ts =>
    match ts with
    | .flowSequenceEnd :: ts => some ([], as, ts)
    | ts => do
      let ts ← match first, ts with
        | true, ts => some ts
        | false, .flowEntry :: ts => some ts
        | false, _ => none
      match ts with
      | .flowSequenceEnd :: ts => return ([], as, ts)
      | .key :: ts => do
        let (key, as, ts) ← match ts with
          | .value :: ts | .flowEntry :: ts | .flowSequenceEnd :: ts => some (missing, as, ts)
          | ts => read? handles fuel false false as ts
        let (value, as, ts) ← flowValue? handles fuel .flowSequenceEnd as ts
        let (ns, r) ← flowItems? handles fuel false as ts
        return (.mapping none [(key, value)] :: ns, r)
      | ts => do
        let (n, as, ts) ← read? handles fuel false false as ts
        let (ns, r) ← flowItems? handles fuel false as ts
        return (n :: ns, r)
termination_by structural fuel => fuel

/-- The members of a flow mapping; a member without a key token is a key without a value. -/
def flowMembers? (handles : Handles) :
    Nat → (first : Bool) → Anchors → List Token → Option (Read (List (Serial × Serial)))
  | 0, _, _, _ => none
  | fuel + 1, first, as, ts =>
    match ts with
    | .flowMappingEnd :: ts => some ([], as, ts)
    | ts => do
      let ts ← match first, ts with
        | true, ts => some ts
        | false, .flowEntry :: ts => some ts
        | false, _ => none
      match ts with
      | .flowMappingEnd :: ts => return ([], as, ts)
      | .key :: ts => do
        let (key, as, ts) ← match ts with
          | .value :: _ | .flowEntry :: _ | .flowMappingEnd :: _ => some (missing, as, ts)
          | ts => read? handles fuel false false as ts
        let (value, as, ts) ← flowValue? handles fuel .flowMappingEnd as ts
        let (ms, r) ← flowMembers? handles fuel false as ts
        return ((key, value) :: ms, r)
      | ts => do
        let (n, as, ts) ← read? handles fuel false false as ts
        let (ms, r) ← flowMembers? handles fuel false as ts
        return ((n, missing) :: ms, r)
termination_by structural fuel => fuel

/-- The value of a member in a flow collection, if it has one. -/
def flowValue? (handles : Handles) : Nat → (close : Token) → Anchors → List Token → Option (Read Serial)
  | 0, _, _, _ => none
  | fuel + 1, close, as, ts =>
    match ts with
    | .value :: ts =>
      if ts.head?.any fun t => t == .flowEntry || t == close then some (missing, as, ts)
      else read? handles fuel false false as ts
    | ts => some (missing, as, ts)
termination_by structural fuel => fuel

end

/-- The handles that directives before a document define, besides the standard ones.  Only versions 1.1 and 1.2 are
read, and nothing may be said twice. -/
def declared? : List Directive → Option Handles
  | [] => some standardHandles
  | .version major minor :: ds =>
    if major = 1 ∧ (minor = 1 ∨ minor = 2) ∧ ds.all (fun | .version .. => false | _ => true) then declared? ds
    else none
  | .handle name start :: ds =>
    if ds.any (fun | .handle n _ => n == name | _ => false) then none
    else (declared? ds).map fun handles => (name, start) :: handles

/-- The directives that the tokens start with. -/
def directives : List Token → List Directive × List Token
  | .directive d :: ts =>
    let (ds, ts) := directives ts
    (d :: ds, ts)
  | ts => ([], ts)

/-- The only document of a text; `none` inside is a text without any. -/
def ofText? (source : String) : Option (Option Serial) := do
  let ts ← tokens? source.toList
  let fuel := 4 * ts.length + 4
  let (ds, rest) := directives ts
  let (n, _, ts) ← match ds, rest with
    | [], [] => return none
    | ds, .documentStart :: ts => do
      let handles ← declared? ds
      match ts with
      | [] | .directive _ :: _ | .documentStart :: _ | .documentEnd :: _ => some (missing, [], ts)
      | ts => read? handles fuel true false [] ts
    | [], ts => read? standardHandles fuel true false [] ts
    | _, _ => none
  if ts.all (· == .documentEnd) then return some n else none

end Serial

end Theming.Yaml
