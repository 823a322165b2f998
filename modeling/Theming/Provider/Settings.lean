import Theming.Config.Layout
import Theming.Json.Reader
import Theming.Json.Writer
import Theming.Provider
import Theming.Yaml.Plain

/-!
# Provider settings

The part of a provider that a configuration text can hold: class prefix, bordered flag, namespace and overrides.  The
text is JSON or YAML.  A setting may be given once; names that are no settings are passed over together with what they
hold, unread.  JSON text may also list the settings in their order, and then the last ones may be missing.

In YAML a text setting takes a scalar of any kind as its text.  The names of settings, of components and of the common
tokens are texts however they look, while inside the override of a component a name has to be a text by itself.
-/

namespace Theming

structure Settings where
  clsPrefix : Option String := none
  bordered : Option Bool := none
  nameSpace : Option String := none
  overrides : GlobalOverrides := {}
  deriving BEq

namespace Settings

/-- The settings that a text has named so far. -/
structure Found where
  clsPrefix : Option (Option String) := none
  bordered : Option (Option Bool) := none
  nameSpace : Option (Option String) := none
  overrides : Option GlobalOverrides := none

/-- How the settings are read from what a format has in their place. -/
structure Reader (α : Type) where
  text? : α → Option (Option String)
  flag? : α → Option (Option Bool)
  overrides? : α → Option GlobalOverrides

/-- A setting that has not been found before. -/
def once {β : Type} (old : Option β) (new : Option β) : Option (Option β) :=
  if old.isSome then none else new.map some

def Found.add? {α : Type} (r : Reader α) (f : Found) (name : String) (a : α) : Option Found :=
  if name = "cls_prefix" then (once f.clsPrefix (r.text? a)).map fun x => { f with clsPrefix := x }
  else if name = "bordered" then (once f.bordered (r.flag? a)).map fun x => { f with bordered := x }
  else if name = "namespace" then (once f.nameSpace (r.text? a)).map fun x => { f with nameSpace := x }
  else if name = "theme_overrides" then (once f.overrides (r.overrides? a)).map fun x => { f with overrides := x }
  else some f

def Found.settings (f : Found) : Settings where
  clsPrefix := f.clsPrefix.join
  bordered := f.bordered.join
  nameSpace := f.nameSpace.join
  overrides := f.overrides.getD {}

def ofMembers? {α : Type} (r : Reader α) (members : List (String × α)) : Option Settings :=
  (members.foldlM (fun (f : Found) m => f.add? r m.1 m.2) {}).map Found.settings

/-- The names of the settings in their order. -/
def names : List String := ["cls_prefix", "bordered", "namespace", "theme_overrides"]

/-! ### JSON -/

/-- What a setting holds is one level deep already. -/
def jsonReader : Reader Value where
  text?
    | .null => some none
    | .text s => some (some s)
    | _ => none
  flag?
    | .null => some none
    | .flag b => some (some b)
    | _ => none
  overrides? v := if v.depth < Json.maxDepth then GlobalOverrides.ofValue? v else none

def ofJson? (source : String) : Option Settings :=
  match Json.parse? source.toList with
  | some (.object members) => ofMembers? jsonReader members
  | some (.list items) => if items.length ≤ names.length then ofMembers? jsonReader (names.zip items) else none
  | _ => none

/-- Settings that are not there are left out; the overrides always are written. -/
def toValue (s : Settings) : Value :=
  let optional (name : String) (v : Option Value) : List (String × Value) := (v.map fun v => (name, v)).toList
  .object (optional "cls_prefix" (s.clsPrefix.map .text) ++ optional "bordered" (s.bordered.map .flag) ++
    optional "namespace" (s.nameSpace.map .text) ++ [("theme_overrides", s.overrides.toValue)])

/-! ### YAML -/

/-- The members of a mapping, with scalars of any kind as names; nothing at all is an empty mapping. -/
def yamlMembers? : Yaml.Node → Option (List (String × Yaml.Node))
  | .mapping _ ms => ms.mapM fun m => m.1.text?.map (·, m.2)
  | .scalar _ .plain "" => some []
  | _ => none

def yamlCommon? (n : Yaml.Node) : Option TokenMap := do
  let members ← yamlMembers? n
  TokenMap.ofMembers? (← members.mapM fun m => m.2.value?.map (m.1, ·))

def yamlOverrides? (n : Yaml.Node) : Option GlobalOverrides := do
  let members ← yamlMembers? n
  let values ← members.mapM fun m => do
    let v ← if m.1 = "common" then (← m.2.optional? yamlCommon?).elim (some Value.null) (some ·.toValue)
      else m.2.value?
    return (m.1, v)
  GlobalOverrides.ofValue? (.object values)

def yamlReader : Reader Yaml.Node where
  text? := Yaml.Node.optional? Yaml.Node.text?
  flag? := Yaml.Node.optional? Yaml.Node.flag?
  overrides? := yamlOverrides?

/-- A text without a document holds no settings. -/
def ofYaml? (source : String) : Option Settings := do ofMembers? yamlReader (← Yaml.members? names.contains source)

end Settings

/-- The provider that a configuration text describes. -/
def Provider.ofSettings (s : Settings) : Provider where
  clsPrefix := s.clsPrefix
  bordered := s.bordered
  nameSpace := s.nameSpace
  overrides := s.overrides

/-! ### Texts -/

/-- What a reader makes of the value of a JSON text that is not nested too deep. -/
def Value.ofJson? {α : Type} (read : Value → Option α) (source : String) : Option α :=
  (Json.parse? source.toList).bind fun v => if v.depth ≤ Json.maxDepth then read v else none

def TokenMap.ofJson? (source : String) : Option TokenMap := Value.ofJson? TokenMap.ofValue? source

def Override.ofJson? (source : String) : Option Override := Value.ofJson? Override.ofValue? source

def GlobalOverrides.ofJson? (source : String) : Option GlobalOverrides := Value.ofJson? GlobalOverrides.ofValue? source

/-- A configuration value as JSON text. -/
def Value.json (v : Value) : String := String.ofList (Json.write v)

end Theming
