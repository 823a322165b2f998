import Theming.Registry
import Theming.Provider

/-!
# Setting up a component

A component reads its configuration from its own properties, from the provider around it, and from defaults.  Before
it is painted for the first time its hooks run, all of them and in order; a hook mounts the component's style sheet
and the baseline.
-/

namespace Theming

/-! ### Configuration -/

def defaultPrefix : String := "n"

/-- What an instance says about its configuration. -/
structure ConfigProps where
  bordered : Option Bool := none
  clsPrefix : Option String := none

structure Config where
  bordered : Bool
  clsPrefix : String
  nameSpace : Option String
  deriving DecidableEq

/-- A text that says something. -/
def nonEmpty (s : Option String) : Option String := s.filter (· ≠ "")

/-- Instance, provider, default; an empty class prefix counts as none. -/
def configure (provider : Option Provider) (props : ConfigProps) (defaultBordered : Option Bool) : Config where
  bordered := (props.bordered.or <| (provider.bind Provider.bordered).or defaultBordered).getD true
  clsPrefix := ((nonEmpty props.clsPrefix).or (nonEmpty (provider.bind Provider.clsPrefix))).getD defaultPrefix
  nameSpace := provider.bind Provider.nameSpace

/-! ### Hooks -/

/-- Work on the registry that may fail. -/
abbrev Hook (ε : Type) := Registry → Except (StyleError ε) Unit × Registry

namespace Hook

variable {ε : Type} (engine : Template.Engine ε)

/-- Mounts a component's style sheet, and then the baseline whether or not that failed. -/
def ofStyle (mountId : String) (style : Rule) (clsPrefix : Option String) : Hook ε := fun r =>
  let (own, r) := r.mount engine [style] (.ofComponent mountId clsPrefix)
  let (baseline, r) := r.mountBaseline engine
  (do let _ ← baseline; let _ ← own; return (), r)

/-- Mounts rules if there is a request, and then fails if there is an id to fail with. -/
def ofRequest (request : Option (List Rule × Mount)) (failure : Option String) : Hook ε := fun r =>
  let fail : Except (StyleError ε) Unit := failure.elim (.ok ()) fun id => .error (.emptyStyle id)
  match request with
  | none => (fail, r)
  | some (roots, m) =>
    let (outcome, r) := r.mount engine roots m
    (do let _ ← outcome; fail, r)

/-- Runs every hook in order: the first error, or else their number. -/
def runAll (hooks : List (Hook ε)) (r : Registry) : Except (StyleError ε) Nat × Registry :=
  let (error, r) := hooks.foldl (fun (error, r) hook =>
    let (result, r) := hook r
    (error.or (match result with | .error e => some e | .ok _ => none), r)) (none, r)
  (match error with | some e => .error e | none => .ok hooks.length, r)

end Hook

end Theming
