import Theming.Rule.Compile

/-!
# Mounted style sheets

Every instance of a component asks for its style sheet, so the same request comes many times.  The registry has at
most one sheet for an id: the first request whose rules compile puts it there, and later ones change nothing, whatever
their rules are.  Sheets keep the order in which they came.
-/

namespace Theming

/-- Why a style sheet is not mounted; `ε` are the failures of templates. -/
inductive StyleError (ε : Type)
  | missingStyle (mountId : String)
  | emptyStyle (id : String)
  | render (error : ε)
  deriving DecidableEq

/-- The message of an error that is not about the text of a template. -/
def StyleError.message? {ε : Type} : StyleError ε → Option String
  | .missingStyle mountId => some ("no style is specified for mount id '" ++ mountId ++ "'")
  | .emptyStyle id => some ("cannot mount '" ++ id ++ "': the rule tree is empty")
  | .render _ => none

/-- Where and how rules are to be mounted; a sheet outside the head is placed elsewhere by whoever reads it. -/
structure Mount where
  id : String
  head : Bool := true
  scope : Scope := {}
  deriving DecidableEq

/-- A component's style sheet: its id is prefixed, and a prefix that is not empty scopes its blocks. -/
def Mount.ofComponent (mountId : String) (clsPrefix : Option String) : Mount where
  id := clsPrefix.getD "" ++ mountId
  scope := match clsPrefix with
    | some p => if p = "" then {} else .ofPrefix p
    | none => {}

structure Sheet where
  id : String
  head : Bool
  css : String
  deriving DecidableEq

inductive Outcome
  | inserted
  | alreadyMounted
  deriving DecidableEq

/-- The ids that have been mounted, and their sheets in order. -/
structure Registry where
  ids : List String := []
  sheets : List Sheet := []
  deriving DecidableEq

namespace Registry

def isMounted (r : Registry) (id : String) : Bool := r.ids.contains id

def sheet? (r : Registry) (id : String) : Option Sheet := r.sheets.find? (·.id == id)

def size (r : Registry) : Nat := r.sheets.length

variable {ε : Type} (engine : Template.Engine ε)

def mount (roots : List Rule) (m : Mount) (r : Registry) : Except (StyleError ε) Outcome × Registry :=
  if roots.isEmpty then (.error (.emptyStyle m.id), r)
  else if r.isMounted m.id then (.ok .alreadyMounted, r)
  else match Rule.render engine m.scope roots with
    | .error e => (.error (.render e), r)
    | .ok css => (.ok .inserted, { ids := m.id :: r.ids, sheets := r.sheets ++ [⟨m.id, m.head, css⟩] })

def mountBaseline (r : Registry) : Except (StyleError ε) Outcome × Registry :=
  r.mount engine [Rule.baseline] { id := Rule.baselineId }

/-- The sheets of the head as tags, in order. -/
def headText (r : Registry) : String :=
  String.join <| (r.sheets.filter Sheet.head).map fun s =>
    "<style cssr-id=\"" ++ s.id ++ "\">\n" ++ s.css ++ "</style>\n"

end Registry

end Theming
