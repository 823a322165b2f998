import Theming.Scope
import Theming.Template.Node
import Theming.Template.Operation

/-!
# A partial engine

Part of the language of templates: texts, comments, printed expressions, branches.  It stands in for a full engine
where templates are to be run, and where they use nothing else it expands them as a full one does.  It has no filters,
tests and functions, and nothing that makes variables, blocks or macros; a full engine has all of these, so what is
refused here may well be a template there.  Nothing built from rules may count on it: all of that has the engine as a
parameter.

The only variable is `prefix`; it may be missing.  A missing value prints as nothing, but has no attributes.  What this
engine does not have is an error if evaluation reaches it, and does no harm in a branch not taken.  A template that is
not well formed is an error whatever its values are.
-/

namespace Theming

namespace Template

/-! ### Expressions -/

/-- The value of a name. -/
def valueOf (pre : Option (List Char)) (x : List Char) : Datum :=
  if x = "prefix".toList then pre.elim .undefined .text else .undefined

/-- What can be read off a value by a name. -/
def Datum.attribute? (x : List Char) : Datum → Option Datum
  | .mapping members => lookup? (.text x) members
  | _ => none

/-- Lists can be made arguments, and mappings named arguments. -/
def checkPassing (arguments : List (Passing × Datum)) : Except TemplateError Unit :=
  let canPass : Passing × Datum → Bool
    | (.single, _) | (.named, _) | (.namedSpread, .mapping _) => true
    | (.spread, d) => d.items?.isSome
    | (.namedSpread, _) => false
  if arguments.all canPass then return () else throw .invalidOperation

namespace Expr

def isName (x : String) : Expr → Bool
  | .name y => y = x.toList
  | _ => false

mutual

/-- The value of an expression that is made of constants, lists, mappings and operators alone. -/
def constant? : Expr → Option Datum
  | .text s => some (.text s)
  | .whole n => some (.whole n)
  | .decimal x => some (.decimal x)
  | .flag b => some (.flag b)
  | .nothing => some .nothing
  | .list items => return .list (← constants? items)
  | .mapping members => return .mapping (← constantMembers? members)
  | .negate e => do (← e.constant?).negate.toOption
  | .not e => return .flag (!(← e.constant?).isTrue)
  | .binary op a b => do (op.apply (← a.constant?) (← b.constant?)).toOption
  | _ => none
termination_by structural e => e

def constants? : List Expr → Option (List Datum)
  | [] => some []
  | e :: es => return (← e.constant?) :: (← constants? es)
termination_by structural es => es

def constantMembers? : List (Expr × Expr) → Option (List (Datum × Datum))
  | [] => some []
  | (key, e) :: ms => return Datum.insertNew (← key.constant?) (← e.constant?) (← constantMembers? ms)
termination_by structural ms => ms

end

mutual

/-- The value of an expression.  The second operand of `or` and `and` is looked at only if the first one does not
decide; then the first one is the value, except that `and` of two constants gives what the operator makes of them. -/
def eval (pre : Option (List Char)) : Expr → Except TemplateError Datum
  | .text s => return .text s
  | .whole n => return .whole n
  | .decimal x => return .decimal x
  | .flag b => return .flag b
  | .nothing => return .nothing
  | .name x => return valueOf pre x
  | .list items => return .list (← evalAll pre items)
  | .mapping members => return .mapping (← evalMembers pre members)
  | .attribute e x => do
    match ← e.eval pre with
    | .undefined => throw .undefined
    | d => return (d.attribute? x).getD .undefined
  | .item e index => do
    let d ← e.eval pre
    let i ← index.eval pre
    match d with
    | .undefined => throw .undefined
    | d => return (d.item? i).getD .undefined
  | .slice e start stop step => do (← e.eval pre).slice (← start.eval pre) (← stop.eval pre) (← step.eval pre)
  | .call (.name f) args => do
    checkPassing (← evalArguments pre args)
    match valueOf pre f with
    | .undefined => throw (if f = "super".toList then .invalidOperation else .unknownFunction)
    | _ => throw .invalidOperation
  | .call (.attribute e x) args => do
    if e.isName "self" then throw .unknownBlock
    let d ← e.eval pre
    checkPassing (← evalArguments pre args)
    throw (if (d.attribute? x).isSome then .invalidOperation else .unknownMethod)
  | .call f args => do
    let _ ← f.eval pre
    checkPassing (← evalArguments pre args)
    throw .invalidOperation
  | .filter e _ args => do
    let _ ← e.eval pre
    checkPassing (← evalArguments pre args)
    throw .unknownFilter
  | .test e _ args => do
    let _ ← e.eval pre
    checkPassing (← evalArguments pre args)
    throw .unknownTest
  | .negate e => do (← e.eval pre).negate
  | .not e => return .flag (!(← e.eval pre).isTrue)
  | .binary .or a b => do
    let d ← a.eval pre
    if d.isTrue then return d else b.eval pre
  | .binary .and a b =>
    match (binary .and a b).constant? with
    | some d => return d
    | none => do
      let d ← a.eval pre
      if d.isTrue then b.eval pre else return d
  | .binary op a b => do op.apply (← a.eval pre) (← b.eval pre)
  | .choice condition yes no => do
    if (← condition.eval pre).isTrue then yes.eval pre
    else match no with
      | some e => e.eval pre
      | none => return .undefined
termination_by structural e => e

def evalAll (pre : Option (List Char)) : List Expr → Except TemplateError (List Datum)
  | [] => return []
  | e :: es => do return (← e.eval pre) :: (← evalAll pre es)
termination_by structural es => es

def evalMembers (pre : Option (List Char)) : List (Expr × Expr) → Except TemplateError (List (Datum × Datum))
  | [] => return []
  | (key, e) :: ms => do
    let key ← key.eval pre
    let d ← e.eval pre
    return Datum.insertNew key d (← evalMembers pre ms)
termination_by structural ms => ms

def evalArguments (pre : Option (List Char)) :
    List (Passing × Expr) → Except TemplateError (List (Passing × Datum))
  | [] => return []
  | (passing, e) :: args => do
    let d ← e.eval pre
    return (passing, d) :: (← evalArguments pre args)
termination_by structural args => args

end

end Expr

/-! ### Nodes -/

/-- The texts that a value consists of, or itself if it is one. -/
def Datum.texts? : Datum → Option (List (List Char))
  | .text s => some [s]
  | .list items => items.mapM fun
    | .text s => some s
    | _ => none
  | _ => none

/-- None of the templates that a value names is there. -/
def missingTemplate (names : Datum) (optional : Bool) : Except TemplateError (List Char) :=
  match names.texts? with
  | none => throw .invalidOperation
  | some texts => if optional || texts.isEmpty then return [] else throw .unknownTemplate

mutual

def Node.expand (pre : Option (List Char)) : Node → Except TemplateError (List Char)
  | .text s => return s
  | .print e => return (← e.eval pre).print
  | .branch test yes no => do
    if (← test.eval pre).isTrue then expandAll pre yes else expandAll pre no
  | .filtered filters ns => do
    let s ← expandAll pre ns
    let e := filters.foldl (fun e f => Expr.filter e f.1 f.2) (.text s)
    return (← e.eval pre).print
  | .template e optional => do missingTemplate (← e.eval pre) optional
  | .refused => throw .malformed

def expandAll (pre : Option (List Char)) : List Node → Except TemplateError (List Char)
  | [] => return []
  | n :: ns => return (← n.expand pre) ++ (← expandAll pre ns)

end

/-- Expands a text as a template, whether or not it holds tags, as far as this part of the language goes. -/
def partialEngine : Engine TemplateError := fun scope source => do
  expandAll (scope.selector.map String.toList) (← Node.ofText source)

end Template

end Theming
