import Theming.Template.Expr

/-!
# The statements of templates

A statement starts with a keyword; some hold what follows up to a closing tag.  Branches are read apart, as their tags
split them.

The statements that make variables, blocks or macros belong to the language, but not to the part of it that the partial
engine has: it refuses them where they are reached, and a full engine would carry them out.  They are read to the end
nevertheless, because the first thing that is wrong in a template is what makes it fail.
-/

namespace Theming.Template

/-- How what a statement holds ends. -/
structure Closing where
  keyword : String
  /-- A name that may be repeated in the closing tag. -/
  name : Option (List Char) := none
  /-- An `else` tag may split it once. -/
  splits : Bool := false

/-- A filter and its arguments. -/
abbrev Filter := List Char × List (Passing × Expr)

/-- A statement without what it holds. -/
inductive Heading
  | call (e : Expr)
  /-- Another template, named by the value of `e`; it may be missing if it is optional. -/
  | template (e : Expr) (optional : Bool)
  | filter (filters : List Filter)
  /-- One that the partial engine does not carry out. -/
  | refused (closing : Option Closing)

def Heading.closing? : Heading → Option Closing
  | .call _ | .template .. => none
  | .filter _ => some { keyword := "endfilter" }
  | .refused closing => closing

/-- The keywords of the tags that close or split statements. -/
def closingKeywords : List String :=
  ["elif", "else", "endif", "endfor", "endwith", "endset", "endautoescape", "endfilter", "endblock", "endmacro",
    "endcall"]

/-! ### Parts of headings -/

/-- What follows a sign that has to come first. -/
def after (sign : String) (ts : List Lexeme) : Except TemplateError (List Lexeme) :=
  match after? sign ts with
  | some ts => return ts
  | none => unexpected ts

/-- What follows a word, if the first one is it. -/
def afterWord? (word : String) : List Lexeme → Option (List Lexeme)
  | t :: ts => if t.isWord word then some ts else none
  | [] => none

/-- What follows a word that has to come first. -/
def afterWord (word : String) (ts : List Lexeme) : Except TemplateError (List Lexeme) :=
  match afterWord? word ts with
  | some ts => return ts
  | none => unexpected ts

/-- The names of constants, and those that are kept for other things. -/
def reservedNames : List String := ["true", "True", "false", "False", "none", "None", "loop", "self"]

/-- What follows a name that may be given a value. -/
def afterTarget : List Lexeme → Except TemplateError (List Lexeme)
  | .name x :: ts => if String.ofList x ∈ reservedNames then throw .malformed else return ts
  | ts => unexpected ts

/-- What follows names with commas between them, and maybe after the last one; some of them may stand in parentheses
in the same way.  The fuel bounds the number of words. -/
def afterTargets : Nat → List Lexeme → Except TemplateError (List Lexeme)
  | 0, _ => throw .malformed
  | fuel + 1, ts =>
    if ts.isEmpty || (after? ")" ts).isSome || (afterWord? "in" ts).isSome then return ts
    else do
      let ts ← match after? "(" ts with
        | some ts => do after ")" (← afterTargets fuel ts)
        | none => afterTarget ts
      match after? "," ts with
      | some ts => afterTargets fuel ts
      | none => return ts

/-- What follows a name, or several in parentheses. -/
def afterPattern (ts : List Lexeme) : Except TemplateError (List Lexeme) :=
  match after? "(" ts with
  | some ts => do after ")" (← afterTargets (ts.length + 1) ts)
  | none => afterTarget ts

/-- What follows an expression that opens anew. -/
def afterExpr (room : Nat) (ts : List Lexeme) : Except TemplateError (List Lexeme) := do
  return (← Expr.ofLeading room .nested ts).2

/-- What follows `with context` or `without context`, if one of them comes first. -/
def skipContext (ts : List Lexeme) : Except TemplateError (List Lexeme) :=
  match (afterWord? "with" ts).or (afterWord? "without" ts) with
  | some ts => afterWord "context" ts
  | none => return ts

/-- Reads filters to the end, with bars between them.  The fuel bounds their number. -/
def readChain (room : Nat) : Nat → List Lexeme → Except TemplateError (List Filter)
  | 0, _ => throw .malformed
  | fuel + 1, ts => do
    let (f, ts) ← dottedName ts
    let (args, ts) ← match after? "(" ts with
      | some ts => Expr.readArguments (16 * ts.length + 16) room maxArguments false ts
      | none => pure ([], ts)
    let here := (f, Expr.inOrder args)
    if ts.isEmpty then return [here]
    return here :: (← readChain room fuel (← after "|" ts))

/-- Reads names with their values to the end. -/
def finishValues (room : Nat) : Nat → (first : Bool) → List Lexeme → Except TemplateError Unit
  | 0, _, _ => throw .malformed
  | fuel + 1, first, ts => do
    if ts.isEmpty then return ()
    let ts ← if first then pure ts else after "," ts
    let ts ← after "=" (← afterPattern ts)
    finishValues room fuel false (← afterExpr room ts)

/-- Reads names to the end, each with another one to call it by or without. -/
def finishNames : Nat → (first : Bool) → List Lexeme → Except TemplateError Unit
  | 0, _, _ => throw .malformed
  | fuel + 1, first, ts => do
    let ts ← skipContext ts
    if ts.isEmpty then return ()
    let ts ← if first then pure ts else after "," ts
    if ts.isEmpty then return ()
    let ts ← afterTarget ts
    match afterWord? "as" ts with
    | some ts => do finishNames fuel false (← afterTarget ts)
    | none => finishNames fuel false ts

/-- What follows the names of arguments and the closing parenthesis.  Once a name has a default value, all that follow
have one. -/
def afterParameters (room : Nat) : Nat → (first defaulted : Bool) → List Lexeme →
    Except TemplateError (List Lexeme)
  | 0, _, _, _ => throw .malformed
  | fuel + 1, first, defaulted, ts =>
    match after? ")" ts with
    | some ts => return ts
    | none => do
      let ts ← if first then pure ts else after "," ts
      match after? ")" ts with
      | some ts => return ts
      | none =>
        let ts ← afterTarget ts
        match after? "=" ts with
        | some ts => do afterParameters room fuel false true (← afterExpr room ts)
        | none => if defaulted then unexpected ts else afterParameters room fuel false false ts

/-- Reads a call to the end. -/
def readCall (room : Nat) (ts : List Lexeme) : Except TemplateError Expr := do
  match ← Expr.ofLeading room .nested ts with
  | (.call f args, ts) => do
    finish ts
    return .call f args
  | _ => throw .malformed

/-! ### Headings -/

namespace Heading

def ofFor (room : Nat) (ts : List Lexeme) : Except TemplateError Heading := do
  let ts ← afterWord "in" (← afterTargets (ts.length + 1) ts)
  let (_, ts) ← Expr.ofLeading room .or ts
  let ts ← match afterWord? "if" ts with
    | some ts => afterExpr room ts
    | none => pure ts
  finish ((afterWord? "recursive" ts).getD ts)
  return .refused (some { keyword := "endfor", splits := true })

/-- Without a value, a name stands for what the statement holds, maybe filtered. -/
def ofSet (room : Nat) (ts : List Lexeme) : Except TemplateError Heading := do
  let (single, ts) ← match after? "(" ts with
    | some _ => pure (false, ← afterPattern ts)
    | none => do
      let _ ← afterTarget ts
      pure (true, (← dottedName ts).2)
  if single && ts.isEmpty then return .refused (some { keyword := "endset" })
  match if single then after? "|" ts else none with
  | some ts => do
    let _ ← readChain room (ts.length + 1) ts
    return .refused (some { keyword := "endset" })
  | none => do
    finish (← afterExpr room (← after "=" ts))
    return .refused none

def ofInclude (room : Nat) (ts : List Lexeme) : Except TemplateError Heading := do
  let (e, ts) ← Expr.ofLeading room .nested ts
  let ts ← skipContext ts
  match afterWord? "ignore" ts with
  | some ts => do
    finish (← skipContext (← afterWord "missing" ts))
    return .template e true
  | none => do
    finish ts
    return .template e false

/-- Reads a heading after its keyword. -/
def ofWords (room : Nat) (keyword : List Char) (ts : List Lexeme) : Except TemplateError Heading :=
  match String.ofList keyword with
  | "for" => ofFor room ts
  | "with" => do
    finishValues room (ts.length + 1) true ts
    return .refused (some { keyword := "endwith" })
  | "set" => ofSet room ts
  | "autoescape" => do
    finish (← afterExpr room ts)
    return .refused (some { keyword := "endautoescape" })
  | "filter" => return .filter (← readChain room (ts.length + 1) ts)
  | "block" =>
    match ts with
    | .name x :: ts => do
      finish ts
      return .refused (some { keyword := "endblock", name := some x })
    | ts => unexpected ts
  | "extends" => return .template (← Expr.ofWords room .nested ts) false
  | "include" => ofInclude room ts
  | "import" => do
    let (e, ts) ← Expr.ofLeading room .nested ts
    finish (← skipContext (← afterExpr room (← afterWord "as" ts)))
    return .template e false
  | "from" => do
    let (e, ts) ← Expr.ofLeading room .nested ts
    let ts ← afterWord "import" ts
    finishNames (ts.length + 1) true ts
    return .template e false
  | "macro" =>
    match ts with
    | .name _ :: ts => do
      let ts ← after "(" ts
      finish (← afterParameters room (ts.length + 1) true false ts)
      return .refused (some { keyword := "endmacro" })
    | ts => unexpected ts
  | "call" => do
    let ts ← match after? "(" ts with
      | some ts => afterParameters room (ts.length + 1) true false ts
      | none => pure ts
    let _ ← readCall room ts
    return .refused (some { keyword := "endcall" })
  | "do" => return .call (← readCall room ts)
  | _ => throw .malformed

end Heading

end Theming.Template
