import Theming.Template.Lexeme

/-!
# The expressions of templates

From loosest to tightest: inline `if` with an optional `else`, `or`, `and`, `not`, comparisons, sums, `~`, products,
powers, then filters and tests, then attributes, subscripts and calls, and the minus sign, which binds tighter than
these.  All but `not`, the minus sign and the branch after `else` group to the left.  Texts in a row are one text, and
parentheses around several expressions make a list.
-/

namespace Theming.Template

inductive Operator
  | or
  | and
  | equal
  | unequal
  | less
  | atMost
  | greater
  | atLeast
  | member
  | plus
  | minus
  | concat
  | times
  | divide
  | floor
  | remainder
  | power
  deriving DecidableEq

/-- How an argument is given: by itself, as a list of arguments, by name, or as a mapping of names to arguments. -/
inductive Passing
  | single
  | spread
  | named
  | namedSpread
  deriving DecidableEq

def Passing.isNamed : Passing → Bool
  | .named | .namedSpread => true
  | .single | .spread => false

inductive Expr
  | text (s : List Char)
  | whole (n : Nat)
  | decimal (x : Float)
  | flag (b : Bool)
  | nothing
  | name (x : List Char)
  | list (items : List Expr)
  | mapping (members : List (Expr × Expr))
  | attribute (e : Expr) (x : List Char)
  | item (e index : Expr)
  /-- A part of a text or list; what is left out is `nothing`. -/
  | slice (e start stop step : Expr)
  /-- The named arguments come last. -/
  | call (f : Expr) (arguments : List (Passing × Expr))
  | filter (e : Expr) (f : List Char) (arguments : List (Passing × Expr))
  | test (e : Expr) (t : List Char) (arguments : List (Passing × Expr))
  | negate (e : Expr)
  | not (e : Expr)
  | binary (op : Operator) (a b : Expr)
  | choice (test yes : Expr) (no : Option Expr)

/-- How tightly an expression binds; `nested` is one that opens anew, in brackets or between marks. -/
inductive Level
  | nested
  | choice
  | or
  | and
  | not
  | comparison
  | sum
  | concat
  | product
  | power
  | applied
  | signed
  | single
  deriving DecidableEq

/-- The next level that binds tighter. -/
def Level.inner : Level → Level
  | .nested => .choice
  | .choice => .or
  | .or => .and
  | .and => .not
  | .not => .comparison
  | .comparison => .sum
  | .sum => .concat
  | .concat => .product
  | .product => .power
  | .power => .applied
  | .applied => .signed
  | .signed | .single => .single

/-- The operators that are written between their operands, and their levels. -/
def operators : List (String × Level × Operator) :=
  [("or", .or, .or), ("and", .and, .and), ("==", .comparison, .equal), ("!=", .comparison, .unequal),
    ("<", .comparison, .less), ("<=", .comparison, .atMost), (">", .comparison, .greater),
    (">=", .comparison, .atLeast), ("in", .comparison, .member), ("+", .sum, .plus), ("-", .sum, .minus),
    ("~", .concat, .concat), ("*", .product, .times), ("/", .product, .divide), ("//", .product, .floor),
    ("%", .product, .remainder), ("**", .power, .power)]

/-- The operator of a level that a word is. -/
def Level.operator? (level : Level) (word : Lexeme) : Option Operator :=
  let found := match word with
    | .name x => operators.lookup (String.ofList x)
    | .sign s => operators.lookup s
    | _ => none
  found.bind fun (l, op) => if l = level then some op else none

/-- How deep expressions and statements may be nested. -/
def maxNesting : Nat := 150

def maxArguments : Nat := 2000

/-- What has been read, and the words that follow. -/
abbrev Read (α : Type) := α × List Lexeme

/-- Fails at words that do not go on as they should. -/
def unexpected {α : Type} : List Lexeme → Except TemplateError α
  | .bad e :: _ => throw e
  | _ => throw .malformed

/-- The words have to end here. -/
def finish : List Lexeme → Except TemplateError Unit
  | [] => return ()
  | ts => unexpected ts

/-- The texts that the words start with, as one text. -/
def leadingText : List Lexeme → List Char × List Lexeme
  | .text _ s :: ts =>
    let (more, ts) := leadingText ts
    (s ++ more, ts)
  | ts => ([], ts)

/-- What follows a sign, if the words start with it. -/
def after? (sign : String) : List Lexeme → Option (List Lexeme)
  | .sign s :: ts => if s = sign then some ts else none
  | _ => none

/-- Names with points between them, as one name. -/
def dottedName : List Lexeme → Except TemplateError (Read (List Char))
  | .name x :: .sign "." :: ts => do
    let (y, ts) ← dottedName ts
    return (x ++ '.' :: y, ts)
  | .name x :: ts => return (x, ts)
  | ts => unexpected ts

/-- A word that an argument without parentheses may start with. -/
def startsArgument : Lexeme → Bool
  | .name x => String.ofList x ∉ ["and", "or", "else", "is"]
  | .text .. | .whole _ | .decimal _ => true
  | .sign s => s ∈ ["+", "-", "[", "\x7b"]
  | .bad _ => false

namespace Expr

/-- A name by itself is a constant or a variable. -/
def ofName (x : List Char) : Expr :=
  if x = "true".toList ∨ x = "True".toList then .flag true
  else if x = "false".toList ∨ x = "False".toList then .flag false
  else if x = "none".toList ∨ x = "None".toList then .nothing
  else .name x

/-- Arguments in the order of their evaluation. -/
def inOrder (arguments : List (Passing × Expr)) : List (Passing × Expr) :=
  arguments.filter (!·.1.isNamed) ++ arguments.filter (·.1.isNamed)

mutual

/-- Reads the longest expression of a level.  `room` is how much deeper expressions may be nested; the fuel bounds the
depth of the calls. -/
def read : Nat → (room : Nat) → Level → List Lexeme → Except TemplateError (Read Expr)
  | 0, _, _, _ => throw .malformed
  | fuel + 1, room, .nested, ts =>
    match room with
    | 0 => throw .malformed
    | room + 1 => read fuel room .choice ts
  | fuel + 1, room, .choice, ts => do
    let (e, ts) ← read fuel room .or ts
    readChoices fuel room e ts
  | fuel + 1, room, .not, ts =>
    match ts with
    | t :: rest =>
      if t.isWord "not" then do
        let (e, ts) ← read fuel room .not rest
        return (.not e, ts)
      else read fuel room .comparison ts
    | [] => throw .malformed
  | fuel + 1, room, .applied, ts => do
    let (e, ts) ← read fuel room .signed ts
    let (e, ts) ← readSuffixes fuel room e ts
    readFilters fuel room e ts
  | fuel + 1, room, .signed, ts =>
    match ts with
    | .sign "-" :: ts => do
      let (e, ts) ← read fuel room .signed ts
      return (.negate e, ts)
    | ts => read fuel room .single ts
  | fuel + 1, room, .single, ts =>
    match room with
    | 0 => throw .malformed
    | room + 1 => readSingle fuel room ts
  | fuel + 1, room, level, ts => do
    let (e, ts) ← read fuel room level.inner ts
    readChain fuel room level e ts
termination_by structural fuel => fuel

/-- Reads a constant, a name, or what stands in brackets.  A text without escapes hides what is wrong with the word
after it. -/
def readSingle : Nat → (room : Nat) → List Lexeme → Except TemplateError (Read Expr)
  | 0, _, _ => throw .malformed
  | fuel + 1, room, ts =>
    match ts with
    | .text false _ :: .bad _ :: _ => throw .malformed
    | .text _ s :: ts =>
      let (more, ts) := leadingText ts
      return (.text (s ++ more), ts)
    | .whole n :: ts => return (.whole n, ts)
    | .decimal x :: ts => return (.decimal x, ts)
    | .name x :: ts => return (.ofName x, ts)
    | .sign "(" :: .sign ")" :: ts => return (.list [], ts)
    | .sign "(" :: ts => do
      let (e, ts) ← read fuel room .nested ts
      match ts with
      | .sign ")" :: ts => return (e, ts)
      | .sign "," :: ts => do
        let (es, ts) ← readItems fuel room ")" ts
        return (.list (e :: es), ts)
      | ts => unexpected ts
    | .sign "[" :: ts => do
      let (es, ts) ← readItems fuel room "]" ts
      return (.list es, ts)
    | .sign "\x7b" :: ts => do
      let (ms, ts) ← readMembers fuel room ts
      return (.mapping ms, ts)
    | ts => unexpected ts
termination_by structural fuel => fuel

/-- Expressions up to the closing sign; a comma may stand before it. -/
def readItems : Nat → (room : Nat) → (closing : String) → List Lexeme → Except TemplateError (Read (List Expr))
  | 0, _, _, _ => throw .malformed
  | fuel + 1, room, closing, ts => do
    match after? closing ts with
    | some ts => return ([], ts)
    | none =>
      let (e, ts) ← read fuel room .nested ts
      match after? closing ts, ts with
      | some ts, _ => return ([e], ts)
      | none, .sign "," :: ts => do
        let (es, ts) ← readItems fuel room closing ts
        return (e :: es, ts)
      | none, ts => unexpected ts
termination_by structural fuel => fuel

/-- Names and values of a mapping up to the closing brace; a comma may stand before it. -/
def readMembers : Nat → (room : Nat) → List Lexeme → Except TemplateError (Read (List (Expr × Expr)))
  | 0, _, _ => throw .malformed
  | fuel + 1, room, ts => do
    match after? "\x7d" ts with
    | some ts => return ([], ts)
    | none =>
      let (key, ts) ← read fuel room .nested ts
      match ts with
      | .sign ":" :: ts =>
        let (value, ts) ← read fuel room .nested ts
        match after? "\x7d" ts, ts with
        | some ts, _ => return ([(key, value)], ts)
        | none, .sign "," :: ts => do
          let (ms, ts) ← readMembers fuel room ts
          return ((key, value) :: ms, ts)
        | none, ts => unexpected ts
      | ts => unexpected ts
termination_by structural fuel => fuel

/-- Further operands of the operators of a level. -/
def readChain : Nat → (room : Nat) → Level → Expr → List Lexeme → Except TemplateError (Read Expr)
  | 0, _, _, _, _ => throw .malformed
  | fuel + 1, room, level, e, ts =>
    match ts with
    | [] => return (e, [])
    | t :: rest =>
      match level.operator? t with
      | some op => do
        let (e', ts) ← read fuel room level.inner rest
        readChain fuel room level (.binary op e e') ts
      | none =>
        if level = .comparison ∧ t.isWord "not" then
          match rest with
          | .name x :: ts =>
            if x = "in".toList then do
              let (e', ts) ← read fuel room level.inner ts
              readChain fuel room level (.not (.binary .member e e')) ts
            else throw .malformed
          | ts => unexpected ts
        else return (e, ts)
termination_by structural fuel => fuel

/-- Further conditions after an expression. -/
def readChoices : Nat → (room : Nat) → Expr → List Lexeme → Except TemplateError (Read Expr)
  | 0, _, _, _ => throw .malformed
  | fuel + 1, room, e, ts =>
    match ts with
    | t :: rest =>
      if t.isWord "if" then do
        let (condition, ts) ← read fuel room .or rest
        match ts with
        | t :: rest =>
          if t.isWord "else" then do
            let (no, ts) ← read fuel room .choice rest
            readChoices fuel room (.choice condition e (some no)) ts
          else readChoices fuel room (.choice condition e none) ts
        | [] => return (.choice condition e none, [])
      else return (e, ts)
    | [] => return (e, [])
termination_by structural fuel => fuel

/-- Attributes, subscripts and calls; a whole number after a point is a subscript.  What is wrong with the word after an
expression comes before anything that is wrong with the place of the expression. -/
def readSuffixes : Nat → (room : Nat) → Expr → List Lexeme → Except TemplateError (Read Expr)
  | 0, _, _, _ => throw .malformed
  | fuel + 1, room, e, ts =>
    match ts with
    | .sign "." :: .name x :: ts => readSuffixes fuel room (.attribute e x) ts
    | .sign "." :: .whole n :: ts => readSuffixes fuel room (.item e (.whole n)) ts
    | .sign "." :: ts => unexpected ts
    | .sign "[" :: ts => do
      let (index, ts) ← match ts with
        | .sign ":" :: _ => pure (none, ts)
        | ts => do
          let (e, ts) ← read fuel room .nested ts
          pure (some e, ts)
      match index, ts with
      | some index, .sign "]" :: ts => readSuffixes fuel room (.item e index) ts
      | start, .sign ":" :: ts => do
        let (stop, ts) ← readBound fuel room ts
        let (step, ts) ← match ts with
          | .sign ":" :: ts => readBound fuel room ts
          | ts => pure (.nothing, ts)
        match ts with
        | .sign "]" :: ts => readSuffixes fuel room (.slice e (start.getD .nothing) stop step) ts
        | ts => unexpected ts
      | _, ts => unexpected ts
    | .sign "(" :: ts => do
      let (args, ts) ← readArguments fuel room maxArguments false ts
      readSuffixes fuel room (.call e (inOrder args)) ts
    | .bad failure :: _ => throw failure
    | ts => return (e, ts)
termination_by structural fuel => fuel

/-- A bound of a slice, which may be left out. -/
def readBound : Nat → (room : Nat) → List Lexeme → Except TemplateError (Read Expr)
  | 0, _, _ => throw .malformed
  | fuel + 1, room, ts =>
    match ts with
    | .sign ":" :: _ | .sign "]" :: _ => return (.nothing, ts)
    | ts => read fuel room .nested ts
termination_by structural fuel => fuel

/-- Filters and tests, with arguments or without.  A test may have one argument without parentheses. -/
def readFilters : Nat → (room : Nat) → Expr → List Lexeme → Except TemplateError (Read Expr)
  | 0, _, _, _ => throw .malformed
  | fuel + 1, room, e, ts =>
    match ts with
    | .sign "|" :: ts => do
      let (f, ts) ← dottedName ts
      let (args, ts) ← match ts with
        | .sign "(" :: ts => readArguments fuel room maxArguments false ts
        | ts => pure ([], ts)
      readFilters fuel room (.filter e f (inOrder args)) ts
    | .bad failure :: _ => throw failure
    | t :: rest =>
      if t.isWord "is" then do
        let (negated, ts) := match rest with
          | t :: ts => if t.isWord "not" then (true, ts) else (false, rest)
          | [] => (false, [])
        let (x, ts) ← dottedName ts
        let (args, ts) ← match ts with
          | .sign "(" :: ts => readArguments fuel room maxArguments false ts
          | t :: rest =>
            if startsArgument t then do
              let (arg, ts) ← read fuel room .signed ts
              let (arg, ts) ← readSuffixes fuel room arg ts
              pure ([(.single, arg)], ts)
            else pure ([], t :: rest)
          | [] => pure ([], [])
        let answer := .test e x (inOrder args)
        readFilters fuel room (if negated then .not answer else answer) ts
      else return (e, ts)
    | [] => return (e, [])
termination_by structural fuel => fuel

/-- Arguments up to the closing parenthesis; a comma may stand before it, and `left` more may be given.  An argument
that is a name may be followed by an equals sign and the value for that name; `named` says that there has been a named
one, and then all that are given by themselves are. -/
def readArguments :
    Nat → (room left : Nat) → (named : Bool) → List Lexeme → Except TemplateError (Read (List (Passing × Expr)))
  | 0, _, _, _, _ => throw .malformed
  | fuel + 1, room, left, named, ts =>
    match ts with
    | .sign ")" :: ts => return ([], ts)
    | ts => do
      let (passing, ts) := match ts with
        | .sign "*" :: ts => (Passing.spread, ts)
        | .sign "**" :: ts => (.namedSpread, ts)
        | ts => (.single, ts)
      let (e, ts) ← read fuel room .nested ts
      let (passing, e, ts) ← match passing, e, ts with
        | .single, .name _, .sign "=" :: ts => do
          let (value, ts) ← read fuel room .nested ts
          pure (Passing.named, value, ts)
        | .single, e, ts => if named then throw .malformed else pure (.single, e, ts)
        | passing, e, ts => pure (passing, e, ts)
      match left, ts with
      | 0, _ => throw .malformed
      | _ + 1, .sign ")" :: ts => return ([(passing, e)], ts)
      | left + 1, .sign "," :: ts => do
        let (args, ts) ← readArguments fuel room left (named || passing.isNamed) ts
        return ((passing, e) :: args, ts)
      | _ + 1, ts => unexpected ts
termination_by structural fuel => fuel

end

/-- Reads the longest expression of a level that the words start with. -/
def ofLeading (room : Nat) (level : Level) (ts : List Lexeme) : Except TemplateError (Read Expr) :=
  read (16 * ts.length + 16) room level ts

/-- Reads all words as one expression of a level. -/
def ofWords (room : Nat) (level : Level) (ts : List Lexeme) : Except TemplateError Expr := do
  let (e, rest) ← ofLeading room level ts
  finish rest
  return e

end Expr

end Theming.Template
