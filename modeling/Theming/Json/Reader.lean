import Theming.Json.Lexeme
import Theming.Value

/-!
# Reading JSON

The words of a text are read one by one into the lists and objects that are open; each of these keeps what it holds so
far, the latest first.  A word without a value makes a value that nobody can use, but that may be passed over; as a
name it makes its object such a value.
-/

namespace Theming.Json

/-- A list or object that is open; `member` is an object whose next value belongs to a name. -/
inductive Frame
  | list (items : List Value)
  | object (members : List (Option String × Value))
  | member (members : List (Option String × Value)) (name : Option String)

/-- What may come next, below the frames that are open. -/
inductive Reading
  | value (stack : List Frame)
  | firstItem (stack : List Frame)
  | firstName (stack : List Frame)
  | name (members : List (Option String × Value)) (stack : List Frame)
  | colon (members : List (Option String × Value)) (name : Option String) (stack : List Frame)
  | next (frame : Frame) (stack : List Frame)
  | done (v : Value)

/-- The object of these members, if their names are all texts. -/
def objectOf (members : List (Option String × Value)) : Value :=
  let named? (m : Option String × Value) : Option (String × Value) := m.1.map (·, m.2)
  ((members.mapM named?).map Value.object).getD .unreadable

/-- Puts a complete value into the innermost frame. -/
def put (v : Value) : List Frame → Option Reading
  | [] => some (.done v)
  | .list items :: stack => some (.next (.list (v :: items)) stack)
  | .member members name :: stack => some (.next (.object ((name, v) :: members)) stack)
  | .object _ :: _ => none

/-- Reads the first word of a value. -/
def begin? (stack : List Frame) : Lexeme → Option Reading
  | .null => put .null stack
  | .flag b => put (.flag b) stack
  | .number x => put ((x.map Value.number).getD .unreadable) stack
  | .text s => put ((s.map Value.text).getD .unreadable) stack
  | .openList => some (.firstItem stack)
  | .openObject => some (.firstName stack)
  | _ => none

def Reading.step? : Reading → Lexeme → Option Reading
  | .value stack, l => begin? stack l
  | .firstItem stack, .closeList => put (.list []) stack
  | .firstItem stack, l => begin? (.list [] :: stack) l
  | .firstName stack, .closeObject => put (.object []) stack
  | .firstName stack, .text s => some (.colon [] s stack)
  | .name members stack, .text s => some (.colon members s stack)
  | .colon members s stack, .colon => some (.value (.member members s :: stack))
  | .next (.list items) stack, .comma => some (.value (.list items :: stack))
  | .next (.list items) stack, .closeList => put (.list items.reverse) stack
  | .next (.object members) stack, .comma => some (.name members stack)
  | .next (.object members) stack, .closeObject => put (objectOf members.reverse) stack
  | _, _ => none

def parseWords? (words : List Lexeme) : Option Value :=
  match words.foldlM Reading.step? (.value []) with
  | some (.done v) => some v
  | _ => none

/-- The value of a whole text. -/
def parse? (s : List Char) : Option Value := (lexemes? .between s).bind parseWords?

/-- How deep lists and objects may be nested in what is used of a text. -/
def maxDepth : Nat := 127

end Theming.Json
