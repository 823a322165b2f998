import Theming.Json.Number
import Theming.Value

/-!
# Writing JSON

Values are written without spaces.  In quotes only the quote, the backslash and the characters below the space are
escaped.
-/

namespace Theming.Json

def hexText (n : Nat) : List Char := ['0', '0', Nat.digitChar (n / 16), Nat.digitChar (n % 16)]

def escape (c : Char) : List Char :=
  if c = '"' then ['\\', '"']
  else if c = '\\' then ['\\', '\\']
  else if c = '\x08' then ['\\', 'b']
  else if c = '\x0c' then ['\\', 'f']
  else if c = '\n' then ['\\', 'n']
  else if c = '\r' then ['\\', 'r']
  else if c = '\t' then ['\\', 't']
  else if c.toNat < 0x20 then '\\' :: 'u' :: hexText c.toNat
  else [c]

def quote (s : String) : List Char := '"' :: s.toList.flatMap escape ++ ['"']

mutual

def write : Value → List Char
  | .null | .unreadable => "null".toList
  | .flag b => (if b then "true" else "false").toList
  | .number x => numberText x
  | .text s => quote s
  | .list items => '[' :: writeItems items ++ [']']
  | .object members => '{' :: writeMembers members ++ ['}']

def writeItems : List Value → List Char
  | [] => []
  | [v] => write v
  | v :: vs => write v ++ ',' :: writeItems vs

def writeMembers : List (String × Value) → List Char
  | [] => []
  | [(name, v)] => quote name ++ ':' :: write v
  | (name, v) :: ms => quote name ++ ':' :: write v ++ ',' :: writeMembers ms

end

end Theming.Json
