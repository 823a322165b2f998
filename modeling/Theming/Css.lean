import Theming.Text.Blank

/-!
# Style sheets

A style sheet is a list of blocks and at-rules.  It is written with one empty line between items; the content of an
at-rule is its own declarations, one a line, and then its items, all of it indented line by line.
-/

namespace Theming.Css

abbrev Text := List Char

inductive Item
  | block (selectors declarations : List Text)
  | atRule (prelude : Text) (declarations : List Text) (items : List Item)

/-- Puts a line break between two texts if neither is empty. -/
def join (a b : Text) : Text :=
  if a = [] then b else if b = [] then a else a ++ '\n' :: b

/-- Each text on a line of its own. -/
def writeLines (ls : List Text) : Text := ls.flatMap fun l => l ++ ['\n']

def indentLine (l : Text) : Text := if l = [] then [] else ' ' :: ' ' :: l

/-- Indents every line that is not empty. -/
def indent (s : Text) : Text := writeLines ((Theming.Text.lines s).map indentLine)

/-- What stands in braces, after the text in front of them. -/
def braces (head body : Text) : Text := head ++ " \x7b\n".toList ++ body ++ "\x7d\n".toList

/-- The selectors of a block, one a line. -/
def selectorText : List Text → Text
  | [] => []
  | [s] => s
  | s :: more => s ++ ',' :: '\n' :: selectorText more

mutual

def Item.write : Item → Text
  | .block selectors declarations =>
    braces (selectorText selectors) (writeLines (declarations.map (' ' :: ' ' :: ·)))
  | .atRule pre declarations items => braces pre (indent (join (writeLines declarations) (writeAll items)))

def writeAll : List Item → Text
  | [] => []
  | item :: items => join item.write (writeAll items)

end

theorem join_nil_right (a : Text) : join a [] = a := by
  cases a <;> simp [join]

theorem join_assoc (a b c : Text) : join (join a b) c = join a (join b c) := by
  cases a <;> cases b <;> cases c <;> simp [join]

theorem writeAll_append (a b : List Item) : writeAll (a ++ b) = join (writeAll a) (writeAll b) := by
  induction a with
  | nil => rfl
  | cons item items ih => simp only [List.cons_append, writeAll, ih, join_assoc]

end Theming.Css
