import Theming.Token
import Theming.Theme.Palette

/-!
# Rules

A rule has selectors, declarations and rules nested in it.  Rules are plain data; compiling them under a class prefix
gives a style sheet.
-/

namespace Theming

/-- The declarations of a rule: none, a list of properties in order, or a text with one declaration a line. -/
inductive Body
  | empty
  | props (declarations : List (String × Token))
  | raw (text : String)

inductive Rule where
  | mk (selectors : List String) (body : Body) (children : List Rule)

namespace Rule

def selectors : Rule → List String
  | mk s _ _ => s

def body : Rule → Body
  | mk _ b _ => b

def children : Rule → List Rule
  | mk _ _ rs => rs

def append (r : Rule) (more : List Rule) : Rule := mk r.selectors r.body (r.children ++ more)

/-- The text that the class prefix replaces. -/
def placeholder : String := "\x7b\x7b prefix \x7d\x7d"

/-- A block scoped by the class prefix: block `button` under prefix `n` is `.n-button`. -/
def block (name : String) (body : Body) (children : List Rule) : Rule := mk [placeholder ++ name] body children

/-- An element of the block around it, as in `.n-button__icon`. -/
def element (name : String) (body : Body) (children : List Rule) : Rule := mk ["&__" ++ name] body children

/-- A modifier of the block around it, as in `.n-button--disabled`. -/
def modifier (name : String) (body : Body) (children : List Rule) : Rule := mk ["&--" ++ name] body children

/-! ### Built-in rules -/

def baselineId : String := "library/global"

/-- The baseline of every page: the font of the body, which inputs inherit. -/
def baseline : Rule :=
  let margin := "            "
  let declarations (lines : List String) :=
    Body.raw ("\n" ++ String.join (lines.map fun l => margin ++ l ++ "\n") ++ margin)
  mk ["body"]
    (declarations [
      "margin: 0;",
      "font-size: " ++ Palette.fontSize ++ ";",
      "font-family: " ++ Palette.fontFamily ++ ";",
      "line-height: " ++ Palette.lineHeight ++ ";",
      "-webkit-text-size-adjust: 100%;"])
    [mk ["input"] (declarations ["font-family: inherit;", "font-size: inherit;"]) []]

/-- What may vary in the swap of two icons that share a slot. -/
structure IconSwitch where
  /-- The transform of the icon at rest, kept while it is scaled. -/
  transform : String := ""
  left : Token := .number 0
  top : Token := .number 0
  transition : String := "all .3s " ++ Palette.easeInOut ++ " !important"

/-- Scales and fades two icons into each other, nested in the rule of their slot. -/
def IconSwitch.rules (s : IconSwitch) : List Rule := [
  .mk ["&.icon-switch-transition-enter-from, &.icon-switch-transition-leave-to"]
    (.props [
      ("transform", .text (s.transform ++ " scale(0.75)")),
      ("left", s.left),
      ("top", s.top),
      ("opacity", .number 0)]) [],
  .mk ["&.icon-switch-transition-enter-to, &.icon-switch-transition-leave-from"]
    (.props [
      ("transform", .text (Palette.debounceScale ++ " " ++ s.transform)),
      ("left", s.left),
      ("top", s.top),
      ("opacity", .number 1)]) [],
  .mk ["&.icon-switch-transition-enter-active, &.icon-switch-transition-leave-active"]
    (.props [
      ("transformOrigin", .text "center"),
      ("position", .text "absolute"),
      ("left", s.left),
      ("top", s.top),
      ("transition", .text s.transition)]) []]

end Rule

end Theming
