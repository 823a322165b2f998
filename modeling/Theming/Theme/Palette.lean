import Theming.Token

/-!
# The built-in common tokens

The light and the dark palette share the variables that do not depend on the colour mode.
-/

namespace Theming.Palette

def easeInOut : String := "cubic-bezier(.4, 0, .2, 1)"

def easeOut : String := "cubic-bezier(0, 0, .2, 1)"

def easeIn : String := "cubic-bezier(.4, 0, 1, 1)"

def fontFamily : String :=
  "v-sans, system-ui, -apple-system, BlinkMacSystemFont, \"Segoe UI\", sans-serif, \"Apple Color Emoji\", " ++
    "\"Segoe UI Emoji\", \"Segoe UI Symbol\""

def fontSize : String := "14px"

def lineHeight : String := "1.6"

/-- Keeps an element's edges sharp while it is transformed. -/
def debounceScale : String := "scale(1)"

private def texts (pairs : List (String × String)) : TokenMap :=
  NameMap.ofList (pairs.map fun p => (p.1, Token.text p.2))

def shared : TokenMap := texts [
  ("cubicBezierEaseInOut", easeInOut),
  ("cubicBezierEaseOut", easeOut),
  ("cubicBezierEaseIn", easeIn),
  ("fontFamily", fontFamily),
  ("fontFamilyMono", "v-mono, SFMono-Regular, Menlo, Consolas, Courier, monospace"),
  ("fontSize", fontSize),
  ("fontSizeSmall", "14px"),
  ("fontSizeMedium", "14px"),
  ("fontSizeLarge", "15px"),
  ("heightSmall", "28px"),
  ("heightMedium", "34px"),
  ("heightLarge", "40px"),
  ("borderRadius", "3px"),
  ("lineHeight", lineHeight),
  ("transformDebounceScale", debounceScale)]

def light : TokenMap := shared.merge <| NameMap.insert (texts [
  ("primaryColor", "#18a058"),
  ("primaryColorHover", "#36ad6a"),
  ("primaryColorPressed", "#0c7a43"),
  ("textColorBase", "#000"),
  ("textColor1", "rgb(31, 34, 37)"),
  ("textColor2", "rgb(51, 54, 57)"),
  ("textColorDisabled", "rgba(194, 194, 194, 1)"),
  ("borderColor", "rgb(224, 224, 230)"),
  ("baseColor", "#FFF")]) "opacityDisabled" (.number 0.5)

def dark : TokenMap := shared.merge <| NameMap.insert (texts [
  ("primaryColor", "#63e2b7"),
  ("primaryColorHover", "#7fe7c4"),
  ("primaryColorPressed", "#5acea7"),
  ("textColorBase", "#fff"),
  ("textColor1", "rgba(255, 255, 255, 0.9)"),
  ("textColor2", "rgba(255, 255, 255, 0.82)"),
  ("textColorDisabled", "rgba(255, 255, 255, 0.38)"),
  ("borderColor", "rgba(255, 255, 255, 0.24)"),
  ("baseColor", "#000")]) "opacityDisabled" (.number 0.38)

end Theming.Palette
