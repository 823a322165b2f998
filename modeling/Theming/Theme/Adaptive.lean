import Theming.Theme.Definition

/-!
# Light and dark

An adaptive theme has a definition for each colour mode.  A component's default theme is a fixed definition or an
adaptive one, settled by the mode in force.
-/

namespace Theming

inductive ColorMode
  | light
  | dark
  deriving DecidableEq

structure Adaptive where
  light : Definition
  dark : Definition

def Adaptive.forMode (t : Adaptive) : ColorMode → Definition
  | .light => t.light
  | .dark => t.dark

inductive DefaultTheme
  | fixed (theme : Definition)
  | adaptive (theme : Adaptive)

def DefaultTheme.settle (mode : ColorMode) : DefaultTheme → Definition
  | .fixed theme => theme
  | .adaptive theme => theme.forMode mode

end Theming
