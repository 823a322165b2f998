/-!
# Failures of the partial engine

A template that is not well formed fails whatever its values are; the other failures depend on what is evaluated, and
also stand for what the partial engine does not have.  Other engines fail in ways of their own.
-/

namespace Theming

inductive TemplateError
  | malformed
  | badEscape
  | undefined
  | unknownFilter
  | unknownTest
  | unknownFunction
  | unknownMethod
  | unknownBlock
  | unknownTemplate
  | invalidOperation
  deriving DecidableEq

end Theming
