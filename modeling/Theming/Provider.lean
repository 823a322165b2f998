import Theming.Theme.Definition

/-!
# Providers

A provider is the ambient configuration of an application or of a part of it.  Each part of it may be missing, and a
provider placed inside another one inherits what it does not say itself.
-/

namespace Theming

structure Provider where
  clsPrefix : Option String := none
  bordered : Option Bool := none
  nameSpace : Option String := none
  theme : GlobalTheme := {}
  overrides : GlobalOverrides := {}

namespace Provider

/-- Places a provider inside `parent`.  Overrides are layered, with the inner ones on top; a global theme replaces the
parent's common tokens if it has some and is layered on the parent's definitions. -/
def nested (p parent : Provider) : Provider where
  clsPrefix := p.clsPrefix.or parent.clsPrefix
  bordered := p.bordered.or parent.bordered
  nameSpace := p.nameSpace.or parent.nameSpace
  overrides := parent.overrides.merge p.overrides
  theme :=
    if p.theme.isEmpty then parent.theme
    else
      { common := p.theme.common.or parent.theme.common
        components := NameMap.mergeWith Definition.merge parent.theme.components p.theme.components }

end Provider

end Theming
