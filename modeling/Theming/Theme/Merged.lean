import Theming.Naming
import Theming.Provider

/-!
# The merged theme of a component

Common tokens start from the first of these that has any: the instance's theme, the provider's definition of the
component, the provider's common tokens, the default theme.  Tokens of the default theme that this base lacks are
filled in.  On top come the provider's common overrides, its overrides of the component, and the instance's overrides.

Own tokens are generated from the merged common tokens, by the first generator of the instance's theme, the provider's
definition and the default theme.  On top come the built-in overrides, the provider's overrides of the component, and
the instance's overrides.
-/

namespace Theming

inductive ThemeError
  | missingGenerator (component : String)
  | missingCommon (component : String)
  deriving DecidableEq

def ThemeError.message : ThemeError → String
  | .missingGenerator component => "theme for '" ++ component ++ "' has no self token generator"
  | .missingCommon component => "theme for '" ++ component ++ "' has no common tokens"

/-- What one instance of a component brings along; `builtin` is set by a component that embeds it. -/
structure Instance where
  theme : Option Definition := none
  overrides : Option Override := none
  builtin : Option Override := none

structure MergedTheme where
  common : TokenMap
  tokens : TokenMap
  peers : NameMap Definition
  peerOverrides : NameMap Override

/-- Lays a list of layers on a map, the last one on top. -/
def layered {β : Type} (merge : β → β → β) (base : β) (layers : List (Option β)) : β :=
  layers.foldl (fun m layer => layer.elim m (merge m)) base

def resolve (id : String) (default : Definition) (inst : Instance) (provider : Option Provider) :
    Except ThemeError MergedTheme := do
  let definition := provider.bind fun p => p.theme.components.get? id
  let overrides := provider.bind fun p => p.overrides.components.get? id
  let some base := (inst.theme.bind Definition.common).or <| (definition.bind Definition.common).or <|
      (provider.bind fun p => p.theme.common).or default.common
    | throw (.missingCommon id)
  let filled := (default.common.map (base.underlay ·)).getD base
  let common := layered NameMap.merge filled
    [provider.bind fun p => p.overrides.common, overrides.bind Override.common, inst.overrides.bind Override.common]
  let some generator := (inst.theme.bind Definition.generator).or <|
      (definition.bind Definition.generator).or default.generator
    | throw (.missingGenerator id)
  return {
    common
    tokens := layered NameMap.merge (generator common)
      [inst.builtin.map Override.tokens, overrides.map Override.tokens, inst.overrides.map Override.tokens]
    peers := layered (NameMap.mergeWith Definition.merge) default.peers
      [definition.map Peered.peers, inst.theme.map Peered.peers]
    peerOverrides := layered (NameMap.mergeWith Override.merge) ∅
      [overrides.map Peered.peers, inst.overrides.map Peered.peers] }

namespace MergedTheme

/-- A variant of an own token, such as `height` for `large`. -/
def variant? (m : MergedTheme) (base variant : String) : Option Token := m.tokens.get? (variantKey base variant)

/-- What an embedded peer gets from the component around it. -/
def peerInstance (m : MergedTheme) (name : String) : Instance where
  theme := m.peers.get? name
  overrides := m.peerOverrides.get? name

end MergedTheme

end Theming
