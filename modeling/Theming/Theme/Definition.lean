import Theming.Peered
import Theming.Token

/-!
# Theme definitions and overrides

A definition describes a component family: its common tokens, a generator that derives the component's own tokens from
common ones, and the definitions of its peers.  An override patches common and own tokens of a component and of its
peers.  Either may be partial, and both are layered from below: what the upper layer says replaces what the lower one
says, token for token and peer for peer, and what it leaves out stays.
-/

namespace Theming

abbrev Generator := TokenMap → TokenMap

/-- Lays one optional token map on another; a missing one changes nothing. -/
def mergeCommon (base top : Option TokenMap) : Option TokenMap := Option.merge NameMap.merge base top

/-! ### Definitions -/

/-- What a definition says about a single component. -/
structure Family where
  name : String := ""
  common : Option TokenMap := none
  generator : Option Generator := none

namespace Family

/-- An empty name does not replace a name. -/
def merge (base top : Family) : Family where
  name := if top.name = "" then base.name else top.name
  common := mergeCommon base.common top.common
  generator := top.generator.or base.generator

end Family

abbrev Definition := Peered Family

namespace Definition

def new (name : String) : Definition := .single { name }

def name (d : Definition) : String := d.own.name

def common (d : Definition) : Option TokenMap := d.own.common

def generator (d : Definition) : Option Generator := d.own.generator

def withCommon (tokens : TokenMap) (d : Definition) : Definition := d.setOwn { d.own with common := some tokens }

def withGenerator (g : Generator) (d : Definition) : Definition := d.setOwn { d.own with generator := some g }

def withPeer (name : String) (peer d : Definition) : Definition := d.setPeer name peer

/-- The definition's own tokens, derived from its own common tokens. -/
def generated (d : Definition) : Option TokenMap := d.generator.map fun g => g (d.common.getD ∅)

def merge (base top : Definition) : Definition := Peered.merge Family.merge base top

end Definition

/-! ### Overrides -/

/-- What an override says about a single component. -/
structure Patch where
  common : Option TokenMap := none
  tokens : TokenMap := ∅
  deriving BEq

namespace Patch

def merge (base top : Patch) : Patch where
  common := mergeCommon base.common top.common
  tokens := NameMap.merge base.tokens top.tokens

end Patch

abbrev Override := Peered Patch

namespace Override

def empty : Override := .single {}

def common (o : Override) : Option TokenMap := o.own.common

def tokens (o : Override) : TokenMap := o.own.tokens

def withCommon (tokens : TokenMap) (o : Override) : Override := o.setOwn { o.own with common := some tokens }

def withToken (name : String) (value : Token) (o : Override) : Override :=
  o.setOwn { o.own with tokens := o.tokens.insert name value }

def withCommonToken (name : String) (value : Token) (o : Override) : Override :=
  o.withCommon ((o.common.getD ∅).insert name value)

def withPeer (name : String) (peer o : Override) : Override := o.setPeer name peer

def isEmpty (o : Override) : Bool := o.common.isNone && o.peers.isEmpty && o.tokens.isEmpty

def merge (base top : Override) : Override := Peered.merge Patch.merge base top

end Override

/-! ### Definitions and overrides of a whole application -/

/-- Common tokens and definitions by component. -/
structure GlobalTheme where
  common : Option TokenMap := none
  components : NameMap Definition := ∅

namespace GlobalTheme

def isEmpty (t : GlobalTheme) : Bool := t.common.isNone && t.components.isEmpty

end GlobalTheme

/-- Common tokens and overrides by component, laid on every theme. -/
structure GlobalOverrides where
  common : Option TokenMap := none
  components : NameMap Override := ∅
  deriving BEq

namespace GlobalOverrides

def withCommon (tokens : TokenMap) (o : GlobalOverrides) : GlobalOverrides := { o with common := some tokens }

def withComponent (id : String) (patch : Override) (o : GlobalOverrides) : GlobalOverrides :=
  { o with components := o.components.insert id patch }

def merge (base top : GlobalOverrides) : GlobalOverrides where
  common := mergeCommon base.common top.common
  components := NameMap.mergeWith Override.merge base.components top.components

end GlobalOverrides

end Theming
