import Theming.Config.Layout
import Theming.Json.Reader
import Theming.Json.Writer
import Theming.Provider.Settings
import Theming.Session
import Theming.Template.Expand
import Theming.Theme.Adaptive
import Theming.Theme.Recipe
import Theming.Yaml.Plain
import Theming.Proofs.Registry.MountOnce
import Theming.Proofs.Resolution.NestedProviders
import Theming.Proofs.Resolution.PeerChain
import Theming.Proofs.Rules.Composition
import Theming.Proofs.Rules.Groups
import Theming.Proofs.Rules.Scoping
import Theming.Proofs.Config.RoundTrip
import Theming.Proofs.Rules.Prefix
import Theming.Proofs.Resolution.Peers
import Theming.Proofs.Merging
import Theming.Proofs.Provider.Nesting
import Theming.Proofs.Rules.Expansion
import Theming.Proofs.Session.BeforeMount
import Theming.Proofs.Registry.Reordering
import Theming.Proofs.Provider.Configuration
import Theming.Proofs.Resolution.Isolation
import Theming.Proofs.Session.ThemeRefs
import Theming.Proofs.Rules.Failing
import Theming.Proofs.Rules.Splitting
import Theming.Proofs.Rules.AtRules
import Theming.Proofs.Rules.Layout
import Theming.Proofs.Relaying
import Theming.Proofs.Resolution.Failures
import Theming.Proofs.StyleVars
import Theming.Proofs.Config.Acceptance
import Theming.Proofs.Config.Building
import Theming.Proofs.Naming
import Theming.Proofs.Rules.Bodies
import Theming.Proofs.Registry.Head
import Theming.Proofs.Template.Untagged
