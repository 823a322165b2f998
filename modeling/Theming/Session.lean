import Theming.Setup
import Theming.StyleVars
import Theming.Theme.Adaptive

/-!
# Sessions

A session is the state that components share while an application runs: the registry, the colour mode, and the slots
that hold the ambient providers.  A handle names a slot, and whoever holds the slot sees the provider that was put
there last.  Contexts and theme references are set up under names; a name may be given anew.
-/

namespace Theming

/-- A component being set up: the slot of its provider and its hooks in order. -/
structure Context (ε : Type) where
  slot : Nat
  hooks : List (Hook ε) := []

/-- Resolves a component's theme on demand, with the provider that its slot holds then. -/
structure ThemeRef where
  id : String
  theme : Definition
  slot : Nat

structure Session (ε : Type) where
  registry : Registry := {}
  mode : ColorMode := .light
  slots : List (Option Provider) := []
  handles : NameMap Nat := ∅
  contexts : NameMap (Context ε) := ∅
  refs : NameMap ThemeRef := ∅

inductive Command (ε : Type)
  | newHandle (handle : String) (provider : Option Provider)
  | setHandle (handle : String) (provider : Option Provider)
  | getHandle (handle : String)
  | newContext (cx : String) (provider : Option Provider)
  | newContextOn (cx handle : String)
  | shareHandle (cx handle : String)
  | getProvider (cx : String)
  | configure (cx : String) (props : ConfigProps) (defaultBordered : Option Bool)
  | useTheme (cx ref id mountId : String) (style : Option Rule) (theme : DefaultTheme) (clsPrefix : Option String)
  | themeValue (ref : String) (inst : Instance)
  | useStyle (cx mountId : String) (style : Option Rule) (clsPrefix : Option String)
  | addHook (cx : String) (hook : Hook ε)
  | runHooks (cx : String)
  | mount (roots : List Rule) (m : Mount)
  | mountBaseline
  | isMounted (id : String)
  | sheet (id : String)
  | sheets
  | count
  | headText
  | teardown
  | setMode (mode : ColorMode)
  | getMode
  | settle (theme : Adaptive)

inductive Reply (ε : Type)
  | done
  | unknown (name : String)
  | provider (p : Option Provider)
  | config (c : Config)
  | id (s : String)
  | theme (m : MergedTheme)
  | count (n : Nat)
  | outcome (o : Outcome)
  | flag (b : Bool)
  | sheet (s : Option Sheet)
  | sheets (l : List Sheet)
  | text (s : String)
  | mode (m : ColorMode)
  | definition (d : Definition)
  | themeError (e : ThemeError)
  | styleError (e : StyleError ε)

namespace Session

variable {ε : Type}

/-- The provider that a slot holds. -/
def provider (s : Session ε) (slot : Nat) : Option Provider := s.slots[slot]?.join

def addSlot (provider : Option Provider) (s : Session ε) : Session ε := { s with slots := s.slots ++ [provider] }

def setContext (name : String) (cx : Context ε) (s : Session ε) : Session ε :=
  { s with contexts := s.contexts.insert name cx }

/-- Runs what needs a named object. -/
def withNamed {α : Type} (objects : NameMap α) (name : String) (s : Session ε) (f : α → Reply ε × Session ε) :
    Reply ε × Session ε :=
  (objects.get? name).elim (.unknown name, s) f

def ofMount (result : Except (StyleError ε) Outcome × Registry) (s : Session ε) : Reply ε × Session ε :=
  (match result.1 with | .ok o => .outcome o | .error e => .styleError e, { s with registry := result.2 })

variable (engine : Template.Engine ε)

def step (s : Session ε) : Command ε → Reply ε × Session ε
  | .newHandle handle provider =>
    (.done, { s.addSlot provider with handles := s.handles.insert handle s.slots.length })
  | .setHandle handle provider =>
    s.withNamed s.handles handle fun slot => (.done, { s with slots := s.slots.set slot provider })
  | .getHandle handle => s.withNamed s.handles handle fun slot => (.provider (s.provider slot), s)
  | .newContext cx provider => (.done, (s.addSlot provider).setContext cx { slot := s.slots.length })
  | .newContextOn cx handle =>
    s.withNamed s.handles handle fun slot => (.done, s.setContext cx { slot })
  | .shareHandle cx handle =>
    s.withNamed s.contexts cx fun c => (.done, { s with handles := s.handles.insert handle c.slot })
  | .getProvider cx => s.withNamed s.contexts cx fun c => (.provider (s.provider c.slot), s)
  | .configure cx props defaultBordered =>
    s.withNamed s.contexts cx fun c => (.config (Theming.configure (s.provider c.slot) props defaultBordered), s)
  | .useTheme cx ref id mountId style theme clsPrefix =>
    s.withNamed s.contexts cx fun c =>
      let queued := style.elim [] fun rule => [Hook.ofStyle engine mountId rule clsPrefix]
      (.id id,
        { s.setContext cx { c with hooks := c.hooks ++ queued } with
          refs := s.refs.insert ref { id, theme := theme.settle s.mode, slot := c.slot } })
  | .themeValue ref inst =>
    s.withNamed s.refs ref fun t =>
      (match resolve t.id t.theme inst (s.provider t.slot) with | .ok m => .theme m | .error e => .themeError e, s)
  | .useStyle cx mountId style clsPrefix =>
    s.withNamed s.contexts cx fun c =>
      match style with
      | some rule =>
        (.done, s.setContext cx { c with hooks := c.hooks ++ [Hook.ofStyle engine mountId rule clsPrefix] })
      | none => (.styleError (.missingStyle mountId), s)
  | .addHook cx hook =>
    s.withNamed s.contexts cx fun c => (.done, s.setContext cx { c with hooks := c.hooks ++ [hook] })
  | .runHooks cx =>
    s.withNamed s.contexts cx fun c =>
      let (result, registry) := Hook.runAll c.hooks s.registry
      (match result with | .ok n => .count n | .error e => .styleError e,
        { s with registry }.setContext cx { c with hooks := [] })
  | .mount roots m => s.ofMount (s.registry.mount engine roots m)
  | .mountBaseline => s.ofMount (s.registry.mountBaseline engine)
  | .isMounted id => (.flag (s.registry.isMounted id), s)
  | .sheet id => (.sheet (s.registry.sheet? id), s)
  | .sheets => (.sheets s.registry.sheets, s)
  | .count => (.count s.registry.size, s)
  | .headText => (.text s.registry.headText, s)
  | .teardown => (.done, { s with registry := {} })
  | .setMode mode => (.mode mode, { s with mode })
  | .getMode => (.mode s.mode, s)
  | .settle theme => (.definition ((DefaultTheme.adaptive theme).settle s.mode), s)

/-- Runs commands in order, with the state after each one. -/
def run : Session ε → List (Command ε) → List (Reply ε × Session ε)
  | _, [] => []
  | s, c :: cs =>
    let result := s.step engine c
    result :: run result.2 cs

end Session

end Theming
