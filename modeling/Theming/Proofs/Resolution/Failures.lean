import Theming.Proofs.Relaying
import Theming.Proofs.Resolution.NestedProviders

/-!
# When there is no merged theme

Resolution fails if nothing has common tokens to start from, and then, whether or not there is a generator, it is their
lack that is reported; or else if nothing has a generator.  Overrides count for neither.  So it never hurts to add to what
a theme is resolved from: where there is a merged theme there still is one after any additions (`resolve_failures`).
-/

namespace Theming

section Causes

variable (id : String) (default : Definition) (inst : Instance) (provider : Option Provider)

/-- Nothing has common tokens to start from. -/
def LacksCommon : Prop :=
  inst.theme.bind Definition.common = none ∧ (definitionOf provider id).bind Definition.common = none ∧
    (provider.bind fun p => p.theme.common) = none ∧ default.common = none

/-- Nothing has a generator of own tokens. -/
def LacksGenerator : Prop :=
  inst.theme.bind Definition.generator = none ∧ (definitionOf provider id).bind Definition.generator = none ∧
    default.generator = none

theorem baseOf_eq_none_iff : baseOf id default inst provider = none ↔ LacksCommon id default inst provider := by
  simp [baseOf, LacksCommon]

theorem generatorOf_eq_none_iff :
    generatorOf id default inst provider = none ↔ LacksGenerator id default inst provider := by
  simp [generatorOf, LacksGenerator]

theorem resolve_eq_missingCommon_iff :
    resolve id default inst provider = .error (.missingCommon id) ↔ LacksCommon id default inst provider := by
  rw [resolve_eq, ← baseOf_eq_none_iff]
  cases baseOf id default inst provider with
  | none => simp
  | some base =>
    cases generatorOf id default inst provider with
    | none => simp
    | some g => simp

theorem resolve_eq_missingGenerator_iff :
    resolve id default inst provider = .error (.missingGenerator id) ↔
      ¬ LacksCommon id default inst provider ∧ LacksGenerator id default inst provider := by
  rw [resolve_eq, ← baseOf_eq_none_iff, ← generatorOf_eq_none_iff]
  cases baseOf id default inst provider with
  | none => simp
  | some base =>
    cases generatorOf id default inst provider with
    | none => simp
    | some g => simp

theorem exists_resolve_iff :
    (∃ m, resolve id default inst provider = .ok m) ↔
      ¬ LacksCommon id default inst provider ∧ ¬ LacksGenerator id default inst provider := by
  rw [← baseOf_eq_none_iff, ← generatorOf_eq_none_iff]
  simp only [resolve_eq_ok_iff, Option.ne_none_iff_exists']
  constructor
  · rintro ⟨m, base, g, hbase, hg, -⟩
    exact ⟨⟨base, hbase⟩, g, hg⟩
  · rintro ⟨⟨base, hbase⟩, g, hg⟩
    exact ⟨_, base, g, hbase, hg, rfl⟩

end Causes

/-! ### Additions -/

/-- What may be added to a definition: a layer on it or below it, tokens or a generator of its own, a peer. -/
inductive Definition.Addition
  | above (top : Definition)
  | below (base : Definition)
  | common (tokens : TokenMap)
  | generator (g : Generator)
  | peer (name : String) (peer : Definition)

def Definition.add (d : Definition) : Definition.Addition → Definition
  | .above top => d.merge top
  | .below base => base.merge d
  | .common tokens => d.withCommon tokens
  | .generator g => d.withGenerator g
  | .peer name peer => d.withPeer name peer

/-- What a theme is resolved from. -/
structure Sources where
  default : Definition
  inst : Instance := {}
  provider : Option Provider := none

/-- What may be added to the sources of a theme.  What is not there is begun with an empty one, and overrides may become
any others. -/
inductive Addition
  | toDefault (a : Definition.Addition)
  | toTheme (a : Definition.Addition)
  | toComponent (id : String) (a : Definition.Addition)
  | common (tokens : TokenMap)
  | overrides (o : Option Override)
  | builtin (o : Option Override)
  | globalOverrides (o : GlobalOverrides)
  | around (parent : Provider)
  | inside (p : Provider)

namespace Sources

def resolve (s : Sources) (id : String) : Except ThemeError MergedTheme :=
  Theming.resolve id s.default s.inst s.provider

/-- The provider, or an empty one. -/
def scope (s : Sources) : Provider := s.provider.getD {}

def add (s : Sources) : Addition → Sources
  | .toDefault a => { s with default := s.default.add a }
  | .toTheme a => { s with inst := { s.inst with theme := some ((s.inst.theme.getD (.new "")).add a) } }
  | .toComponent id a =>
    let d := (s.scope.theme.components.get? id).getD (.new "")
    { s with provider := some { s.scope with
      theme := { s.scope.theme with components := s.scope.theme.components.insert id (d.add a) } } }
  | .common tokens =>
    { s with provider := some { s.scope with theme := { s.scope.theme with common := some tokens } } }
  | .overrides o => { s with inst := { s.inst with overrides := o } }
  | .builtin o => { s with inst := { s.inst with builtin := o } }
  | .globalOverrides o => { s with provider := some { s.scope with overrides := o } }
  | .around parent => { s with provider := some (s.scope.nested parent) }
  | .inside p => { s with provider := some (p.nested s.scope) }

end Sources

/-! ### What additions keep -/

/-- The new definition lacks common tokens, or a generator, only if the old one does. -/
structure Grows (old new : Option Definition) : Prop where
  common : new.bind Definition.common = none → old.bind Definition.common = none
  generator : new.bind Definition.generator = none → old.bind Definition.generator = none

namespace Grows

theorem refl (d : Option Definition) : Grows d d := ⟨id, id⟩

theorem merge_top (d top : Definition) : Grows (some d) (some (d.merge top)) where
  common h := ((Definition.keeps_common d top).1 h).1
  generator h := ((Definition.keeps_generator d top).1 h).1

theorem merge_base (d base : Definition) : Grows (some d) (some (base.merge d)) where
  common h := ((Definition.keeps_common base d).1 h).2
  generator h := ((Definition.keeps_generator base d).1 h).2

theorem add (d : Definition) (a : Definition.Addition) : Grows (some d) (some (d.add a)) := by
  cases a with
  | above top => exact merge_top d top
  | below base => exact merge_base d base
  | common tokens => exact ⟨nofun, id⟩
  | generator g => exact ⟨id, nofun⟩
  | peer name peer => exact ⟨id, id⟩

/-- A definition that is not there is begun with the empty one. -/
theorem add_getD (d : Option Definition) (a : Definition.Addition) :
    Grows d (some ((d.getD (.new "")).add a)) := by
  cases d with
  | none => exact ⟨fun _ => rfl, fun _ => rfl⟩
  | some d => exact add d a

end Grows

theorem Provider.grows_nested (p parent : Provider) (id : String) :
    Grows (p.theme.components.get? id) ((p.nested parent).theme.components.get? id) ∧
      Grows (parent.theme.components.get? id) ((p.nested parent).theme.components.get? id) := by
  have hcommon := Definition.keeps_common.get? id parent.theme.components p.theme.components
  have hgenerator := Definition.keeps_generator.get? id parent.theme.components p.theme.components
  rw [theme_nested]
  exact ⟨⟨fun h => (hcommon.1 h).2, fun h => (hgenerator.1 h).2⟩,
    ⟨fun h => (hcommon.1 h).1, fun h => (hgenerator.1 h).1⟩⟩

theorem Provider.common_of_nested {p parent : Provider} (h : (p.nested parent).theme.common = none) :
    p.theme.common = none ∧ parent.theme.common = none := by
  rw [theme_nested] at h
  exact Option.or_eq_none_iff.1 h

namespace Sources

/-- The layers of the new sources lack common tokens, or a generator, only where the old ones do. -/
structure Extends (id : String) (old new : Sources) : Prop where
  theme : Grows old.inst.theme new.inst.theme
  definition : Grows (old.scope.theme.components.get? id) (new.scope.theme.components.get? id)
  common : new.scope.theme.common = none → old.scope.theme.common = none
  default : Grows (some old.default) (some new.default)

theorem definitionOf_eq_scope (s : Sources) (id : String) :
    definitionOf s.provider id = s.scope.theme.components.get? id := by
  unfold scope
  cases s.provider <;> rfl

theorem common_eq_scope (s : Sources) : (s.provider.bind fun p => p.theme.common) = s.scope.theme.common := by
  unfold scope
  cases s.provider <;> rfl

theorem exists_resolve_of_extends {id : String} {old new : Sources} (h : Extends id old new)
    (hold : ∃ m, old.resolve id = .ok m) : ∃ m, new.resolve id = .ok m := by
  obtain ⟨hcommon, hgenerator⟩ := (exists_resolve_iff ..).1 hold
  refine (exists_resolve_iff ..).2 ⟨fun hnew => hcommon ?_, fun hnew => hgenerator ?_⟩
  · obtain ⟨htheme, hdefinition, hscope, hdefault⟩ := hnew
    rw [definitionOf_eq_scope] at hdefinition
    rw [common_eq_scope] at hscope
    rw [LacksCommon, definitionOf_eq_scope, common_eq_scope]
    exact ⟨h.theme.common htheme, h.definition.common hdefinition, h.common hscope, h.default.common hdefault⟩
  · obtain ⟨htheme, hdefinition, hdefault⟩ := hnew
    rw [definitionOf_eq_scope] at hdefinition
    rw [LacksGenerator, definitionOf_eq_scope]
    exact ⟨h.theme.generator htheme, h.definition.generator hdefinition, h.default.generator hdefault⟩

theorem extends_add (id : String) (s : Sources) (a : Addition) : Extends id s (s.add a) := by
  cases a with
  | toDefault a => exact ⟨.refl _, .refl _, fun h => h, .add _ a⟩
  | toTheme a => exact ⟨.add_getD _ a, .refl _, fun h => h, .refl _⟩
  | toComponent id' a =>
    refine ⟨.refl _, ?_, fun h => h, .refl _⟩
    show Grows _ ((s.scope.theme.components.insert id' _).get? id)
    rw [NameMap.get?_insert]
    split
    · rename_i hid
      rw [hid]
      exact .add_getD _ a
    · exact .refl _
  | common tokens => exact ⟨.refl _, .refl _, nofun, .refl _⟩
  | overrides o => exact ⟨.refl _, .refl _, fun h => h, .refl _⟩
  | builtin o => exact ⟨.refl _, .refl _, fun h => h, .refl _⟩
  | globalOverrides o => exact ⟨.refl _, .refl _, fun h => h, .refl _⟩
  | around parent =>
    exact ⟨.refl _, (s.scope.grows_nested parent id).1, fun h => (Provider.common_of_nested h).1, .refl _⟩
  | inside p =>
    exact ⟨.refl _, (p.grows_nested s.scope id).2, fun h => (Provider.common_of_nested h).2, .refl _⟩

theorem exists_resolve_of_additions (additions : List Addition) {s : Sources} {id : String}
    (h : ∃ m, s.resolve id = .ok m) : ∃ m, (additions.foldl add s).resolve id = .ok m := by
  induction additions generalizing s with
  | nil => exact h
  | cons a additions ih => exact ih (exists_resolve_of_extends (s.extends_add id a) h)

end Sources

/-! ### Failures -/

/-- Resolution fails for want of common tokens just if the instance's theme, the provider's definition of the component,
the provider's common tokens and the default theme all lack them; for want of a generator just if this is not so and the
three definitions lack one; and else it succeeds.  So it goes on to succeed after any additions, and with the provider
inside any parent. -/
theorem resolve_failures (id : String) (default : Definition) (inst : Instance) (provider : Option Provider) :
    (resolve id default inst provider = .error (.missingCommon id) ↔ LacksCommon id default inst provider) ∧
    (resolve id default inst provider = .error (.missingGenerator id) ↔
      ¬ LacksCommon id default inst provider ∧ LacksGenerator id default inst provider) ∧
    ((∃ m, resolve id default inst provider = .ok m) ↔
      ¬ LacksCommon id default inst provider ∧ ¬ LacksGenerator id default inst provider) ∧
    ((∃ m, resolve id default inst provider = .ok m) →
      (∀ additions : List Addition,
        ∃ m, (additions.foldl Sources.add { default, inst, provider }).resolve id = .ok m) ∧
      ∀ p parent : Provider, provider = some p → ∃ m, resolve id default inst (some (p.nested parent)) = .ok m) := by
  refine ⟨resolve_eq_missingCommon_iff .., resolve_eq_missingGenerator_iff .., exists_resolve_iff .., fun h => ?_⟩
  have hadditions : ∀ additions : List Addition,
      ∃ m, (additions.foldl Sources.add { default, inst, provider }).resolve id = .ok m := fun additions =>
    Sources.exists_resolve_of_additions additions h
  refine ⟨hadditions, ?_⟩
  rintro p parent rfl
  exact hadditions [.around parent]

/-- Common overrides are no common tokens to start from, and what is complete stays so when a peer is added, a layer
that says nothing is laid on it, and its provider comes to stand inside another one. -/
theorem resolve_failures_button :
    let patched : Instance := { overrides := some (Override.empty.withCommonToken "a" (.flag true)) }
    let bare := (Definition.new "Button").withGenerator fun common => common
    let silent := (Definition.new "Button").withCommon ∅
    let complete := silent.withGenerator fun common => common
    let provider : Provider := { theme := { components := NameMap.insert ∅ "Button" (Definition.new "") } }
    let parent : Provider := { theme := { common := some ∅ } }
    resolve "Button" bare patched none = .error (.missingCommon "Button") ∧
    resolve "Button" silent patched (some provider) = .error (.missingGenerator "Button") ∧
    (∃ m, resolve "Button" complete patched (some provider) = .ok m) ∧
    (∃ m, (([.toDefault (.peer "Icon" bare), .toTheme (.above (Definition.new "")), .around parent] :
      List Addition).foldl Sources.add ⟨complete, patched, some provider⟩).resolve "Button" = .ok m) ∧
    ∃ m, resolve "Button" complete patched (some (provider.nested parent)) = .ok m := by
  intro patched bare silent complete provider parent
  have hbare : LacksCommon "Button" bare patched none := ⟨rfl, rfl, rfl, rfl⟩
  have hsilent : ¬ LacksCommon "Button" silent patched (some provider) ∧
      LacksGenerator "Button" silent patched (some provider) := ⟨nofun, rfl, rfl, rfl⟩
  have hcomplete : ∃ m, resolve "Button" complete patched (some provider) = .ok m := ⟨_, rfl⟩
  obtain ⟨-, -, -, hkept⟩ := resolve_failures "Button" complete patched (some provider)
  obtain ⟨hadditions, hnested⟩ := hkept hcomplete
  exact ⟨(resolve_failures ..).1.2 hbare, (resolve_failures ..).2.1.2 hsilent, hcomplete, hadditions _,
    hnested provider parent rfl⟩

end Theming
