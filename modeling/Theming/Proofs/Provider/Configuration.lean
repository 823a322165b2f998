import Theming.Proofs.Resolution.NestedProviders
import Theming.Setup

/-!
# Configuration inside nested providers

The bordered flag and the namespace of a component come from the innermost provider that sets them.  So does its class
prefix, but that an empty prefix counts as none is decided only after the providers have been put together: where the
innermost prefix is the empty one, it hides the prefixes of the providers around it and then gives way to the default
(`configure_surrounded`).
-/

namespace Theming

/-! ### The providers around a component -/

/-- What the providers around a component amount to, the innermost first; there may be none. -/
inductive Surrounds : List Provider → Option Provider → Prop
  | none : Surrounds [] none
  | some {ps : List Provider} {p : Provider} (h : Collapses ps p) : Surrounds ps (some p)

theorem Inherits.of_surrounds {β : Type} {read : Provider → Option β} (hread : Inherits read) {ps : List Provider}
    {provider : Option Provider} (h : Surrounds ps provider) : provider.bind read = firstPresent (ps.map read) := by
  cases h with
  | none => rfl
  | some hps => exact hread.of_collapses hps

theorem inherits_clsPrefix : Inherits Provider.clsPrefix := fun _ _ => rfl

theorem inherits_bordered : Inherits Provider.bordered := fun _ _ => rfl

theorem inherits_nameSpace : Inherits Provider.nameSpace := fun _ _ => rfl

/-! ### Prefixes that say something -/

theorem nonEmpty_eq_none_iff {s : Option String} : nonEmpty s = none ↔ s = none ∨ s = some "" := by
  cases s with
  | none => simp [nonEmpty]
  | some s => by_cases h : s = "" <;> simp [nonEmpty, Option.filter, h]

/-- To leave out empty texts before the first one is chosen or afterwards is the same, unless the first one is empty. -/
theorem nonEmpty_firstPresent {l : List (Option String)} (h : firstPresent l ≠ some "") :
    nonEmpty (firstPresent l) = firstPresent (l.map nonEmpty) := by
  induction l with
  | nil => rfl
  | cons a l ih =>
    cases a with
    | none => exact ih h
    | some s =>
      have hs : s ≠ "" := fun he => h (by rw [he]; rfl)
      have hsome : nonEmpty (some s) = some s := by simp [nonEmpty, Option.filter, hs]
      simp [hsome]

/-! ### Configuration -/

/-- The first class prefix that is not empty, from the instance outwards. -/
def innermostPrefix (props : ConfigProps) (ps : List Provider) : Option String :=
  firstPresent (nonEmpty props.clsPrefix :: ps.map fun q => nonEmpty q.clsPrefix)

/-- To choose a prefix and then leave it out if it is empty misses a prefix further out just where an empty one is
chosen. -/
theorem getD_eq_innermostPrefix_iff (props : ConfigProps) (ps : List Provider) :
    (firstPresent [nonEmpty props.clsPrefix, nonEmpty (firstPresent (ps.map Provider.clsPrefix))]).getD defaultPrefix =
        (innermostPrefix props ps).getD defaultPrefix ↔
      ¬ (nonEmpty props.clsPrefix = none ∧ firstPresent (ps.map Provider.clsPrefix) = some "" ∧
        ∃ s, innermostPrefix props ps = some s ∧ s ≠ defaultPrefix) := by
  rw [innermostPrefix]
  cases hown : nonEmpty props.clsPrefix with
  | some s => simp
  | none =>
    simp only [firstPresent_cons, firstPresent_nil, Option.none_or, Option.or_none]
    by_cases hempty : firstPresent (ps.map Provider.clsPrefix) = some ""
    · -- the empty prefix hides the others, so only the default can be the one that is asked for
      have hhidden : nonEmpty (firstPresent (ps.map Provider.clsPrefix)) = none :=
        nonEmpty_eq_none_iff.2 (.inr hempty)
      rw [hhidden]
      cases firstPresent (ps.map fun q => nonEmpty q.clsPrefix) with
      | none => simp
      | some s => simp [hempty, eq_comm]
    · have hsame : nonEmpty (firstPresent (ps.map Provider.clsPrefix)) =
          firstPresent (ps.map fun q => nonEmpty q.clsPrefix) := by
        rw [nonEmpty_firstPresent hempty, List.map_map]
        rfl
      simp [hsame, hempty]

/-- Inside providers, bordered flag and namespace are the innermost ones.  The class prefix is that of the instance, or
else of the innermost provider that has one, if it is not empty, and else the default.  It is the innermost prefix that
is not empty, or else the default, unless the instance has none, the innermost provider with a prefix has the empty one,
and the first prefix that is not empty differs from the default. -/
theorem configure_surrounded {ps : List Provider} {provider : Option Provider} (h : Surrounds ps provider)
    (props : ConfigProps) (defaultBordered : Option Bool) :
    let c := configure provider props defaultBordered
    c.bordered = (firstPresent ([props.bordered] ++ ps.map Provider.bordered ++ [defaultBordered])).getD true ∧
    c.nameSpace = firstPresent (ps.map Provider.nameSpace) ∧
    c.clsPrefix =
      (firstPresent [nonEmpty props.clsPrefix, nonEmpty (firstPresent (ps.map Provider.clsPrefix))]).getD defaultPrefix ∧
    (c.clsPrefix = (innermostPrefix props ps).getD defaultPrefix ↔
      ¬ (nonEmpty props.clsPrefix = none ∧ firstPresent (ps.map Provider.clsPrefix) = some "" ∧
        ∃ s, innermostPrefix props ps = some s ∧ s ≠ defaultPrefix)) := by
  intro c
  have hbordered : provider.bind Provider.bordered = firstPresent (ps.map Provider.bordered) :=
    inherits_bordered.of_surrounds h
  have hclass : c.clsPrefix =
      (firstPresent [nonEmpty props.clsPrefix, nonEmpty (firstPresent (ps.map Provider.clsPrefix))]).getD
        defaultPrefix := by
    show ((nonEmpty props.clsPrefix).or (nonEmpty (provider.bind Provider.clsPrefix))).getD defaultPrefix = _
    rw [inherits_clsPrefix.of_surrounds h]
    simp
  refine ⟨?_, inherits_nameSpace.of_surrounds h, hclass, ?_⟩
  · show ((props.bordered.or <| (provider.bind Provider.bordered).or defaultBordered).getD true) = _
    rw [hbordered, firstPresent_append, firstPresent_append]
    simp [Option.or_assoc]
  · rw [hclass]
    exact getD_eq_innermostPrefix_iff props ps

/-- Three providers of which each sets something else, and an instance with an empty prefix. -/
theorem configure_surrounded_app :
    let inner : Provider := { overrides := { common := some ∅ } }
    let middle : Provider := { clsPrefix := some "app", nameSpace := some "shop" }
    let outer : Provider := { clsPrefix := some "", bordered := some false, nameSpace := some "page" }
    let c := configure (some (inner.nested (middle.nested outer))) { clsPrefix := some "" } (some true)
    Surrounds [inner, middle, outer] (some (inner.nested (middle.nested outer))) ∧
      c.bordered = false ∧ c.nameSpace = some "shop" ∧ c.clsPrefix = "app" := by
  intro inner middle outer c
  have h : Surrounds [inner, middle, outer] (some (inner.nested (middle.nested outer))) :=
    .some (.nested (.single inner) (.nested (.single middle) (.single outer)))
  obtain ⟨hbordered, hnameSpace, -, hclass⟩ := configure_surrounded h { clsPrefix := some "" } (some true)
  refine ⟨h, hbordered, hnameSpace, hclass.2 ?_⟩
  rintro ⟨-, hhidden, -⟩
  exact absurd hhidden (by decide)

/-- An empty prefix hides that of the provider around it, although on its own it counts as none. -/
theorem configure_emptyPrefix :
    let inner : Provider := { clsPrefix := some "" }
    let outer : Provider := { clsPrefix := some "app" }
    Surrounds [inner, outer] (some (inner.nested outer)) ∧
      (innermostPrefix {} [inner, outer]).getD defaultPrefix = "app" ∧
      (configure (some (inner.nested outer)) {} (some true)).clsPrefix = "n" ∧
      (configure (some outer) {} (some true)).clsPrefix = "app" :=
  ⟨.some (.nested (.single _) (.single _)), by decide, by decide, by decide⟩

end Theming
