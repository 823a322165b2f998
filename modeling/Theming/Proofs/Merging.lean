import Theming.Theme.Definition

/-!
# The laws of merging

Layers may be put together in any grouping, and a layer that says nothing changes nothing.  Each kind of layer owes
these laws to its parts: maps to their values, values with peers to what they say about single components, and all of
them to the rule that a token, a generator or a name of the upper layer replaces the one below.
-/

namespace Theming

variable {α β : Type}

/-! ### Maps and peers -/

namespace NameMap

variable (combine : β → β → β)

theorem mergeWith_assoc [Std.Associative combine] (a b c : NameMap β) :
    mergeWith combine (mergeWith combine a b) c = mergeWith combine a (mergeWith combine b c) := by
  have hvalues : Std.Associative (Option.merge combine) := inferInstance
  refine Entries.ext_get? fun name => ?_
  simp only [get?_mergeWith, hvalues.assoc]

theorem empty_mergeWith (m : NameMap β) : mergeWith combine ∅ m = m := by
  refine Entries.ext_get? fun name => ?_
  simp [get?_mergeWith]

theorem mergeWith_empty (m : NameMap β) : mergeWith combine m ∅ = m := rfl

instance : Std.Associative (merge : NameMap β → NameMap β → NameMap β) :=
  have : Std.Associative fun _ v : β => v := ⟨fun _ _ _ => rfl⟩
  ⟨mergeWith_assoc fun _ v => v⟩

end NameMap

namespace Peered

variable (combine : α → α → α)

theorem map_own_at?_merge (base top : Peered α) (path : List String) :
    ((merge combine base top).at? path).map own =
      Option.merge combine ((base.at? path).map own) ((top.at? path).map own) := by
  rw [at?_merge]
  cases base.at? path <;> cases top.at? path <;> simp [own_merge]

/-- Values with peers are determined by what stands at their paths, and there it is the own values that are merged. -/
instance [Std.Associative combine] : Std.Associative (merge combine) where
  assoc a b c := by
    have hvalues : Std.Associative (Option.merge combine) := inferInstance
    refine ext_at? fun path => ?_
    simp only [map_own_at?_merge, hvalues.assoc]

end Peered

/-! ### Definitions and overrides -/

instance : Std.Associative mergeCommon := inferInstanceAs (Std.Associative (Option.merge NameMap.merge))

theorem none_mergeCommon (t : Option TokenMap) : mergeCommon none t = t := by
  cases t <;> rfl

theorem mergeCommon_none (t : Option TokenMap) : mergeCommon t none = t := by
  cases t <;> rfl

instance : Std.Associative Family.merge where
  assoc a b c := by
    simp only [Family.merge, Family.mk.injEq]
    refine ⟨?_, Std.Associative.assoc _ _ _, (Option.or_assoc ..).symm⟩
    by_cases hc : c.name = ""
    · simp [hc]
    · simp [hc]

instance : Std.Associative Patch.merge where
  assoc a b c := by
    simp only [Patch.merge, Patch.mk.injEq]
    exact ⟨Std.Associative.assoc _ _ _, Std.Associative.assoc _ _ _⟩

instance : Std.Associative Definition.merge := inferInstanceAs (Std.Associative (Peered.merge Family.merge))

instance : Std.Associative Override.merge := inferInstanceAs (Std.Associative (Peered.merge Patch.merge))

namespace GlobalOverrides

theorem merge_assoc (a b c : GlobalOverrides) : (a.merge b).merge c = a.merge (b.merge c) := by
  simp only [merge, GlobalOverrides.mk.injEq]
  exact ⟨Std.Associative.assoc _ _ _, NameMap.mergeWith_assoc ..⟩

theorem empty_merge (a : GlobalOverrides) : merge {} a = a := by
  simp only [merge, none_mergeCommon, NameMap.empty_mergeWith]

theorem merge_empty (a : GlobalOverrides) : a.merge {} = a := by
  simp only [merge, mergeCommon_none, NameMap.mergeWith_empty]

end GlobalOverrides

end Theming
