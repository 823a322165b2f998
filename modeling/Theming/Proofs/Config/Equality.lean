import Theming.Proofs.NameMap
import Theming.Provider.Settings

/-!
# Equality of configurations

Equality of configurations is equality of their tokens, and that is equality of numbers: it does not tell the zeros
apart, and what is not a number equals nothing.  Among finite numbers it is reflexive (`beq_self`), and what equals a
finite number is finite.
-/

namespace Theming

/-! ### Numbers -/

theorem isFinite_of_beq {x y : Float} (h : (x == y) = true) (hx : x.isFinite = true) : y.isFinite = true := by
  have hcompare : x.toModel.unpack.beq y.toModel.unpack = true := h
  have hfinite : x.toModel.unpack.isFinite = true := hx
  have goal : y.toModel.unpack.isFinite = true := by
    -- equality compares the unpacked numbers, and tells a finite one from all that are not
    generalize x.toModel.unpack = a at hcompare hfinite
    generalize y.toModel.unpack = b at hcompare
    cases a with
    | infinity sign => cases hfinite
    | notANumber => cases hfinite
    | zero sign =>
      cases b with
      | infinity sign' => cases sign' <;> cases hcompare
      | notANumber => cases hcompare
      | zero sign' => rfl
      | finite sign' m e hm => rfl
    | finite sign m e hm =>
      cases b with
      | infinity sign' => cases sign <;> cases sign' <;> cases hcompare
      | notANumber => cases sign <;> cases hcompare
      | zero sign' => rfl
      | finite sign' m' e' hm' => rfl
  exact goal

theorem beq_self_of_isFinite {x : Float} (h : x.isFinite = true) : (x == x) = true := by
  have hfinite : x.toModel.unpack.isFinite = true := h
  have goal : x.toModel.unpack.beq x.toModel.unpack = true := by
    generalize x.toModel.unpack = a at hfinite
    cases a with
    | infinity sign => cases hfinite
    | notANumber => cases hfinite
    | zero sign => rfl
    | finite sign m e hm =>
      have hmagnitude : (compare e e).then (compare m m) = .eq := by simp
      cases sign with
      | positive => exact congrArg (fun o => some o == some Ordering.eq) hmagnitude
      | negative => exact congrArg (fun o => some o.swap == some Ordering.eq) hmagnitude
  exact goal

/-- The token is not a number, or a finite one. -/
def Token.IsFinite : Token → Prop
  | .number x => x.isFinite = true
  | _ => True

theorem Token.isFinite_of_beq {t u : Token} (h : (t == u) = true) (ht : t.IsFinite) : u.IsFinite := by
  cases t with
  | flag b => cases u <;> trivial
  | number x =>
    cases u with
    | flag b => cases h
    | number y => exact Theming.isFinite_of_beq h ht
    | text s => cases h
  | text s => cases u <;> trivial

theorem Token.beq_self {t : Token} (h : t.IsFinite) : (t == t) = true := by
  cases t with
  | flag b => exact beq_self_eq_true b
  | number x => exact beq_self_of_isFinite h
  | text s => exact beq_self_eq_true s

/-! ### The parts of a configuration -/

namespace Patch

/-- All tokens of a patch. -/
def values (p : Patch) : List Token := (p.common.map Entries.values).getD [] ++ p.tokens.values

/-- No token has the name of a section. -/
def HasFreeNames (p : Patch) : Prop := "common" ∉ p.tokens.keys ∧ "peers" ∉ p.tokens.keys

instance (p : Patch) : Decidable p.HasFreeNames :=
  inferInstanceAs (Decidable ("common" ∉ p.tokens.keys ∧ "peers" ∉ p.tokens.keys))

end Patch

namespace Override

mutual

/-- What an override says about its component and, to any depth, about its peers. -/
def patches : Peered Patch → List Patch
  | .mk patch peers => patch :: peerPatches peers
termination_by structural o => o

def peerPatches : {bound : Option String} → Entries (Peered Patch) bound → List Patch
  | _, .nil => []
  | _, .cons _ o _ rest => patches o ++ peerPatches rest
termination_by structural _ m => m

end

theorem peerPatches_eq_flatMap {bound : Option String} (m : Entries (Peered Patch) bound) :
    peerPatches m = m.values.flatMap patches := by
  induction m with
  | nil => rfl
  | cons name o _ rest ih => rw [peerPatches, ih]; rfl

/-- All tokens of an override and of those in it. -/
def values (o : Override) : List Token := (patches o).flatMap Patch.values

def HasFreeNames (o : Override) : Prop := ∀ p ∈ patches o, p.HasFreeNames

instance (o : Override) : Decidable o.HasFreeNames := inferInstanceAs (Decidable (∀ p ∈ patches o, p.HasFreeNames))

end Override

namespace GlobalOverrides

def patches (o : GlobalOverrides) : List Patch := Override.peerPatches o.components

def values (o : GlobalOverrides) : List Token :=
  (o.common.map Entries.values).getD [] ++ o.patches.flatMap Patch.values

/-- No component has the name of the common section, and no token in it that of a section. -/
def HasFreeNames (o : GlobalOverrides) : Prop := "common" ∉ o.components.keys ∧ ∀ p ∈ o.patches, p.HasFreeNames

end GlobalOverrides

namespace Settings

def values (s : Settings) : List Token := s.overrides.values

def HasFreeNames (s : Settings) : Prop := s.overrides.HasFreeNames

end Settings

/-! ### What equal configurations share -/

/-- One list holds what the other one does, up to equality. -/
abbrev AllEqual {α : Type} [BEq α] (xs ys : List α) : Prop := List.Forall₂ (fun x y => (x == y) = true) xs ys

section AllEqual

variable {α β : Type} [BEq α] [BEq β] {xs ys : List α}

theorem AllEqual.append {xs' ys' : List α} (h : AllEqual xs ys) (h' : AllEqual xs' ys') :
    AllEqual (xs ++ xs') (ys ++ ys') :=
  List.rel_append h h'

theorem AllEqual.flatMap {f : α → List β} (hf : ∀ x y, (x == y) = true → AllEqual (f x) (f y)) (h : AllEqual xs ys) :
    AllEqual (xs.flatMap f) (ys.flatMap f) :=
  List.rel_flatMap h fun x y hxy => hf x y hxy

/-- What equality keeps is kept along the lists. -/
theorem AllEqual.forall_mem {p : α → Prop} (hp : ∀ x y, (x == y) = true → p x → p y) (h : AllEqual xs ys)
    (hxs : ∀ x ∈ xs, p x) : ∀ y ∈ ys, p y := by
  induction h with
  | nil => simp
  | cons hxy _ ih =>
    intro z hz
    rcases List.mem_cons.1 hz with rfl | hz
    · exact hp _ _ hxy (hxs _ List.mem_cons_self)
    · exact ih (fun x hx => hxs x (List.mem_cons_of_mem _ hx)) z hz

end AllEqual

theorem AllEqual.isFinite {ts us : List Token} (h : AllEqual ts us) (hts : ∀ t ∈ ts, t.IsFinite) :
    ∀ u ∈ us, u.IsFinite :=
  h.forall_mem (fun _ _ => Token.isFinite_of_beq) hts

theorem AllEqual.refl {ts : List Token} (h : ∀ t ∈ ts, t.IsFinite) : AllEqual ts ts :=
  List.forall₂_same.2 fun t ht => Token.beq_self (h t ht)

namespace Patch

theorem beq_iff {p q : Patch} : (p == q) = true ↔ (p.common == q.common) = true ∧ (p.tokens == q.tokens) = true := by
  rw [← Bool.and_eq_true]
  rfl

theorem beq_common_iff {m m' : Option TokenMap} : (m == m') = true ↔
    m.map Entries.keys = m'.map Entries.keys ∧
      AllEqual ((m.map Entries.values).getD []) ((m'.map Entries.values).getD []) := by
  cases m <;> cases m' <;> simp [Entries.beq_iff]

theorem allEqual_values {p q : Patch} (h : (p == q) = true) : AllEqual p.values q.values := by
  obtain ⟨hcommon, htokens⟩ := beq_iff.1 h
  exact (beq_common_iff.1 hcommon).2.append (Entries.beq_iff.1 htokens).2

theorem HasFreeNames.of_beq {p q : Patch} (h : (p == q) = true) (hp : p.HasFreeNames) : q.HasFreeNames := by
  have hkeys : p.tokens.keys = q.tokens.keys := (Entries.beq_iff.1 (beq_iff.1 h).2).1
  unfold HasFreeNames
  rwa [← hkeys]

theorem beq_self {p : Patch} (h : ∀ t ∈ p.values, t.IsFinite) : (p == p) = true := by
  refine beq_iff.2 ⟨beq_common_iff.2 ⟨rfl, AllEqual.refl ?_⟩, Entries.beq_iff.2 ⟨rfl, AllEqual.refl ?_⟩⟩
  · exact fun t ht => h t (List.mem_append_left _ ht)
  · exact fun t ht => h t (List.mem_append_right _ ht)

end Patch

theorem AllEqual.hasFreeNames {ps qs : List Patch} (h : AllEqual ps qs) (hps : ∀ p ∈ ps, p.HasFreeNames) :
    ∀ q ∈ qs, q.HasFreeNames :=
  h.forall_mem (fun _ _ => Patch.HasFreeNames.of_beq) hps

theorem AllEqual.patchValues {ps qs : List Patch} (h : AllEqual ps qs) :
    AllEqual (ps.flatMap Patch.values) (qs.flatMap Patch.values) :=
  h.flatMap fun _ _ => Patch.allEqual_values

namespace Override

mutual

theorem allEqual_patches : (o o' : Peered Patch) → (o == o') = true → AllEqual (patches o) (patches o')
  | .mk patch peers, .mk patch' peers', h => by
    obtain ⟨hpatch, hpeers⟩ := Bool.and_eq_true_iff.1 h
    rw [patches, patches]
    exact .cons hpatch (allEqual_beqPeers peers peers' hpeers)
termination_by structural o => o

theorem allEqual_beqPeers : {bound bound' : Option String} → (m : Entries (Peered Patch) bound) →
    (m' : Entries (Peered Patch) bound') → Peered.beqPeers m m' = true → AllEqual (peerPatches m) (peerPatches m')
  | _, _, .nil, .nil, _ => .nil
  | _, _, .nil, .cons .., h => by cases h
  | _, _, .cons .., .nil, h => by cases h
  | _, _, .cons name o _ rest, .cons name' o' _ rest', h => by
    obtain ⟨hfirst, hrest⟩ := Bool.and_eq_true_iff.1 h
    rw [peerPatches, peerPatches]
    exact (allEqual_patches o o' (Bool.and_eq_true_iff.1 hfirst).2).append (allEqual_beqPeers rest rest' hrest)
termination_by structural _ _ m => m

end

theorem allEqual_peerPatches {m m' : NameMap Override} (h : (m == m') = true) :
    AllEqual (peerPatches m) (peerPatches m') := by
  rw [peerPatches_eq_flatMap, peerPatches_eq_flatMap]
  exact AllEqual.flatMap allEqual_patches (Entries.beq_iff.1 h).2

mutual

theorem beq_self : (o : Peered Patch) → (∀ t ∈ values o, t.IsFinite) → (o == o) = true
  | .mk patch peers, h => by
    rw [values, patches, List.flatMap_cons] at h
    refine Bool.and_eq_true_iff.2 ⟨Patch.beq_self fun t ht => h t (List.mem_append_left _ ht), ?_⟩
    exact beqPeers_self peers fun t ht => h t (List.mem_append_right _ ht)
termination_by structural o => o

theorem beqPeers_self : {bound : Option String} → (m : Entries (Peered Patch) bound) →
    (∀ t ∈ (peerPatches m).flatMap Patch.values, t.IsFinite) → Peered.beqPeers m m = true
  | _, .nil, _ => rfl
  | _, .cons name o _ rest, h => by
    rw [peerPatches, List.flatMap_append] at h
    refine Bool.and_eq_true_iff.2 ⟨Bool.and_eq_true_iff.2 ⟨beq_self_eq_true name, ?_⟩, ?_⟩
    · exact beq_self o fun t ht => h t (List.mem_append_left _ ht)
    · exact beqPeers_self rest fun t ht => h t (List.mem_append_right _ ht)
termination_by structural _ m => m

end

theorem allEqual_values {o o' : Override} (h : (o == o') = true) : AllEqual o.values o'.values :=
  (allEqual_patches o o' h).patchValues

theorem HasFreeNames.of_beq {o o' : Override} (h : (o == o') = true) (ho : o.HasFreeNames) : o'.HasFreeNames :=
  (allEqual_patches o o' h).hasFreeNames ho

end Override

namespace GlobalOverrides

theorem beq_iff {o o' : GlobalOverrides} :
    (o == o') = true ↔ (o.common == o'.common) = true ∧ (o.components == o'.components) = true := by
  rw [← Bool.and_eq_true]
  rfl

theorem allEqual_values {o o' : GlobalOverrides} (h : (o == o') = true) : AllEqual o.values o'.values := by
  obtain ⟨hcommon, hcomponents⟩ := beq_iff.1 h
  exact (Patch.beq_common_iff.1 hcommon).2.append (Override.allEqual_peerPatches hcomponents).patchValues

theorem HasFreeNames.of_beq {o o' : GlobalOverrides} (h : (o == o') = true) (ho : o.HasFreeNames) :
    o'.HasFreeNames := by
  have hcomponents := (beq_iff.1 h).2
  refine ⟨?_, (Override.allEqual_peerPatches hcomponents).hasFreeNames ho.2⟩
  rw [← (Entries.beq_iff.1 hcomponents).1]
  exact ho.1

theorem beq_self {o : GlobalOverrides} (h : ∀ t ∈ o.values, t.IsFinite) : (o == o) = true := by
  refine beq_iff.2 ⟨Patch.beq_common_iff.2 ⟨rfl, AllEqual.refl fun t ht => h t (List.mem_append_left _ ht)⟩,
    Entries.beq_iff.2 ⟨rfl, List.forall₂_same.2 fun c hc => Override.beq_self c fun t ht => h t ?_⟩⟩
  refine List.mem_append_right _ ?_
  rw [patches, Override.peerPatches_eq_flatMap, List.flatMap_assoc]
  exact List.mem_flatMap.2 ⟨c, hc, ht⟩

end GlobalOverrides

namespace Settings

theorem beq_overrides {s s' : Settings} (h : (s == s') = true) : (s.overrides == s'.overrides) = true := by
  have hfields : (s.clsPrefix == s'.clsPrefix && (s.bordered == s'.bordered &&
      (s.nameSpace == s'.nameSpace && s.overrides == s'.overrides))) = true := h
  simp only [Bool.and_eq_true] at hfields
  exact hfields.2.2.2

theorem beq_self {s : Settings} (h : ∀ t ∈ s.values, t.IsFinite) : (s == s) = true := by
  have hfields : (s.clsPrefix == s.clsPrefix && (s.bordered == s.bordered &&
      (s.nameSpace == s.nameSpace && s.overrides == s.overrides))) = true := by
    simp [GlobalOverrides.beq_self h]
  exact hfields

end Settings

end Theming
