/-!
# Maps from names

A map from names to values lists its entries by increasing name, in the order of code points, which is the order of
the bytes of UTF-8.  The order is part of the type: an entry may only follow a smaller name, so a map is determined by
its values (`Entries.ext_get?`), and every operation is described by the values it leaves at each name.
-/

namespace Theming

universe u

/-- The name may stand after the bound: it is larger, or there is no bound. -/
def Follows : Option String → String → Prop
  | none, _ => True
  | some bound, name => bound < name

instance : (bound : Option String) → (name : String) → Decidable (Follows bound name)
  | none, _ => inferInstanceAs (Decidable True)
  | some bound, name => inferInstanceAs (Decidable (bound < name))

theorem Follows.ofNone (name : String) : Follows none name := trivial

private theorem eq_of_not_lt {a b : String} (h : ¬ a < b) (h' : ¬ b < a) : a = b :=
  String.le_antisymm (String.not_lt.1 h') (String.not_lt.1 h)

/-- Entries by increasing name, all above the bound. -/
inductive Entries (β : Type u) : Option String → Type u
  | nil {bound : Option String} : Entries β bound
  | cons {bound : Option String} (name : String) (value : β) (follows : Follows bound name)
      (rest : Entries β (some name)) : Entries β bound

abbrev NameMap (β : Type u) : Type u := Entries β none

namespace Entries

variable {β : Type u} {bound : Option String}

instance : EmptyCollection (Entries β bound) := ⟨.nil⟩
instance : Inhabited (Entries β bound) := ⟨.nil⟩

def get? (name : String) : {bound : Option String} → Entries β bound → Option β
  | _, .nil => none
  | _, .cons n v _ rest => if name = n then some v else rest.get? name

/-- Replaces the value at a name by a value computed from the old one. -/
def alter (name : String) (f : Option β → β) :
    {bound : Option String} → Follows bound name → Entries β bound → Entries β bound
  | _, h, .nil => .cons name (f none) h .nil
  | _, h, .cons n v hn rest =>
    if below : name < n then .cons name (f none) h (.cons n v below rest)
    else if above : n < name then .cons n v hn (rest.alter name f above)
    else .cons n (f (some v)) hn rest

def toList : {bound : Option String} → Entries β bound → List (String × β)
  | _, .nil => []
  | _, .cons n v _ rest => (n, v) :: rest.toList

def keys (m : Entries β bound) : List String := m.toList.map Prod.fst

def size (m : Entries β bound) : Nat := m.toList.length

def isEmpty : Entries β bound → Bool
  | .nil => true
  | .cons .. => false

def contains (name : String) (m : Entries β bound) : Bool := (m.get? name).isSome

def foldl {σ : Type} (f : σ → String → β → σ) : {bound : Option String} → σ → Entries β bound → σ
  | _, s, .nil => s
  | _, s, .cons n v _ rest => rest.foldl f (f s n v)

instance [BEq β] : BEq (Entries β bound) := ⟨fun a b => a.toList == b.toList⟩

/-! ### Values at names -/

theorem get?_nil (name : String) : (nil : Entries β bound).get? name = none := rfl

@[simp] theorem get?_empty (name : String) : (∅ : Entries β bound).get? name = none := rfl

theorem get?_cons (name n : String) (v : β) (h : Follows bound n) (rest : Entries β (some n)) :
    (cons n v h rest).get? name = if name = n then some v else rest.get? name := rfl

/-- Names that may not stand after the bound have no value. -/
theorem get?_eq_none {name : String} (m : Entries β bound) (h : ¬ Follows bound name) : m.get? name = none := by
  induction m with
  | nil => rfl
  | @cons bound n v hn rest ih =>
    cases bound with
    | none => exact absurd trivial h
    | some b =>
      have hne : name ≠ n := by rintro rfl; exact h hn
      rw [get?_cons, if_neg hne]
      exact ih fun hlt => h (String.lt_trans hn hlt)

theorem get?_alter (name n : String) (f : Option β → β) (h : Follows bound n) (m : Entries β bound) :
    (m.alter n f h).get? name = if name = n then some (f (m.get? n)) else m.get? name := by
  induction m with
  | nil => rfl
  | @cons bound k v hk rest ih =>
    rw [alter]
    split
    · next below =>
      have hne : n ≠ k := by rintro rfl; exact String.lt_irrefl _ below
      have hn : rest.get? n = none := rest.get?_eq_none fun h : k < n => String.lt_asymm below h
      rw [get?_cons, get?_cons n, if_neg hne, hn]
      rfl
    · split
      · next above =>
        have hne : n ≠ k := by rintro rfl; exact String.lt_irrefl _ above
        rw [get?_cons, ih above, get?_cons, get?_cons, if_neg hne]
        split
        · next e => rw [if_neg (e ▸ hne.symm)]
        · rfl
      · next below above =>
        obtain rfl := eq_of_not_lt below above
        simp only [get?_cons, if_true]
        split <;> rfl

/-- A map is determined by its values. -/
theorem ext_get? {m m' : Entries β bound} (h : ∀ name, m.get? name = m'.get? name) : m = m' := by
  induction m with
  | nil =>
    cases m' with
    | nil => rfl
    | cons n v hn rest => simpa [get?] using h n
  | @cons bound n v hn rest ih =>
    cases m' with
    | nil => simpa [get?] using h n
    | cons n' v' hn' rest' =>
      obtain rfl : n = n' := by
        refine eq_of_not_lt (fun hlt => ?_) fun hlt => ?_
        · have hne : n ≠ n' := by rintro rfl; exact String.lt_irrefl _ hlt
          have := rest'.get?_eq_none fun h : n' < n => String.lt_asymm hlt h
          simpa [get?_cons, hne, this] using h n
        · have hne : n' ≠ n := by rintro rfl; exact String.lt_irrefl _ hlt
          have := rest.get?_eq_none fun h : n < n' => String.lt_asymm hlt h
          simpa [get?_cons, hne, this] using h n'
      obtain rfl : v = v' := by simpa [get?_cons] using h n
      congr 1
      refine ih fun name => ?_
      by_cases e : name = n
      · have hn : ¬ Follows (some n) name := by rw [e]; exact String.lt_irrefl n
        rw [rest.get?_eq_none hn, rest'.get?_eq_none hn]
      · simpa [get?_cons, e] using h name

theorem mem_keys_iff {name : String} (m : Entries β bound) : name ∈ m.keys ↔ (m.get? name).isSome = true := by
  induction m with
  | nil => simp [keys, toList, get?]
  | @cons bound n v hn rest ih =>
    have step : (cons n v hn rest).keys = n :: rest.keys := rfl
    rw [step, List.mem_cons, ih, get?_cons]
    split <;> simp [*]

end Entries

namespace NameMap

variable {β : Type}

def insert (m : NameMap β) (name : String) (value : β) : NameMap β :=
  m.alter name (fun _ => value) (.ofNone name)

/-- Collects pairs; the last value of a repeated name wins. -/
def ofList (pairs : List (String × β)) : NameMap β := pairs.foldl (fun m p => insert m p.1 p.2) ∅

/-- Lays `top` on `m`; where both have a name the values are combined, the one of `top` second. -/
def mergeWith (combine : β → β → β) (m top : NameMap β) : NameMap β :=
  top.foldl (fun m name v => m.alter name (fun old => old.elim v (combine · v)) (.ofNone name)) m

/-- Lays `top` on `m`, replacing values name for name. -/
def merge (m top : NameMap β) : NameMap β := mergeWith (fun _ v => v) m top

/-- Adds the entries of `base` whose names `m` lacks. -/
def underlay (m base : NameMap β) : NameMap β := mergeWith (fun old _ => old) m base

theorem get?_insert (m : NameMap β) (name n : String) (v : β) :
    (m.insert n v).get? name = if name = n then some v else m.get? name :=
  m.get?_alter name n _ _

theorem get?_mergeWith (combine : β → β → β) (m top : NameMap β) (name : String) :
    (mergeWith combine m top).get? name = Option.merge combine (m.get? name) (top.get? name) := by
  have go : ∀ {bound : Option String} (top : Entries β bound) (m : NameMap β),
      (top.foldl (fun m n v => m.alter n (fun old => old.elim v (combine · v)) (.ofNone n)) m).get? name =
        Option.merge combine (m.get? name) (top.get? name) := by
    intro bound top
    induction top with
    | nil => intro m; simp [Entries.foldl, Entries.get?_nil]
    | @cons bound n v hn rest ih =>
      intro m
      rw [Entries.foldl, ih, Entries.get?_alter, Entries.get?_cons]
      by_cases e : name = n
      · have hn : ¬ Follows (some n) name := by rw [e]; exact String.lt_irrefl n
        subst e
        rw [rest.get?_eq_none hn]
        cases m.get? name <;> simp
      · simp [e]
  exact go top m

theorem get?_merge (m top : NameMap β) (name : String) :
    (m.merge top).get? name = (top.get? name).or (m.get? name) := by
  rw [merge, get?_mergeWith]
  cases m.get? name <;> cases top.get? name <;> rfl

theorem get?_underlay (m base : NameMap β) (name : String) :
    (m.underlay base).get? name = (m.get? name).or (base.get? name) := by
  rw [underlay, get?_mergeWith]
  cases m.get? name <;> cases base.get? name <;> rfl

end NameMap

end Theming
