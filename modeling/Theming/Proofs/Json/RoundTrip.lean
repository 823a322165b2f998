import Theming.Json.Reader
import Theming.Proofs.Failure
import Theming.Proofs.Json.Words

/-!
# Writing and reading JSON

A value is read back from its text, provided that its numbers are and that all of it has a value (`parse?_write`).  And
no text has a number that is not finite: the words have none, and reading makes no new ones (`holdsFinite_of_parse?`).
-/

namespace Theming.Json

/-! ### Reading what has been written -/

/-- The first word of a value may come next, for the innermost frame. -/
def Reading.Awaits (r : Reading) (stack : List Frame) : Prop := ∀ l, l ≠ .closeList → r.step? l = begin? stack l

theorem awaits_value (stack : List Frame) : (Reading.value stack).Awaits stack := fun _ _ => rfl

theorem awaits_firstItem (stack : List Frame) : (Reading.firstItem stack).Awaits (.list [] :: stack) := by
  intro l hl
  -- only the end of the list is taken otherwise
  cases l <;> first | rfl | exact absurd rfl hl

/-- A name may come next. -/
def Reading.AwaitsName (r : Reading) (members : List (Option String × Value)) (stack : List Frame) : Prop :=
  ∀ s, r.step? (.text s) = some (.colon members s stack)

theorem objectOf_some (members : List (String × Value)) :
    objectOf (members.map fun m => (some m.1, m.2)) = .object members := by
  have hnamed : (members.map fun m => (some m.1, m.2)).mapM (fun m => m.1.map (·, m.2)) = some members :=
    mapM_map_eq_some (by simp) members
  rw [objectOf, hnamed]
  rfl

/-- Reads words from a reading on. -/
def Reading.run? (r : Reading) (ws : List Lexeme) : Option Reading := ws.foldlM Reading.step? r

theorem Reading.run?_cons (r : Reading) (l : Lexeme) (ws : List Lexeme) :
    r.run? (l :: ws) = (r.step? l).bind (·.run? ws) := rfl

theorem Reading.Awaits.run? {r : Reading} {stack : List Frame} (h : r.Awaits stack) (l : Lexeme) (hl : l ≠ .closeList)
    (ws : List Lexeme) : r.run? (l :: ws) = (begin? stack l).bind (·.run? ws) := by
  rw [Reading.run?_cons, h l hl]

theorem Reading.AwaitsName.run? {r : Reading} {members : List (Option String × Value)} {stack : List Frame}
    (h : r.AwaitsName members stack) (name : String) (ws : List Lexeme) :
    r.run? (.text (some name) :: .colon :: ws) =
      (Reading.value (.member members (some name) :: stack)).run? ws := by
  rw [Reading.run?_cons, h]
  rfl

mutual

/-- The words of a value put it into the innermost frame. -/
theorem run?_words : (v : Value) → (∀ l ∈ v.leaves, IsReadBack l) → (r : Reading) → (stack : List Frame) →
    r.Awaits stack → (ws : List Lexeme) → r.run? (words v ++ ws) = (put v stack).bind (·.run? ws)
  | .null, _, r, stack, hr, ws => hr.run? .null nofun ws
  | .flag b, _, r, stack, hr, ws => hr.run? (.flag b) nofun ws
  | .number x, _, r, stack, hr, ws => hr.run? (.number (some x)) nofun ws
  | .text s, _, r, stack, hr, ws => hr.run? (.text (some s)) nofun ws
  | .unreadable, h, _, _, _, _ => (h _ (List.mem_singleton_self _)).elim
  | .list [], _, r, stack, hr, ws => hr.run? .openList nofun (.closeList :: ws)
  | .list (v :: vs), h, r, stack, hr, ws => by
    have hitems := run?_itemWords (v :: vs) h (List.cons_ne_nil _ _) (.firstItem stack) [] stack
      (awaits_firstItem stack) ws
    have hwords : words (.list (v :: vs)) ++ ws = .openList :: (itemWords (v :: vs) ++ .closeList :: ws) := by
      simp [words]
    rw [hwords, hr.run? .openList nofun, begin?, Option.bind_some, hitems]
    rfl
  | .object [], _, r, stack, hr, ws => hr.run? .openObject nofun (.closeObject :: ws)
  | .object (m :: ms), h, r, stack, hr, ws => by
    have hmembers := run?_memberWords (m :: ms) h (List.cons_ne_nil _ _) (.firstName stack) [] stack (fun _ => rfl) ws
    have hwords : words (.object (m :: ms)) ++ ws = .openObject :: (memberWords (m :: ms) ++ .closeObject :: ws) := by
      simp [words]
    rw [hwords, hr.run? .openObject nofun, begin?, Option.bind_some, hmembers, List.reverse_nil, List.nil_append,
      objectOf_some]

/-- Items and the end of their list complete it. -/
theorem run?_itemWords : (vs : List Value) → (∀ l ∈ Value.leavesAll vs, IsReadBack l) → vs ≠ [] →
    (r : Reading) → (items : List Value) → (stack : List Frame) → r.Awaits (.list items :: stack) →
    (ws : List Lexeme) →
    r.run? (itemWords vs ++ .closeList :: ws) = (put (.list (items.reverse ++ vs)) stack).bind (·.run? ws)
  | [v], h, _, r, items, stack, hr, ws => by
    have hv := run?_words v (fun l hl => h l (List.mem_append_left _ hl)) r _ hr (.closeList :: ws)
    rw [itemWords, hv, put, Option.bind_some, Reading.run?_cons, Reading.step?, List.reverse_cons]
  | v :: w :: vs, h, _, r, items, stack, hr, ws => by
    have hwords : itemWords (v :: w :: vs) ++ .closeList :: ws =
        words v ++ .comma :: (itemWords (w :: vs) ++ .closeList :: ws) := by
      simp [itemWords]
    have hvs := run?_itemWords (w :: vs) (fun l hl => h l (List.mem_append_right _ hl)) (List.cons_ne_nil _ _) _
      (v :: items) stack (awaits_value _) ws
    rw [hwords, run?_words v (fun l hl => h l (List.mem_append_left _ hl)) r _ hr, put, Option.bind_some,
      Reading.run?_cons, Reading.step?, Option.bind_some, hvs, List.reverse_cons, List.append_assoc,
      List.singleton_append]

/-- Members and the end of their object complete it. -/
theorem run?_memberWords : (ms : List (String × Value)) → (∀ l ∈ Value.memberLeaves ms, IsReadBack l) → ms ≠ [] →
    (r : Reading) → (members : List (Option String × Value)) → (stack : List Frame) → r.AwaitsName members stack →
    (ws : List Lexeme) →
    r.run? (memberWords ms ++ .closeObject :: ws) =
      (put (objectOf (members.reverse ++ ms.map fun m => (some m.1, m.2))) stack).bind (·.run? ws)
  | [(name, v)], h, _, r, members, stack, hr, ws => by
    have hv := run?_words v (fun l hl => h l (List.mem_append_left _ hl)) _ _
      (awaits_value (.member members (some name) :: stack)) (.closeObject :: ws)
    rw [memberWords, List.cons_append, List.cons_append, hr.run? name, hv, put, Option.bind_some, Reading.run?_cons,
      Reading.step?, List.reverse_cons]
    rfl
  | (name, v) :: m :: ms, h, _, r, members, stack, hr, ws => by
    have hwords : memberWords ((name, v) :: m :: ms) ++ .closeObject :: ws =
        .text (some name) :: .colon :: (words v ++ .comma :: (memberWords (m :: ms) ++ .closeObject :: ws)) := by
      simp [memberWords]
    have hms := run?_memberWords (m :: ms) (fun l hl => h l (List.mem_append_right _ hl)) (List.cons_ne_nil _ _)
      (.name ((some name, v) :: members) stack) _ stack (fun _ => rfl) ws
    rw [hwords, hr.run? name, run?_words v (fun l hl => h l (List.mem_append_left _ hl)) _ _ (awaits_value _), put,
      Option.bind_some, Reading.run?_cons, Reading.step?, Option.bind_some, hms, List.reverse_cons, List.append_assoc]
    rfl

end

theorem parse?_write {v : Value} (h : ∀ l ∈ v.leaves, IsReadBack l) : parse? (write v) = some v := by
  have hlex := lexemes?_write v h [] delimited_nil
  have hrun := run?_words v h (.value []) [] (awaits_value []) []
  rw [List.append_nil] at hlex hrun
  simp only [parse?, hlex, lexemes?, Option.map_some, Option.bind_some, List.append_nil, parseWords?]
  rw [Reading.run?] at hrun
  rw [hrun]
  rfl

/-! ### The numbers of a text -/

/-- The word is no number that is not finite. -/
def Lexeme.IsFinite (l : Lexeme) : Prop := ∀ x, l = .number (some x) → x.isFinite = true

theorem isFinite_of_runLexeme? {s : List Char} {l : Lexeme} (h : runLexeme? s = some l) : l.IsFinite := by
  rintro x rfl
  unfold runLexeme? at h
  split_ifs at h
  · cases h
  · cases h
  · cases h
  · obtain ⟨y, hy, hl⟩ := Option.map_eq_some_iff.1 h
    cases hl
    exact isFinite_of_number? hy

theorem isFinite_of_start? {c : Char} {ws : List Lexeme} {m : Mode} (h : start? c = some (ws, m)) :
    ∀ l ∈ ws, l.IsFinite := by
  unfold start? at h
  split at h <;> try split_ifs at h
  all_goals
    obtain ⟨rfl, -⟩ := Prod.mk.inj (Option.some.inj h)
    simp [Lexeme.IsFinite]

theorem isFinite_of_step? {m m' : Mode} {c : Char} {ws : List Lexeme} (h : m.step? c = some (ws, m')) :
    ∀ l ∈ ws, l.IsFinite := by
  cases m with
  | between => exact isFinite_of_start? h
  | run read =>
    simp only [Mode.step?] at h
    split_ifs at h
    · obtain ⟨rfl, -⟩ := Prod.mk.inj (Option.some.inj h)
      simp
    · -- the run becomes a word, and its delimiter may be one too
      obtain ⟨word, hword, h⟩ := Option.bind_eq_some_iff.1 h
      obtain ⟨⟨more, m⟩, hmore, h⟩ := Option.bind_eq_some_iff.1 h
      obtain ⟨rfl, -⟩ := Prod.mk.inj (Option.some.inj h)
      intro l hl
      rcases List.mem_cons.1 hl with rfl | hl
      · exact isFinite_of_runLexeme? hword
      · exact isFinite_of_start? hmore l hl
  | quoted codes =>
    simp only [Mode.step?] at h
    split_ifs at h
    all_goals
      obtain ⟨rfl, -⟩ := Prod.mk.inj (Option.some.inj h)
      simp [Lexeme.IsFinite]
  | escape codes =>
    simp only [Mode.step?] at h
    split_ifs at h
    · obtain ⟨rfl, -⟩ := Prod.mk.inj (Option.some.inj h)
      simp
    · obtain ⟨d, -, h⟩ := Option.map_eq_some_iff.1 h
      obtain ⟨rfl, -⟩ := Prod.mk.inj h
      simp
  | code codes n left =>
    obtain ⟨d, -, h⟩ := Option.bind_eq_some_iff.1 h
    cases left with
    | zero =>
      obtain ⟨rfl, -⟩ := Prod.mk.inj (Option.some.inj h)
      simp
    | succ left =>
      obtain ⟨rfl, -⟩ := Prod.mk.inj (Option.some.inj h)
      simp

/-- Only finite numbers are words of a text. -/
theorem isFinite_of_lexemes? {m : Mode} {s : List Char} {ws : List Lexeme} (h : lexemes? m s = some ws) :
    ∀ l ∈ ws, l.IsFinite := by
  induction s generalizing m ws with
  | nil =>
    cases m with
    | between =>
      obtain rfl := Option.some.inj h
      simp
    | run read =>
      obtain ⟨word, hword, rfl⟩ := Option.map_eq_some_iff.1 h
      simpa using isFinite_of_runLexeme? hword
    | quoted codes => cases h
    | escape codes => cases h
    | code codes n left => cases h
  | cons c s ih =>
    rw [lexemes?_cons] at h
    obtain ⟨⟨first, m'⟩, hfirst, h⟩ := Option.bind_eq_some_iff.1 h
    obtain ⟨more, hmore, rfl⟩ := Option.map_eq_some_iff.1 h
    intro l hl
    rcases List.mem_append.1 hl with hl | hl
    · exact isFinite_of_step? hfirst l hl
    · exact ih hmore l hl

/-- The numbers in the value are finite. -/
def HoldsFinite (v : Value) : Prop := ∀ x, .number x ∈ v.leaves → x.isFinite = true

def Frame.values : Frame → List Value
  | .list items => items
  | .object members => members.map Prod.snd
  | .member members _ => members.map Prod.snd

/-- The values that have been read so far. -/
def Reading.values : Reading → List Value
  | .value stack | .firstItem stack | .firstName stack => stack.flatMap Frame.values
  | .name members stack | .colon members _ stack => members.map Prod.snd ++ stack.flatMap Frame.values
  | .next frame stack => frame.values ++ stack.flatMap Frame.values
  | .done v => [v]

theorem holdsFinite_list {items : List Value} (h : ∀ u ∈ items, HoldsFinite u) : HoldsFinite (.list items) := by
  intro x hx
  rw [Value.leaves, Value.leavesAll_eq_flatMap] at hx
  obtain ⟨u, hu, hxu⟩ := List.mem_flatMap.1 hx
  exact h u hu x hxu

theorem holdsFinite_objectOf {members : List (Option String × Value)}
    (h : ∀ u ∈ members.map Prod.snd, HoldsFinite u) : HoldsFinite (objectOf members) := by
  intro x hx
  unfold objectOf at hx
  cases hms : members.mapM (fun m => m.1.map (·, m.2)) with
  | none => simp [hms, Value.leaves] at hx
  | some named =>
    simp only [hms, Option.map_some, Option.getD_some, Value.mem_leaves_object] at hx
    obtain ⟨name, v, hv, hxv⟩ := hx
    obtain ⟨m, hm, hnamed⟩ := exists_of_mem_mapM hms hv
    obtain ⟨n, -, hpair⟩ := Option.map_eq_some_iff.1 hnamed
    obtain ⟨-, rfl⟩ := Prod.mk.inj hpair
    exact h m.2 (List.mem_map_of_mem hm) x hxv

theorem holdsFinite_put {v : Value} {stack : List Frame} {r : Reading} (h : put v stack = some r) (hv : HoldsFinite v)
    (hstack : ∀ u ∈ stack.flatMap Frame.values, HoldsFinite u) : ∀ u ∈ r.values, HoldsFinite u := by
  unfold put at h
  split at h
  · obtain rfl := Option.some.inj h
    simpa [Reading.values] using hv
  · obtain rfl := Option.some.inj h
    simpa [Reading.values, Frame.values, hv] using hstack
  · obtain rfl := Option.some.inj h
    simpa [Reading.values, Frame.values, hv] using hstack
  · cases h

theorem holdsFinite_begin? {stack : List Frame} {l : Lexeme} {r : Reading} (h : begin? stack l = some r)
    (hl : l.IsFinite) (hstack : ∀ u ∈ stack.flatMap Frame.values, HoldsFinite u) :
    ∀ u ∈ r.values, HoldsFinite u := by
  unfold begin? at h
  split at h
  · exact holdsFinite_put h (by simp [HoldsFinite, Value.leaves]) hstack
  · exact holdsFinite_put h (by simp [HoldsFinite, Value.leaves]) hstack
  · rename_i x
    refine holdsFinite_put h ?_ hstack
    cases x with
    | none => simp [HoldsFinite, Value.leaves]
    | some x => simpa [HoldsFinite, Value.leaves] using hl x rfl
  · rename_i s
    refine holdsFinite_put h ?_ hstack
    cases s <;> simp [HoldsFinite, Value.leaves]
  · obtain rfl := Option.some.inj h
    exact hstack
  · obtain rfl := Option.some.inj h
    exact hstack
  · cases h

/-- Reading a word makes no number but its own. -/
theorem holdsFinite_step? {r r' : Reading} {l : Lexeme} (h : r.step? l = some r') (hl : l.IsFinite)
    (hr : ∀ u ∈ r.values, HoldsFinite u) : ∀ u ∈ r'.values, HoldsFinite u := by
  unfold Reading.step? at h
  split at h
  · exact holdsFinite_begin? h hl hr
  · exact holdsFinite_put h (holdsFinite_list (by simp)) hr
  · exact holdsFinite_begin? h hl hr
  · exact holdsFinite_put h (by simp [HoldsFinite, Value.leaves, Value.memberLeaves]) hr
  · obtain rfl := Option.some.inj h
    exact hr
  · obtain rfl := Option.some.inj h
    exact hr
  · obtain rfl := Option.some.inj h
    exact hr
  · obtain rfl := Option.some.inj h
    exact hr
  · -- a list is complete
    simp only [Reading.values, Frame.values, List.mem_append] at hr
    have hitems := holdsFinite_list fun u hu => hr u (.inl (List.mem_reverse.1 hu))
    exact holdsFinite_put h hitems fun u hu => hr u (.inr hu)
  · obtain rfl := Option.some.inj h
    exact hr
  · -- an object is complete
    simp only [Reading.values, Frame.values, List.mem_append] at hr
    refine holdsFinite_put h (holdsFinite_objectOf fun u hu => hr u (.inl ?_)) fun u hu => hr u (.inr hu)
    rw [List.map_reverse] at hu
    exact List.mem_reverse.1 hu
  · cases h

theorem holdsFinite_run? {r r' : Reading} {ws : List Lexeme} (h : r.run? ws = some r') (hws : ∀ l ∈ ws, l.IsFinite)
    (hr : ∀ u ∈ r.values, HoldsFinite u) : ∀ u ∈ r'.values, HoldsFinite u := by
  induction ws generalizing r with
  | nil =>
    obtain rfl := Option.some.inj h
    exact hr
  | cons l ws ih =>
    rw [Reading.run?_cons] at h
    obtain ⟨next, hnext, h⟩ := Option.bind_eq_some_iff.1 h
    have hheld := holdsFinite_step? hnext (hws l List.mem_cons_self) hr
    exact ih h (fun l' hl' => hws l' (List.mem_cons_of_mem l hl')) hheld

theorem holdsFinite_of_parse? {s : List Char} {v : Value} (h : parse? s = some v) : HoldsFinite v := by
  obtain ⟨ws, hws, h⟩ := Option.bind_eq_some_iff.1 h
  unfold parseWords? at h
  split at h
  · rename_i u hrun
    obtain rfl := Option.some.inj h
    exact holdsFinite_run? hrun (isFinite_of_lexemes? hws) (by simp [Reading.values]) u (List.mem_singleton_self u)
  · cases h

end Theming.Json
