import Mathlib.Data.List.Basic
import Theming.Proofs.Failure
import Theming.Rule.Compile
import Theming.Template.Expand

/-!
# What a style sheet is made of

The text of a style sheet is put together from the texts of its rules, and the text of a rule from its own block and
the texts of its children, with one line break between any two that are not empty.  A sheet may also be written in one
pass that appends to what has been written so far and decides by it whether a line break is due; the text is the same
(`print_eq`).  Either way the blocks stand in the order of the document, each of them once (`render_composes`).
-/

namespace Theming

open Template (partialEngine)

variable {ε : Type} (engine : Template.Engine ε)

/-! ### Joining texts -/

namespace Css

def joinAll (ts : List Text) : Text := ts.foldr join []

theorem joinAll_nil : joinAll [] = [] := rfl

theorem joinAll_cons (t : Text) (ts : List Text) : joinAll (t :: ts) = join t (joinAll ts) := rfl

theorem joinAll_append (ts us : List Text) : joinAll (ts ++ us) = join (joinAll ts) (joinAll us) := by
  induction ts with
  | nil => rfl
  | cons t ts ih => rw [List.cons_append, joinAll_cons, joinAll_cons, ih, join_assoc]

theorem join_eq_nil_iff {a b : Text} : join a b = [] ↔ a = [] ∧ b = [] := by
  cases a <;> cases b <;> simp [join]

/-- Texts that are not empty are joined by single line breaks, and the empty ones leave no trace. -/
theorem joinAll_eq_intercalate (ts : List Text) : joinAll ts = ['\n'].intercalate (ts.filter (· ≠ [])) := by
  induction ts with
  | nil => rfl
  | cons t ts ih =>
    by_cases ht : t = []
    · subst ht
      simpa [joinAll_cons, join] using ih
    · have hfilter : (t :: ts).filter (· ≠ []) = t :: ts.filter (· ≠ []) := by simp [ht]
      rw [joinAll_cons, hfilter, ih]
      cases hrest : ts.filter (· ≠ []) with
      | nil => simp [join]
      | cons u us =>
        -- what is left of the texts is not empty, so a line break comes in between
        have hu : u ≠ [] := by
          have hmem : u ∈ ts.filter (· ≠ []) := by rw [hrest]; exact List.mem_cons_self
          simpa using (List.mem_filter.1 hmem).2
        have hne : ['\n'].intercalate (u :: us) ≠ [] := by
          cases us <;> simp [hu]
        simp [join, ht, hne]

theorem Item.write_ne_nil (item : Item) : item.write ≠ [] := by
  cases item with
  | block selectors declarations => simp [Item.write, braces]
  | atRule pre declarations items => simp [Item.write, braces]

theorem writeAll_eq_nil_iff {items : List Item} : writeAll items = [] ↔ items = [] := by
  cases items with
  | nil => simp [writeAll]
  | cons item items => simp [writeAll, join_eq_nil_iff, item.write_ne_nil]

theorem writeLines_eq_nil_iff {ls : List Text} : writeLines ls = [] ↔ ls = [] := by
  cases ls <;> simp [writeLines]

end Css

namespace Rule

/-! ### The texts of rules -/

section Texts

variable (scope : Scope) (parents : List (List Char))

/-- The selectors that apply in a rule below `parents`. -/
def resolved (r : Rule) : Except ε (List (List Char)) :=
  return Selector.resolve parents (← (parts r.selectors).mapM (scope.expand engine))

/-- What a rule writes below `parents`. -/
def text (r : Rule) : Except ε Css.Text := Css.writeAll <$> compile engine scope parents r

/-- The block of an ordinary rule. -/
def blockText (selectors declarations : List (List Char)) : Css.Text := Css.writeAll (blocks selectors declarations)

theorem writeAll_compileAll (rs : List Rule) :
    Css.writeAll <$> compileAll engine scope parents rs = Css.joinAll <$> rs.mapM (text engine scope parents) := by
  induction rs with
  | nil => rfl
  | cons r rs ih =>
    simp only [compileAll, List.mapM_cons, text, map_bind, map_pure, Css.writeAll_append, Css.joinAll_cons,
      bind_map_left]
    -- the first rule has succeeded, so its text goes in front of the others on both sides
    refine bind_congr fun items => ?_
    have hih := congrArg (Css.join (Css.writeAll items) <$> ·) ih
    simpa using hih

theorem compile_of_ordinary {selectors : List String} (h : atRule? selectors = none) (body : Body)
    (children : List Rule) :
    compile engine scope parents (mk selectors body children) = do
      let s ← resolved engine scope parents (mk selectors body children)
      let declarations ← body.declarations engine scope
      let items ← compileAll engine scope s children
      return blocks s declarations ++ items := by
  simp [compile, h, resolved, Rule.selectors]

theorem text_of_ordinary {selectors : List String} (h : atRule? selectors = none) (body : Body)
    (children : List Rule) :
    text engine scope parents (mk selectors body children) = do
      let s ← resolved engine scope parents (mk selectors body children)
      let declarations ← body.declarations engine scope
      let texts ← children.mapM (text engine scope s)
      return Css.joinAll (blockText s declarations :: texts) := by
  simp only [text, compile_of_ordinary engine scope parents h, map_bind, map_pure, Css.writeAll_append,
    Css.joinAll_cons]
  refine bind_congr fun s => bind_congr fun declarations => ?_
  have hall := congrArg (Css.join (blockText s declarations) <$> ·) (writeAll_compileAll engine scope s children)
  simpa [blockText] using hall

end Texts

end Rule

/-! ### Writing in one pass -/

/-- Appends a text that is not empty, after a line break if something has been written before it. -/
def Css.put (out t : Css.Text) : Css.Text :=
  if t = [] then out else if out = [] then t else out ++ '\n' :: t

theorem Css.put_eq_join (out t : Css.Text) : Css.put out t = Css.join out t := by
  cases out <;> cases t <;> simp [Css.put, Css.join]

namespace Rule

mutual

/-- Writes a rule after what has been written.  What an at-rule holds is written apart first. -/
def print (scope : Scope) (parents : List (List Char)) (out : Css.Text) : Rule → Except ε Css.Text
  | mk selectors body children =>
    match atRule? selectors with
    | some pre => do
      let pre ← scope.expand engine pre
      let declarations ← body.declarations engine scope
      let own := if parents = [] then Css.writeLines declarations else blockText parents declarations
      let inner ← printAll scope (if isKeyframes pre then [] else parents) own children
      return if inner = [] then out else Css.put out (Css.braces pre (Css.indent inner))
    | none => do
      let own ← (parts selectors).mapM (scope.expand engine)
      let declarations ← body.declarations engine scope
      let s := Selector.resolve parents own
      printAll scope s (Css.put out (blockText s declarations)) children

def printAll (scope : Scope) (parents : List (List Char)) (out : Css.Text) : List Rule → Except ε Css.Text
  | [] => return out
  | r :: rs => do printAll scope parents (← print scope parents out r) rs

end

/-- What an at-rule writes, from what stands in its braces. -/
private theorem writeAll_atRule (parents : List (List Char)) (pre : List Char) (declarations : List (List Char))
    (items : List Css.Item) (out : Css.Text) :
    let own := if parents = [] then Css.writeLines declarations else blockText parents declarations
    let inner := Css.join own (Css.writeAll items)
    let held := if parents = [] then (declarations, items) else ([], blocks parents declarations ++ items)
    (if inner = [] then out else Css.put out (Css.braces pre (Css.indent inner))) =
      Css.join out (Css.writeAll
        (if held.1 = [] ∧ held.2.isEmpty then [] else [.atRule pre held.1 held.2])) := by
  intro own inner held
  have hinner : inner = Css.join (Css.writeLines held.1) (Css.writeAll held.2) := by
    by_cases hp : parents = []
    · simp [inner, own, held, hp]
    · simp [inner, own, held, hp, Css.writeLines, Css.join, blockText, Css.writeAll_append]
  have hempty : inner = [] ↔ held.1 = [] ∧ held.2.isEmpty := by
    rw [hinner, Css.join_eq_nil_iff, Css.writeLines_eq_nil_iff, Css.writeAll_eq_nil_iff, List.isEmpty_iff]
  by_cases h : inner = []
  · rw [if_pos h, if_pos (hempty.1 h), Css.writeAll, Css.join_nil_right]
  · rw [if_neg h, if_neg (mt hempty.2 h), Css.put_eq_join, hinner]
    simp [Css.writeAll, Css.Item.write, Css.join_nil_right]

mutual

theorem print_eq (scope : Scope) : (parents : List (List Char)) → (out : Css.Text) → (r : Rule) →
    print engine scope parents out r = Css.join out <$> text engine scope parents r
  | parents, out, mk selectors body children => by
    cases hat : atRule? selectors with
    | some pre =>
      simp only [print, text, compile, hat, printAll_eq, map_bind, bind_map_left, writeAll_atRule]
      simp
    | none =>
      simp only [print, text, compile, hat, printAll_eq, map_bind, Css.put_eq_join]
      simp [Css.join_assoc, Css.writeAll_append, blockText]

/-- What has been written only decides whether a line break comes before what is appended. -/
theorem printAll_eq (scope : Scope) : (parents : List (List Char)) → (out : Css.Text) → (rs : List Rule) →
    printAll engine scope parents out rs =
      (fun items => Css.join out (Css.writeAll items)) <$> compileAll engine scope parents rs
  | parents, out, [] => by simp [printAll, compileAll, Css.writeAll, Css.join_nil_right]
  | parents, out, r :: rs => by
    simp only [printAll, compileAll, print_eq scope parents out r, text, map_bind, bind_map_left]
    simp [printAll_eq scope parents _ rs, Css.writeAll_append, Css.join_assoc]

end

/-! ### The order of the document -/

mutual

/-- The rules that are reached through ordinary ones, each with the rules above it, outermost first, in the order of the
document.  What an at-rule holds is part of the at-rule. -/
def places : Rule → List (List Rule × Rule)
  | mk selectors body children =>
    ([], mk selectors body children) ::
      if (atRule? selectors).isSome then []
      else (placesAll children).map fun p => (mk selectors body children :: p.1, p.2)

def placesAll : List Rule → List (List Rule × Rule)
  | [] => []
  | r :: rs => places r ++ placesAll rs

end

section Order

variable (scope : Scope) (parents : List (List Char))

/-- What a rule writes by itself: an ordinary one its block, an at-rule all that is in it. -/
def ownText (r : Rule) : Except ε Css.Text :=
  if (atRule? r.selectors).isSome then text engine scope parents r
  else return blockText (← resolved engine scope parents r) (← r.body.declarations engine scope)

/-- What a rule writes by itself below the rules above it. -/
def textAt (p : List Rule × Rule) : Except ε Css.Text := do
  ownText engine scope (← p.1.foldlM (resolved engine scope) parents) p.2

variable {engine scope parents}

/-- The places below a rule, seen from it. -/
private theorem mapM_textAt_below {r : Rule} {s : List (List Char)} (hs : resolved engine scope parents r = .ok s)
    (ps : List (List Rule × Rule)) :
    (ps.map fun p => (r :: p.1, p.2)).mapM (textAt engine scope parents) = ps.mapM (textAt engine scope s) := by
  have hstep : ∀ p : List Rule × Rule, textAt engine scope parents (r :: p.1, p.2) = textAt engine scope s p := by
    intro p
    simp [textAt, List.foldlM_cons, hs]
  rw [List.mapM_map]
  exact congrArg (ps.mapM ·) (funext hstep)

end Order

mutual

theorem text_eq_places (scope : Scope) : (parents : List (List Char)) → (r : Rule) →
    text engine scope parents r = Css.joinAll <$> (places r).mapM (textAt engine scope parents)
  | parents, mk selectors body children => by
    cases hat : atRule? selectors with
    | some pre =>
      simp [places, hat, textAt, ownText, Rule.selectors, Css.joinAll_cons, Css.joinAll_nil, Css.join_nil_right]
    | none =>
      -- both sides fail at the same step, or the rule has a block and its children follow
      rw [text_of_ordinary engine scope parents hat]
      cases hs : resolved engine scope parents (mk selectors body children) with
      | error e => simp [places, textAt, ownText, Rule.selectors, hat, hs]
      | ok s =>
        cases hd : body.declarations engine scope with
        | error e => simp [places, textAt, ownText, Rule.selectors, Rule.body, hat, hs, hd]
        | ok declarations =>
          have hown :
              textAt engine scope parents ([], mk selectors body children) = .ok (blockText s declarations) := by
            simp [textAt, ownText, Rule.selectors, Rule.body, hat, hs, hd]
          have hall := congrArg (Css.join (blockText s declarations) <$> ·) (texts_eq_places scope s children)
          simp only [places, hat, Option.isSome_none, Bool.false_eq_true, if_false, List.mapM_cons, hown,
            mapM_textAt_below hs]
          simpa [Css.joinAll_cons] using hall

theorem texts_eq_places (scope : Scope) : (parents : List (List Char)) → (rs : List Rule) →
    Css.joinAll <$> rs.mapM (text engine scope parents) =
      Css.joinAll <$> (placesAll rs).mapM (textAt engine scope parents)
  | parents, [] => rfl
  | parents, r :: rs => by
    have hr := text_eq_places scope parents r
    have hrs := texts_eq_places scope parents rs
    simp only [List.mapM_cons, placesAll, List.mapM_append, hr]
    cases (places r).mapM (textAt engine scope parents) with
    | error e => simp
    | ok ts =>
      have hall := congrArg (Css.join (Css.joinAll ts) <$> ·) hrs
      simpa [Css.joinAll_cons, Css.joinAll_append] using hall

end

/-! ### Style sheets -/

/-- Two style sheets as one, with a line break between them if neither is empty. -/
def joinSheets (s t : String) : String := if s = "" then t else if t = "" then s else s ++ "\n" ++ t

theorem joinSheets_ofList (s t : Css.Text) :
    joinSheets (String.ofList s) (String.ofList t) = String.ofList (Css.join s t) := by
  have hnil : ∀ u : Css.Text, String.ofList u = "" ↔ u = [] := by
    intro u
    rw [← String.toList_inj, String.toList_ofList]
    rfl
  unfold joinSheets Css.join
  simp only [hnil]
  split
  · rfl
  · split
    · rfl
    · apply String.toList_inj.1
      simp

theorem render_eq (scope : Scope) (roots : List Rule) :
    render engine scope roots =
      (fun items => String.ofList (Css.writeAll items)) <$> compileAll engine scope [] roots := rfl

theorem render_append (scope : Scope) (a b : List Rule) :
    render engine scope (a ++ b) = do
      let s ← render engine scope a
      let t ← render engine scope b
      return joinSheets s t := by
  simp [render_eq, compileAll_append, joinSheets_ofList, Css.writeAll_append]

/-- Style sheets follow the rules that they are made from.  The sheet of two lists of rules is that of the first and
then that of the second, and the first to fail fails the whole.  An ordinary rule appends its block and then what its
children write, one after the other, to whatever has been written.  So a sheet has the block of every rule once, in the
order of the document, with a line break before a block if there is something before it. -/
theorem render_composes (scope : Scope) :
    (∀ a b, render engine scope (a ++ b) = do
      let s ← render engine scope a
      let t ← render engine scope b
      return if s = "" then t else if t = "" then s else s ++ "\n" ++ t) ∧
    (∀ roots, render engine scope roots = String.ofList <$> printAll engine scope [] [] roots) ∧
    (∀ parents r out, print engine scope parents out r = Css.put out <$> text engine scope parents r) ∧
    (∀ parents selectors body children, atRule? selectors = none →
      text engine scope parents (mk selectors body children) = do
        let own ← (parts selectors).mapM (scope.expand engine)
        let s := Selector.resolve parents own
        let declarations ← body.declarations engine scope
        let texts ← children.mapM (text engine scope s)
        let block := if declarations = [] ∨ s = [] then [] else (Css.Item.block s declarations).write
        return ['\n'].intercalate ((block :: texts).filter (· ≠ []))) ∧
    ∀ roots, render engine scope roots = do
      let texts ← (placesAll roots).mapM (textAt engine scope [])
      return String.ofList (['\n'].intercalate (texts.filter (· ≠ []))) := by
  refine ⟨render_append engine scope, ?_, ?_, ?_, ?_⟩
  · intro roots
    simp [render_eq, printAll_eq, Css.join]
  · intro parents r out
    rw [print_eq]
    exact congrArg (· <$> _) (funext fun t => (Css.put_eq_join out t).symm)
  · intro parents selectors body children h
    rw [text_of_ordinary engine scope parents h]
    have hblock : ∀ s declarations, blockText s declarations =
        if declarations = [] ∨ s = [] then [] else (Css.Item.block s declarations).write := by
      intro s declarations
      unfold blockText blocks
      split <;> simp [Css.writeAll, Css.join_nil_right]
    simp [resolved, Rule.selectors, Css.joinAll_eq_intercalate, hblock]
  · intro roots
    have hwrite := writeAll_compileAll engine scope [] roots
    rw [texts_eq_places] at hwrite
    have hsheet := congrArg (String.ofList <$> ·) hwrite
    simp only [funext Css.joinAll_eq_intercalate] at hsheet
    simpa [render_eq] using hsheet

/-- A rule with a child that writes nothing, between two that do. -/
theorem render_composes_link :
    atRule? ["a"] = none ∧
      text partialEngine {} [] (mk ["a"] (.raw "x: 1;")
        [mk ["b"] .empty [], mk ["c"] (.raw "") [mk ["&, d"] (.raw "y: 2;") []], mk ["&:hover"] (.raw "z: 3;") []]) =
      .ok "a \x7b\n  x: 1;\n\x7d\n\na c,\na c d \x7b\n  y: 2;\n\x7d\n\na:hover \x7b\n  z: 3;\n\x7d\n".toList := by
  refine ⟨rfl, ?_⟩
  rw [(render_composes partialEngine {}).2.2.2.1 _ _ _ _ rfl]
  decide +kernel

end Rule

end Theming
