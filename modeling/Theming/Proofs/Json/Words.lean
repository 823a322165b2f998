import Theming.Json.Lexeme
import Theming.Json.Writer
import Theming.Proofs.Decimal
import Theming.Proofs.Value

/-!
# The words of written values

A written value is cut into the words that it was put together from (`lexemes?_write`).  What follows it must not go on
with its last word, which is so for everything that is written behind a value.
-/

namespace Theming.Json

/-! ### One character at a time -/

theorem lexemes?_cons (m : Mode) (c : Char) (rest : List Char) :
    lexemes? m (c :: rest) = (m.step? c).bind fun p => (lexemes? p.2 rest).map (p.1 ++ ·) := by
  have hdo : lexemes? m (c :: rest) = do
      let p ← m.step? c
      return p.1 ++ (← lexemes? p.2 rest) := by
    cases m <;> rfl
  rw [hdo]
  cases m.step? c with
  | none => rfl
  | some p => exact (Option.map_eq_bind ..).symm

theorem lexemes?_step {m m' : Mode} {c : Char} {ws : List Lexeme} (h : m.step? c = some (ws, m')) (rest : List Char) :
    lexemes? m (c :: rest) = (lexemes? m' rest).map (ws ++ ·) := by
  rw [lexemes?_cons, h]
  rfl

/-- A character that makes no word by itself. -/
theorem lexemes?_silent {m m' : Mode} {c : Char} (h : m.step? c = some ([], m')) (rest : List Char) :
    lexemes? m (c :: rest) = lexemes? m' rest := by
  simp [lexemes?_step h]

/-! ### Runs -/

/-- The text does not go on with a run. -/
def Delimited (rest : List Char) : Prop := ∀ c ∈ rest.head?, isRun c = false

theorem start?_of_isRun {c : Char} (h : isRun c = true) : start? c = some ([], .run [c]) := by
  have hspace : isSpace c = false := by
    by_contra hspace
    rw [Bool.not_eq_false, isSpace] at hspace
    simp only [Bool.or_eq_true, beq_iff_eq] at hspace
    rcases hspace with ((rfl | rfl) | rfl) | rfl <;> exact absurd h (by decide)
  unfold start?
  split
  all_goals first | exact absurd h (by decide) | simp [hspace, h]

theorem lexemes?_run {cs : List Char} (h : ∀ c ∈ cs, isRun c = true) (read rest : List Char) :
    lexemes? (.run read) (cs ++ rest) = lexemes? (.run (cs.reverse ++ read)) rest := by
  induction cs generalizing read with
  | nil => rfl
  | cons c cs ih =>
    have hstep : (Mode.run read).step? c = some ([], .run (c :: read)) := by
      simp [Mode.step?, h c List.mem_cons_self]
    rw [List.cons_append, lexemes?_silent hstep, ih fun d hd => h d (List.mem_cons_of_mem c hd)]
    simp

theorem lexemes?_endRun {read rest : List Char} (hrest : Delimited rest) {word : Lexeme}
    (h : runLexeme? read.reverse = some word) :
    lexemes? (.run read) rest = (lexemes? .between rest).map (word :: ·) := by
  cases rest with
  | nil => simp [lexemes?, h]
  | cons c rest =>
    have hc : isRun c = false := hrest c rfl
    have hstep : (Mode.run read).step? c = (start? c).map fun p => (word :: p.1, p.2) := by
      simp only [Mode.step?, hc, h]
      cases start? c <;> rfl
    have hbetween : Mode.between.step? c = start? c := rfl
    -- the character that ends the run also starts what comes next, in the same step
    rw [lexemes?_cons, lexemes?_cons, hstep, hbetween]
    cases start? c with
    | none => rfl
    | some p => simp [Function.comp_def]

/-- A whole run makes one word. -/
theorem lexemes?_word {cs rest : List Char} (hrun : ∀ c ∈ cs, isRun c = true) (hrest : Delimited rest) {word : Lexeme}
    (h : runLexeme? cs = some word) :
    lexemes? .between (cs ++ rest) = (lexemes? .between rest).map (word :: ·) := by
  cases cs with
  | nil =>
    have hnone : runLexeme? [] = none := rfl
    rw [hnone] at h
    cases h
  | cons c cs =>
    have hstep : Mode.between.step? c = some ([], .run [c]) := start?_of_isRun (hrun c List.mem_cons_self)
    rw [List.cons_append, lexemes?_silent hstep, lexemes?_run fun d hd => hrun d (List.mem_cons_of_mem c hd)]
    exact lexemes?_endRun hrest (by simpa using h)

/-! ### Numbers -/

theorem isRun_digit {n : Nat} {c : Char} (h : c ∈ Decimal.digitsText n) : isRun c = true := by
  simp [isRun, Char.isAlphanum, Decimal.isDigit_of_mem_digitsText h]

theorem isRun_plainText (t : Decimal.Tens) (point : Bool) : ∀ c ∈ t.plainText point, isRun c = true := by
  intro c hc
  rcases Decimal.mem_plainText hc with hdigit | rfl
  · simp [isRun, Char.isAlphanum, hdigit]
  · decide

theorem isRun_exponentText (t : Decimal.Tens) : ∀ c ∈ t.exponentText, isRun c = true := by
  intro c hc
  simp only [Decimal.Tens.exponentText, List.mem_append, List.mem_cons] at hc
  rcases hc with (hc | hc) | rfl | rfl | hc
  · exact isRun_digit (List.mem_of_mem_take hc)
  · split at hc
    · cases hc
    · rcases List.mem_cons.1 hc with rfl | hc
      · decide
      · exact isRun_digit (List.mem_of_mem_drop hc)
  · decide
  · split <;> decide
  · exact isRun_digit hc

theorem isRun_numberText (x : Float) : ∀ c ∈ numberText x, isRun c = true := by
  intro c hc
  unfold numberText at hc
  split at hc
  · rcases List.mem_append.1 hc with hc | hc
    · split at hc
      · rw [List.mem_singleton.1 hc]
        decide
      · cases hc
    · split at hc
      · exact isRun_plainText _ _ c hc
      · exact isRun_exponentText _ c hc
  · exact List.all_eq_true.1 (by decide : "null".toList.all isRun = true) c hc

theorem isFinite_of_number? {s : List Char} {x : Float} (h : number? s = some (some x)) : x.isFinite = true := by
  obtain ⟨y, -, hy⟩ := Option.map_eq_some_iff.1 h
  exact (Option.filter_eq_some_iff.1 hy).2

/-- The word of a number that is read back. -/
theorem runLexeme?_numberText {x : Float} (h : number? (numberText x) = some (some x)) :
    runLexeme? (numberText x) = some (.number (some x)) := by
  have hword : ∀ s : String, number? s.toList = none → numberText x ≠ s.toList := by
    intro s hs heq
    rw [heq, hs] at h
    cases h
  rw [runLexeme?, if_neg (hword "null" (by decide)), if_neg (hword "true" (by decide)),
    if_neg (hword "false" (by decide)), h]
  rfl

/-! ### Quoted texts -/

theorem digit?_digitChar {n : Nat} (h : n < 16) : Text.digit? (Nat.digitChar n) = some n :=
  (by decide : ∀ n < 16, Text.digit? (Nat.digitChar n) = some n) n h

theorem lexemes?_backslash (codes : List Nat) (rest : List Char) :
    lexemes? (.quoted codes) ('\\' :: rest) = lexemes? (.escape codes) rest :=
  lexemes?_silent rfl rest

theorem lexemes?_unescape (codes : List Nat) {d c : Char} (hd : d ≠ 'u') (h : unescape? d = some c)
    (rest : List Char) : lexemes? (.quoted codes) ('\\' :: d :: rest) = lexemes? (.quoted (c.toNat :: codes)) rest := by
  rw [lexemes?_backslash]
  exact lexemes?_silent (by simp [Mode.step?, hd, h]) rest

theorem lexemes?_digit (codes : List Nat) (code left : Nat) {n : Nat} (hn : n < 16) (rest : List Char) :
    lexemes? (.code codes code (left + 1)) (Nat.digitChar n :: rest) =
      lexemes? (.code codes (16 * code + n) left) rest :=
  lexemes?_silent (by simp [Mode.step?, digit?_digitChar hn]) rest

theorem lexemes?_lastDigit (codes : List Nat) (code : Nat) {n : Nat} (hn : n < 16) (rest : List Char) :
    lexemes? (.code codes code 0) (Nat.digitChar n :: rest) = lexemes? (.quoted ((16 * code + n) :: codes)) rest :=
  lexemes?_silent (by simp [Mode.step?, digit?_digitChar hn]) rest

theorem lexemes?_hexText (codes : List Nat) {n : Nat} (hn : n < 0x20) (rest : List Char) :
    lexemes? (.quoted codes) ('\\' :: 'u' :: (hexText n ++ rest)) = lexemes? (.quoted (n :: codes)) rest := by
  -- a control character needs only the last two of its four digits
  have hcode : 16 * (n / 16) + n % 16 = n := Nat.div_add_mod n 16
  have hescape : ∀ rest, lexemes? (.escape codes) ('u' :: rest) = lexemes? (.code codes 0 3) rest := lexemes?_silent rfl
  have hzeros : hexText n = [Nat.digitChar 0, Nat.digitChar 0, Nat.digitChar (n / 16), Nat.digitChar (n % 16)] := rfl
  rw [lexemes?_backslash, hescape, hzeros]
  simp only [List.cons_append, List.nil_append]
  rw [lexemes?_digit _ _ _ (by decide), lexemes?_digit _ _ _ (by decide), lexemes?_digit _ _ _ (by omega),
    lexemes?_lastDigit _ _ (by omega)]
  simp only [Nat.mul_zero, Nat.zero_add, hcode]

/-- A character is read back, whether or not it is escaped. -/
theorem lexemes?_escape (codes : List Nat) (c : Char) (rest : List Char) :
    lexemes? (.quoted codes) (escape c ++ rest) = lexemes? (.quoted (c.toNat :: codes)) rest := by
  unfold escape
  split_ifs with hq hb h1 h2 h3 h4 h5 hcontrol
  · subst hq
    exact lexemes?_unescape codes (by decide) rfl rest
  · subst hb
    exact lexemes?_unescape codes (by decide) rfl rest
  · subst h1
    exact lexemes?_unescape codes (by decide) rfl rest
  · subst h2
    exact lexemes?_unescape codes (by decide) rfl rest
  · subst h3
    exact lexemes?_unescape codes (by decide) rfl rest
  · subst h4
    exact lexemes?_unescape codes (by decide) rfl rest
  · subst h5
    exact lexemes?_unescape codes (by decide) rfl rest
  · exact lexemes?_hexText codes hcontrol rest
  · exact lexemes?_silent (by simp [Mode.step?, hq, hb, hcontrol]) rest

theorem lexemes?_escapes (codes : List Nat) (s rest : List Char) :
    lexemes? (.quoted codes) (s.flatMap escape ++ rest) =
      lexemes? (.quoted ((s.map Char.toNat).reverse ++ codes)) rest := by
  induction s generalizing codes with
  | nil => rfl
  | cons c s ih =>
    rw [List.flatMap_cons, List.append_assoc, lexemes?_escape, ih]
    simp

/-- The code of a character is no half. -/
theorem not_isHalf_toNat (c : Char) : Text.isHighHalf c.toNat = false ∧ Text.isLowHalf c.toNat = false := by
  have hvalid : c.toNat < 0xD800 ∨ 0xDFFF < c.toNat ∧ c.toNat < 0x110000 := c.valid
  simp only [Text.isHighHalf, Text.isLowHalf, Bool.and_eq_false_iff, decide_eq_false_iff_not]
  omega

theorem characters?_toNat (s : List Char) : Text.characters? (s.map Char.toNat) = some s := by
  induction s with
  | nil => rfl
  | cons c s ih =>
    obtain ⟨hhigh, hlow⟩ := not_isHalf_toNat c
    -- the first two codes are looked at together, as they might be halves
    cases s with
    | nil => simp [Text.characters?, hhigh, hlow, Char.ofNat_toNat]
    | cons d s =>
      rw [List.map_cons] at ih
      simp [Text.characters?, hhigh, hlow, ih, Char.ofNat_toNat]

theorem lexemes?_quote (s : String) (rest : List Char) :
    lexemes? .between (quote s ++ rest) = (lexemes? .between rest).map (.text (some s) :: ·) := by
  have hopen : ∀ rest, lexemes? .between ('"' :: rest) = lexemes? (.quoted []) rest := lexemes?_silent rfl
  have hclose : (Mode.quoted (s.toList.map Char.toNat).reverse).step? '"' = some ([.text (some s)], .between) := by
    simp [Mode.step?, characters?_toNat]
  rw [quote, List.cons_append, List.cons_append, hopen, List.append_assoc, lexemes?_escapes, List.append_nil,
    List.singleton_append, lexemes?_step hclose]
  rfl

/-! ### Values -/

mutual

/-- The words that a value is written with. -/
def words : Value → List Lexeme
  | .null | .unreadable => [.null]
  | .flag b => [.flag b]
  | .number x => [.number (some x)]
  | .text s => [.text (some s)]
  | .list items => .openList :: itemWords items ++ [.closeList]
  | .object members => .openObject :: memberWords members ++ [.closeObject]

def itemWords : List Value → List Lexeme
  | [] => []
  | [v] => words v
  | v :: vs => words v ++ .comma :: itemWords vs

def memberWords : List (String × Value) → List Lexeme
  | [] => []
  | [(name, v)] => .text (some name) :: .colon :: words v
  | (name, v) :: ms => .text (some name) :: .colon :: words v ++ .comma :: memberWords ms

end

/-- What is a leaf is read as it has been written. -/
def IsReadBack : Value → Prop
  | .number x => number? (numberText x) = some (some x)
  | .unreadable => False
  | _ => True

theorem delimited_nil : Delimited [] := by simp [Delimited]

theorem delimited_cons {c : Char} (h : isRun c = false) (rest : List Char) : Delimited (c :: rest) := by
  simpa [Delimited] using h

/-- A sign that is a word. -/
theorem lexemes?_sign {c : Char} {word : Lexeme} (h : start? c = some ([word], .between)) (rest : List Char) :
    lexemes? .between (c :: rest) = (lexemes? .between rest).map (word :: ·) := by
  have hstep : Mode.between.step? c = some ([word], .between) := h
  exact lexemes?_step hstep rest

mutual

theorem lexemes?_write : (v : Value) → (∀ l ∈ v.leaves, IsReadBack l) → (rest : List Char) → Delimited rest →
    lexemes? .between (write v ++ rest) = (lexemes? .between rest).map (words v ++ ·)
  | .null, _, rest, hrest => lexemes?_word (List.all_eq_true.1 (by decide)) hrest rfl
  | .flag true, _, rest, hrest => lexemes?_word (List.all_eq_true.1 (by decide)) hrest rfl
  | .flag false, _, rest, hrest => lexemes?_word (List.all_eq_true.1 (by decide)) hrest rfl
  | .number x, h, rest, hrest =>
    lexemes?_word (isRun_numberText x) hrest (runLexeme?_numberText (h _ (List.mem_singleton_self _)))
  | .text s, _, rest, _ => lexemes?_quote s rest
  | .unreadable, h, _, _ => (h _ (List.mem_singleton_self _)).elim
  | .list items, h, rest, _ => by
    have hwrite : write (.list items) ++ rest = '[' :: (writeItems items ++ ']' :: rest) := by simp [write]
    rw [hwrite, lexemes?_sign (rfl : start? '[' = some ([.openList], .between)),
      lexemes?_writeItems items h _ (delimited_cons (by decide) rest),
      lexemes?_sign (rfl : start? ']' = some ([.closeList], .between))]
    simp [words, Function.comp_def]
  | .object members, h, rest, _ => by
    have hwrite : write (.object members) ++ rest = '\x7b' :: (writeMembers members ++ '\x7d' :: rest) := by
      simp [write]
    rw [hwrite, lexemes?_sign (rfl : start? '\x7b' = some ([.openObject], .between)),
      lexemes?_writeMembers members h _ (delimited_cons (by decide) rest),
      lexemes?_sign (rfl : start? '\x7d' = some ([.closeObject], .between))]
    simp [words, Function.comp_def]

theorem lexemes?_writeItems : (vs : List Value) → (∀ l ∈ Value.leavesAll vs, IsReadBack l) → (rest : List Char) →
    Delimited rest → lexemes? .between (writeItems vs ++ rest) = (lexemes? .between rest).map (itemWords vs ++ ·)
  | [], _, rest, _ => by simp [writeItems, itemWords]
  | [v], h, rest, hrest => lexemes?_write v (fun l hl => h l (List.mem_append_left _ hl)) rest hrest
  | v :: w :: vs, h, rest, hrest => by
    have hwrite : writeItems (v :: w :: vs) ++ rest = write v ++ ',' :: (writeItems (w :: vs) ++ rest) := by
      simp [writeItems]
    rw [hwrite, lexemes?_write v (fun l hl => h l (List.mem_append_left _ hl)) _ (delimited_cons (by decide) _),
      lexemes?_sign (rfl : start? ',' = some ([.comma], .between)),
      lexemes?_writeItems (w :: vs) (fun l hl => h l (List.mem_append_right _ hl)) rest hrest]
    simp [itemWords, Function.comp_def]

theorem lexemes?_writeMembers : (ms : List (String × Value)) → (∀ l ∈ Value.memberLeaves ms, IsReadBack l) →
    (rest : List Char) → Delimited rest →
    lexemes? .between (writeMembers ms ++ rest) = (lexemes? .between rest).map (memberWords ms ++ ·)
  | [], _, rest, _ => by simp [writeMembers, memberWords]
  | [(name, v)], h, rest, hrest => by
    have hwrite : writeMembers [(name, v)] ++ rest = quote name ++ ':' :: (write v ++ rest) := by simp [writeMembers]
    rw [hwrite, lexemes?_quote, lexemes?_sign (rfl : start? ':' = some ([.colon], .between)),
      lexemes?_write v (fun l hl => h l (List.mem_append_left _ hl)) rest hrest]
    simp [memberWords, Function.comp_def]
  | (name, v) :: m :: ms, h, rest, hrest => by
    have hwrite : writeMembers ((name, v) :: m :: ms) ++ rest =
        quote name ++ ':' :: (write v ++ ',' :: (writeMembers (m :: ms) ++ rest)) := by
      simp [writeMembers]
    rw [hwrite, lexemes?_quote, lexemes?_sign (rfl : start? ':' = some ([.colon], .between)),
      lexemes?_write v (fun l hl => h l (List.mem_append_left _ hl)) _ (delimited_cons (by decide) _),
      lexemes?_sign (rfl : start? ',' = some ([.comma], .between)),
      lexemes?_writeMembers (m :: ms) (fun l hl => h l (List.mem_append_right _ hl)) rest hrest]
    simp [memberWords, Function.comp_def]

end

end Theming.Json
