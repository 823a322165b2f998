import Theming.Proofs.Resolution.Precedence

/-!
# Overrides along a chain of embedded components

A component resolves the theme of a component that it embeds with what it has gathered for this peer, and this one may
embed another.  At the end of such a chain, overrides count from the outside in: those of the outermost instance for
the whole path come first, then for each component of the chain those that the provider has for it, at what remains of
the path (`resolveAlong_precedence`).
-/

namespace Theming

/-! ### Chains -/

/-- A component as embedded in another one. -/
structure Embedded where
  /-- The name under which the outer component has it as a peer. -/
  peer : String
  id : String
  default : Definition

/-- The path of peer names through a chain. -/
def peerPath (chain : List Embedded) : List String := chain.map Embedded.peer

/-- Resolves a component and then the components embedded along a chain, each with the instance that the one around it
makes for its peer.  The result is that of the last one. -/
def resolveAlong (provider : Option Provider) (id : String) (default : Definition) (inst : Instance) :
    List Embedded → Except ThemeError MergedTheme
  | [] => resolve id default inst provider
  | e :: chain => do
    let m ← resolve id default inst provider
    resolveAlong provider e.id e.default (m.peerInstance e.peer) chain

/-- What the provider says about the last component of a chain, from the outermost component inwards: the overrides of
each component at what remains of the path, those of the last one as they are. -/
def patchesAlong (provider : Option Provider) (id : String) : List Embedded → List (Option Override)
  | [] => [patchOf provider id]
  | e :: chain => (patchOf provider id).bind (·.at? (peerPath (e :: chain))) :: patchesAlong provider e.id chain

section Chain

variable {provider : Option Provider} {id : String} {default : Definition} {inst : Instance} {m : MergedTheme}

theorem resolveAlong_cons_eq_ok {e : Embedded} {chain : List Embedded} :
    resolveAlong provider id default inst (e :: chain) = .ok m ↔
      ∃ outer, resolve id default inst provider = .ok outer ∧
        resolveAlong provider e.id e.default (outer.peerInstance e.peer) chain = .ok m := by
  rw [resolveAlong]
  cases resolve id default inst provider with
  | error e => simp [bind, Except.bind]
  | ok outer => simp [bind, Except.bind]

/-- The last step of a chain. -/
theorem resolveAlong_concat_eq_ok {chain : List Embedded} {last : Embedded} :
    resolveAlong provider id default inst (chain ++ [last]) = .ok m ↔
      ∃ parent, resolveAlong provider id default inst chain = .ok parent ∧
        resolve last.id last.default (parent.peerInstance last.peer) provider = .ok m := by
  induction chain generalizing id default inst with
  | nil => exact resolveAlong_cons_eq_ok
  | cons e chain ih =>
    rw [List.cons_append, resolveAlong_cons_eq_ok]
    constructor
    · rintro ⟨outer, houter, h⟩
      obtain ⟨parent, hparent, hlast⟩ := ih.1 h
      exact ⟨parent, resolveAlong_cons_eq_ok.2 ⟨outer, houter, hparent⟩, hlast⟩
    · rintro ⟨parent, hparent, hlast⟩
      obtain ⟨outer, houter, h⟩ := resolveAlong_cons_eq_ok.1 hparent
      exact ⟨outer, houter, ih.2 ⟨parent, h, hlast⟩⟩

/-! ### What reaches a peer -/

/-- The overrides that count at the end of a chain, the strongest first. -/
def overridesAlong (provider : Option Provider) (id : String) (inst : Instance) (chain : List Embedded) :
    List (Option Override) :=
  inst.overrides.bind (·.at? (peerPath chain)) :: patchesAlong provider id chain

variable {β : Type} {read : Override → Option β}

private theorem bind_at?_nil (o : Option Override) : o.bind (·.at? []) = o :=
  Option.bind_fun_some o

/-- What one step hands on to a peer: the instance comes before the provider. -/
theorem read_peerInstance (hread : ReadsTop Override.merge read) (h : resolve id default inst provider = .ok m)
    (name : String) (path : List String) :
    ((m.peerInstance name).overrides.bind (·.at? path)).bind read =
      ((inst.overrides.bind (·.at? (name :: path))).bind read).or
        (((patchOf provider id).bind (·.at? (name :: path))).bind read) := by
  obtain ⟨base, g, -, -, rfl⟩ := (resolve_eq_ok_iff ..).1 h
  have hpeers := bind_peerOverrides_compose id default inst provider hread base g name path
  exact hpeers.trans (by simp)

/-- What counts for the last component of a chain: on its own and seen from where the chain starts. -/
theorem read_overridesAlong (hread : ReadsTop Override.merge read) {chain : List Embedded} {parent : MergedTheme}
    (h : resolveAlong provider id default inst chain = .ok parent) (last : Embedded) :
    ((parent.peerInstance last.peer).overrides.bind read).or ((patchOf provider last.id).bind read) =
      firstPresent ((overridesAlong provider id inst (chain ++ [last])).map (·.bind read)) := by
  induction chain generalizing id default inst with
  | nil =>
    have step := read_peerInstance hread h last.peer []
    rw [bind_at?_nil] at step
    rw [step, Option.or_assoc]
    simp [overridesAlong, patchesAlong, peerPath]
  | cons e chain ih =>
    obtain ⟨outer, houter, hchain⟩ := resolveAlong_cons_eq_ok.1 h
    -- the rest of the chain reads what the outermost component hands on, which falls into two of its layers
    have step := read_peerInstance hread houter e.peer (peerPath (chain ++ [last]))
    rw [ih hchain]
    simp only [overridesAlong, List.map_cons, firstPresent_cons, step, List.cons_append, patchesAlong]
    rw [Option.or_assoc]
    rfl

/-- Built-in overrides change no more than the own tokens of the component that has them. -/
theorem resolveAlong_builtin (builtin : Option Override) (e : Embedded) (chain : List Embedded) :
    resolveAlong provider id default { inst with builtin } (e :: chain) =
      resolveAlong provider id default inst (e :: chain) := by
  rw [resolveAlong, resolveAlong, resolve_eq, resolve_eq]
  have hb : baseOf id default { inst with builtin } provider = baseOf id default inst provider := rfl
  have hg : generatorOf id default { inst with builtin } provider = generatorOf id default inst provider := rfl
  rw [hb, hg]
  cases baseOf id default inst provider with
  | none => rfl
  | some base =>
    cases generatorOf id default inst provider with
    | none => rfl
    | some g => rfl

/-- At the end of a chain, own and common tokens come from the overrides along the chain before anything that the last
step adds, and the built-in overrides of the outermost component play no part. -/
theorem resolveAlong_precedence {chain : List Embedded} {last : Embedded}
    (h : resolveAlong provider id default inst (chain ++ [last]) = .ok m) :
    ∃ parent base g,
      resolveAlong provider id default inst chain = .ok parent ∧
      baseOf last.id last.default (parent.peerInstance last.peer) provider = some base ∧
      generatorOf last.id last.default (parent.peerInstance last.peer) provider = some g ∧
      (∀ name, m.tokens.get? name =
        firstPresent ((overridesAlong provider id inst (chain ++ [last])).map (·.bind (Override.token? name)) ++
          [(g m.common).get? name])) ∧
      (∀ name, m.common.get? name =
        firstPresent ((overridesAlong provider id inst (chain ++ [last])).map (·.bind (Override.common? name)) ++
          [(provider.bind fun p => p.overrides.common).bind (Entries.get? name), base.get? name,
            last.default.common.bind (Entries.get? name)])) ∧
      ∀ builtin, resolveAlong provider id default { inst with builtin } (chain ++ [last]) = .ok m := by
  obtain ⟨parent, hparent, hlast⟩ := resolveAlong_concat_eq_ok.1 h
  obtain ⟨base, g, hb, hg, rfl⟩ := (resolve_eq_ok_iff ..).1 hlast
  refine ⟨parent, base, g, hparent, hb, hg, fun name => ?_, fun name => ?_, fun builtin => ?_⟩
  · have along := read_overridesAlong (Override.readsTop_token? name) hparent last
    rw [get?_tokens_compose, firstPresent_append, ← along]
    simp only [ownLayers, lookup_cons, Override.bind_tokens]
    simp [Option.or_assoc, MergedTheme.peerInstance]
  · have along := read_overridesAlong (Override.readsTop_common? name) hparent last
    rw [get?_common_compose, firstPresent_append, ← along]
    simp only [commonLayers, lookup_cons, Override.bind_common]
    simp [Option.or_assoc]
  · obtain ⟨e, rest, he⟩ : ∃ e rest, chain ++ [last] = e :: rest := List.exists_cons_of_ne_nil (by simp)
    rw [he] at h ⊢
    rw [resolveAlong_builtin, h]

end Chain

/-- An icon in a button in a card: what is said about it from outside beats what is said nearer to it. -/
theorem resolveAlong_precedence_icon :
    let pair (a b s : String) : Override := (Override.empty.withToken a (.text s)).withToken b (.text s)
    let default := ((Definition.new "").withCommon ∅).withGenerator fun _ => ∅
    let inst : Instance := {
      overrides := some (Override.empty.withPeer "Button" (Override.empty.withPeer "Icon" (pair "a" "b" "instance"))) }
    let card := Override.empty.withPeer "Button" (Override.empty.withPeer "Icon" (pair "b" "c" "card"))
    let button := Override.empty.withPeer "Icon" (pair "c" "d" "button")
    let icon := pair "d" "e" "icon"
    let provider : Provider := { overrides :=
      (({} : GlobalOverrides).withComponent "Card" card |>.withComponent "Button" button).withComponent "Icon" icon }
    ∃ m, resolveAlong (some provider) "Card" default inst
        ([⟨"Button", "Button", default⟩] ++ [⟨"Icon", "Icon", default⟩]) = .ok m ∧
      m.tokens.get? "b" = some (.text "instance") ∧ m.tokens.get? "c" = some (.text "card") ∧
      m.tokens.get? "d" = some (.text "button") ∧ m.tokens.get? "e" = some (.text "icon") := by
  intro pair default inst card button icon provider
  obtain ⟨m, h⟩ : ∃ m, resolveAlong (some provider) "Card" default inst
      ([⟨"Button", "Button", default⟩] ++ [⟨"Icon", "Icon", default⟩]) = .ok m := ⟨_, rfl⟩
  obtain ⟨parent, base, g, -, -, -, htokens, -⟩ := resolveAlong_precedence h
  refine ⟨m, h, ?_, ?_, ?_, ?_⟩
  · rw [htokens]; rfl
  · rw [htokens]; rfl
  · rw [htokens]; rfl
  · rw [htokens]; rfl

end Theming
