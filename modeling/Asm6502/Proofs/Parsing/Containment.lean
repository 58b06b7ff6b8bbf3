import Asm6502.Proofs.Parsing.Framing
import Asm6502.Proofs.Parsing.ProgramSimulation
import Mathlib.Data.List.TakeWhile

/-!
# Errors stay in front of the next label

Reading starts afresh at every label.  Let some tokens be followed by others that start
with a label.  Then reading all of them gives what reading the first ones gives, and then
what reading the others gives: the same items and the same kinds of problems, in this
order.  Whatever is wrong in front of a label has no effect behind it.

Two things join what stands on the two sides and are excluded.  A label at the end of the
first tokens would get the next label for its child; a colon there may belong to a label
that was taken for one.

The proof compares runs (see `Frame`).  The run over the first tokens and the run over all
of them go the same way until the first one is over.  From there on, the run over all
tokens goes the way of a run over the others alone, with another tree below and other
reports in front.

## Main results

* `alike_statementRound` — with nothing behind, statements do not see the frame.
* `program_append` — reading is compositional at labels.
-/

namespace Asm6502.Parser

open Syntax

/-! ## Programs -/

variable {f : Frame} {s s' : State} {limit : Nat}

/-- With no tokens behind, the two runs also end together. -/
theorem alike_statementRound (hlimit : 1 ≤ limit) (hrest : f.rest = []) (s s' : State)
    (hs : f.Embeds s s') :
    Sum.LiftRel f.Embeds f.Embeds (statementRound limit s) (statementRound limit s') := by
  refine Simulation.alike_statementRound (S := f.simulation hlimit) ?_ s s' hs
  intro s s' hs hcurrent
  by_cases hahead : s'.stream.ahead = []
  · have hnil : s.stream.ahead = [] := by
      rw [Frame.Embeds.stream hs |>.ahead_eq, hahead, hrest, List.append_nil]
    exact congrArg Token.kind (State.current_of_nil hnil)
  · rw [show s.current = s'.current from (Frame.Embeds.stream hs).current_eq hahead]
    exact hcurrent

/-- What the tree of a program says is all that its nodes own. -/
theorem program_term (limit : Nat) (ts : List Token) {id : NodeId}
    (hid : (program limit ts).tree.IsInner id) :
    (program limit ts).tree.term id =
      .node ((program limit ts).tree.kind id).shape ((program limit ts).tree.line id)
        (((program limit ts).tree.children id).map (program limit ts).tree.term) := by
  obtain ⟨_, s', account, _, _, houtcome, haccount, _⟩ := program_accounts limit ts
  rw [houtcome] at hid ⊢
  exact Tree.term_eq haccount.shows.descends hid

/-- A label in front is a token in front of the end. -/
theorem kind_of_head?_takeWhile {us : List Token}
    (hus : us.head?.map Token.kind = some .label) :
    ∀ t ∈ (us.takeWhile TokenStream.isProper).head?, t.kind = .label := by
  cases us with
  | nil => cases hus
  | cons u us =>
      have hlabel : u.kind = .label := Option.some.inj hus
      have hproper : TokenStream.isProper u = true := by
        rw [TokenStream.isProper, hlabel]
        decide
      intro t ht
      rw [List.takeWhile_cons_of_pos hproper] at ht
      cases ht
      exact hlabel

namespace Frame

/-- Nothing in front, and behind the tokens that start with a label. -/
def inFrontOf (us : List Token) (hus : us.head?.map Token.kind = some .label) : Frame :=
  ⟨Tree.empty, [], us.takeWhile TokenStream.isProper, kind_of_head?_takeWhile hus⟩

/-- What has been read in front, and nothing behind. -/
def onTopOf (s : State) : Frame := ⟨s.tree, s.kinds, [], fun _ h => by cases h⟩

end Frame

variable {ts us : List Token}

/-- Both runs start at the same token, and at the boundary nothing is left open. -/
theorem embeds_inFrontOf (hts : ∀ t ∈ ts, t.kind ≠ .eof)
    (hlast : ∀ t ∈ ts.getLast?, t.kind ≠ .label ∧ t.kind ≠ .colon)
    (hus : us.head?.map Token.kind = some .label) :
    (Frame.inFrontOf us hus).Embeds (State.start (ts ++ us)) (State.start ts) := by
  have hproper : ∀ t ∈ ts, TokenStream.isProper t = true := by
    intro t ht
    exact bne_iff_ne.2 (hts t ht)
  have hahead : (State.start ts).stream.ahead = ts := List.takeWhile_eq_self_iff.2 hproper
  refine ⟨⟨?_, ?_⟩, .start Tree.rooted_empty, rfl⟩
  · rw [hahead]
    exact List.takeWhile_append_of_pos hproper
  · intro _ before t hsplit
    rw [hahead] at hsplit
    refine hlast t ?_
    rw [hsplit]
    simp

/-- At the boundary, reading goes on as if it started there. -/
theorem embeds_onTopOf (hrooted : s.tree.Rooted)
    (hahead : s.stream.ahead = us.takeWhile TokenStream.isProper) :
    (Frame.onTopOf s).Embeds s (State.start us) where
  stream := by
    refine ⟨?_, fun h => absurd rfl h⟩
    rw [hahead]
    exact (List.append_nil _).symm
  tree := .start hrooted
  kinds_eq := (List.append_nil _).symm

/-- Reading `ts ++ us` comes to the point where reading `ts` ends. -/
theorem exists_rounds_of_append (hlimit : 1 ≤ limit) {hus : us.head?.map Token.kind = some .label}
    {n n' : Nat} {whole first : State}
    (hembeds : (Frame.inFrontOf us hus).Embeds (State.start (ts ++ us)) (State.start ts))
    (hwhole : Rounds (statementRound limit) n (State.start (ts ++ us)) whole)
    (hfirst : Rounds (statementRound limit) n' (State.start ts) first) :
    ∃ m between account, Rounds (statementRound limit) m between whole ∧
      Accounts limit ((ts ++ us).takeWhile TokenStream.isProper) between account ∧
      (Frame.inFrontOf us hus).Embeds between first := by
  let tokens := (ts ++ us).takeWhile TokenStream.isProper
  let keepsUp (s s' : State) : Prop :=
    (Frame.inFrontOf us hus).Embeds s s' ∧ ∃ account, Accounts limit tokens s account
  have hround : ∀ s s' t', keepsUp s s' → statementRound limit s' = .inl t' →
      ∃ t, statementRound limit s = .inl t ∧ keepsUp t t' := by
    rintro s s' t' ⟨hs, account, haccount⟩ hround
    obtain ⟨hcurrent, hround', ht⟩ := Simulation.statementRound_follows
      (S := (Frame.inFrontOf us hus).simulation hlimit) hs hround
    obtain ⟨st, haccount'⟩ := statement_accounts limit haccount hcurrent
    exact ⟨_, hround', ht, _, haccount'⟩
  obtain ⟨m, between, last, hrounds, ⟨hlast, account, haccount⟩, hends⟩ :=
    hwhole.follow keepsUp hfirst ⟨hembeds, [], Accounts.start (ts ++ us)⟩ hround
  obtain ⟨_, rfl⟩ := statementRound_eq_inr.1 hends
  exact ⟨m, between, account, hrounds, haccount, hlast⟩

/-- Reading is compositional at labels.  If no label and no colon stands directly in front
of it, a label and all that follows is read as if nothing stood in front, and what stands
in front is read as if nothing followed.  So an error in front of a label changes nothing
behind it. -/
theorem program_append (limit : Nat) (hlimit : 1 ≤ limit) (ts us : List Token)
    (hts : ∀ t ∈ ts, t.kind ≠ .eof)
    (hlast : ∀ t ∈ ts.getLast?, t.kind ≠ .label ∧ t.kind ≠ .colon)
    (hus : us.head?.map Token.kind = some .label) :
    let whole := program limit (ts ++ us)
    let first := program limit ts
    let second := program limit us
    whole.tree.terms = first.tree.terms ++ second.tree.terms ∧
      whole.diagnostics.map Diagnostic.kind =
        first.diagnostics.map Diagnostic.kind ++ second.diagnostics.map Diagnostic.kind := by
  obtain ⟨_, whole, _, _, hwhole, hwholeRun, _, _⟩ := program_accounts limit (ts ++ us)
  obtain ⟨_, first, _, _, hfirst, hfirstRun, hfirstAccount, hend⟩ := program_accounts limit ts
  obtain ⟨_, second, _, _, hsecond, hsecondRun, hsecondAccount, _⟩ := program_accounts limit us
  rw [hwholeRun, hfirstRun, hsecondRun]
  -- Up to the boundary, all tokens are read as the first ones are.
  obtain ⟨_, between, _, hrest, hbetween, hembeds⟩ :=
    exists_rounds_of_append hlimit (embeds_inFrontOf hts hlast hus) hwhole hfirst
  have hahead : between.stream.ahead = us.takeWhile TokenStream.isProper := by
    rw [hembeds.stream.ahead_eq, hend]
    rfl
  -- From there on, they are read as the others are, on top of what is there.
  have hends : (Frame.onTopOf between).Embeds whole second :=
    hrest.alike _ (Frame.onTopOf between).Embeds hsecond
      (embeds_onTopOf hbetween.shows.rooted hahead) (alike_statementRound hlimit rfl)
  constructor
  · have hbetweenTerms : between.tree.terms = Tree.empty.terms ++ first.tree.terms :=
      hembeds.tree.terms_eq Tree.descends_empty hfirstAccount.shows.descends
        (fun _ h => by cases h) hfirstAccount.isInner_items
    have hterms : whole.tree.terms = between.tree.terms ++ second.tree.terms :=
      hends.tree.terms_eq hbetween.shows.descends hsecondAccount.shows.descends
        hbetween.isInner_items hsecondAccount.isInner_items
    show whole.tree.terms = first.tree.terms ++ second.tree.terms
    rw [hterms, hbetweenTerms]
    rfl
  · have hbetweenKinds : between.kinds = first.kinds := hembeds.kinds_eq
    have hkinds : whole.kinds = between.kinds ++ second.kinds := hends.kinds_eq
    show whole.kinds = first.kinds ++ second.kinds
    rw [hkinds, hbetweenKinds]

/-- `wait: LDA (2`, where the parenthesis is never closed. -/
def unclosedTokens : List Token :=
  [⟨.label, "wait:", ⟨1, 1⟩⟩, ⟨.instruction .lda, "LDA", ⟨2, 3⟩⟩, ⟨.parenLeft, "(", ⟨2, 7⟩⟩,
    ⟨.decConst, "2", ⟨2, 8⟩⟩]

/-- `end: RTS` and the end. -/
def endTokens : List Token :=
  [⟨.label, "end:", ⟨3, 1⟩⟩, ⟨.instruction .rts, "RTS", ⟨4, 3⟩⟩, .endAt ⟨4, 6⟩]

/-- The label is not taken for part of what the parenthesis holds. -/
theorem program_append_unclosedTokens :
    1 ≤ 2 ∧ (∀ t ∈ unclosedTokens, t.kind ≠ .eof) ∧
      (∀ t ∈ unclosedTokens.getLast?, t.kind ≠ .label ∧ t.kind ≠ .colon) ∧
      endTokens.head?.map Token.kind = some .label ∧
      (program 2 (unclosedTokens ++ endTokens)).tree.terms =
        (program 2 unclosedTokens).tree.terms ++ (program 2 endTokens).tree.terms ∧
      (program 2 (unclosedTokens ++ endTokens)).diagnostics.map Diagnostic.kind =
        [.unexpectedToken] := by
  have hts : ∀ t ∈ unclosedTokens, t.kind ≠ .eof := by decide
  have hlast : ∀ t ∈ unclosedTokens.getLast?, t.kind ≠ .label ∧ t.kind ≠ .colon := by decide
  have hus : endTokens.head?.map Token.kind = some .label := by decide
  have hfirst : (program 2 unclosedTokens).diagnostics.map Diagnostic.kind =
      [.unexpectedToken] := by decide +kernel
  have hsecond : (program 2 endTokens).diagnostics.map Diagnostic.kind = [] := by decide +kernel
  obtain ⟨hterms, hkinds⟩ :=
    program_append 2 (by decide) unclosedTokens endTokens hts hlast hus
  rw [hfirst, hsecond] at hkinds
  exact ⟨by decide, hts, hlast, hus, hterms, hkinds⟩

end Asm6502.Parser
