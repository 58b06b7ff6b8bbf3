import Asm6502.Proofs.Lexing.Places
import Asm6502.Proofs.Parsing.Progress
import Mathlib.Data.List.Chain

/-!
# Reports come in source order

A problem is reported where a parser stopped, where a token is skipped, or, once it is clear
that something is missing or taken for something else, at a token that has been passed.  Such a
token is the first one of its item or of its statement, and inside these nothing else is
reported before.  So the reports come in the order of the source.

Two reports may be at one place.  A phrase may be given up in front of a name with a detached
colon; the name starts a statement, so no token is passed, and it is reported again as the label
for which it is taken.  There is no third one, because a recovered label is no failure.

What the proof carries along is where the last report stands: in front of the current token, or,
between two statements, at the current token, which then starts a statement.  It may be carried
along from any point on, for the tokens ahead and what is reported behind what is there already.

## Main results

* `locates_item`, `locates_declaration` — a failure tells where the parser stopped.
* `InOrder.blockStep`, `InOrder.statement` — the order of reports is kept.
* `program_inOrder` — the reports on a program.
-/

namespace Asm6502.Parser

open Syntax

variable {s s' : State} {limit : Nat} {E : Parser (Option NodeId)}

/-! ## Where a parser stops -/

/-- Wherever the parser fails, it tells the place where it stopped. -/
def Locates {α : Type} (p : Parser α) : Prop :=
  ∀ s, Ends p s (fun _ _ => True) fun e s' => e.position = s'.current.position

theorem locates_expect (k : Token.Kind) : Locates (expect k) := by
  intro s
  rw [ends_expect]
  exact ⟨fun _ => trivial, fun _ => rfl⟩

theorem locates_required (hE : Locates E) (after : Token) : Locates (required E after) := by
  intro s
  rw [ends_required]
  refine (hE s).imp_post ?_
  intro answer s' _
  cases answer with
  | none => rfl
  | some id => trivial

theorem locates_signed (hE : Locates E) (w : Wrapper) : Locates (signed E w) := by
  intro s
  unfold signed
  simp only [ends_bind, ends_current, ends_advance, ends_add, ends_pure]
  exact locates_required hE s.current s.advance

theorem locates_parenthesised (hE : Locates E) : Locates (parenthesised E) := by
  intro s
  unfold parenthesised
  simp only [ends_bind, ends_current, ends_advance, ends_add, ends_pure]
  exact (locates_required hE s.current s.advance).imp_post fun _ s' _ => locates_expect _ s'

theorem locates_primary (hE : Locates E) : Locates (primary E) := by
  intro s
  unfold primary
  rw [ends_bind, ends_current]
  split
  next => trivial
  next => trivial
  next => trivial
  next => trivial
  next => exact locates_signed hE .immediate s
  next => exact locates_signed hE .loByte s
  next => exact locates_signed hE .hiByte s
  next => exact locates_parenthesised hE s
  next => trivial

theorem locates_sumRest (hE : Locates E) (bound : List Token) (left : NodeId) :
    Locates (sumRest E bound left) := by
  induction bound generalizing left with
  | nil => exact fun _ => trivial
  | cons b bound ih =>
      intro s
      unfold sumRest
      rw [ends_bind, ends_current]
      split
      next => trivial
      next =>
        simp only [ends_bind, ends_advance, ends_lineOf, ends_add]
        exact (locates_required (locates_primary hE) s.current s.advance).imp_post
          fun _ _ _ => ih _ _

theorem locates_sum (hE : Locates E) : Locates (sum E) := by
  intro s
  unfold sum
  rw [ends_bind]
  refine (locates_primary hE s).imp_post ?_
  intro answer s' _
  cases answer with
  | none => trivial
  | some left =>
      simp only [ends_bind, ends_ahead, ends_pure]
      exact locates_sumRest hE _ left s'

theorem locates_expression (limit levels : Nat) : Locates (expression limit levels) := by
  induction levels with
  | zero => exact fun _ => rfl
  | succ levels ih => exact locates_sum ih

theorem locates_operand (limit : Nat) : Locates (operand limit) := by
  intro s
  unfold operand
  rw [ends_bind]
  refine (locates_expression limit limit s).imp_post ?_
  intro answer s' _
  cases answer with
  | none => trivial
  | some id =>
      simp only [ends_bind, ends_current, ends_ite, ends_advance, ends_pure]
      refine ⟨fun _ => ?_, fun _ => trivial⟩
      split
      next => rfl
      next => trivial

theorem locates_operandOf (limit : Nat) (token : Token) (c : OperandClass) :
    Locates (operandOf limit token c) := by
  have honLine : Locates (operandOf.onLineOf limit token) := by
    intro s
    unfold operandOf.onLineOf
    rw [ends_bind, ends_current, ends_ite]
    exact ⟨fun _ => locates_operand limit s, fun _ => trivial⟩
  cases c with
  | implied => exact fun _ => trivial
  | memory =>
      intro s
      simp only [operandOf, ends_bind]
      refine (honLine s).imp_post ?_
      intro answer s' _
      cases answer with
      | none => trivial
      | some id => trivial
  | accumulator => exact honLine
  | target =>
      intro s
      simp only [operandOf, ends_bind, ends_add, ends_pure]
      exact locates_expect .name s

theorem locates_instruction (limit : Nat) (m : Mnemonic) : Locates (instruction limit m) := by
  intro s
  unfold instruction
  simp only [ends_bind, ends_current, ends_advance, ends_add, ends_pure]
  exact locates_operandOf limit s.current m.operandClass s.advance

theorem locates_dataRest (limit : Nat) (bound : List Token) (done : List NodeId) :
    Locates (dataRest limit bound done) := by
  induction bound generalizing done with
  | nil => exact fun _ => trivial
  | cons b bound ih =>
      intro s
      unfold dataRest
      simp only [ends_bind, ends_current, ends_ite, ends_advance, ends_pure]
      refine ⟨fun _ => ?_, fun _ => trivial⟩
      refine (locates_expression limit limit s.advance).imp_post ?_
      intro answer s' _
      cases answer with
      | none => trivial
      | some id => exact ih (id :: done) s'

theorem locates_dataList (limit : Nat) : Locates (dataList limit) := by
  intro s
  unfold dataList
  rw [ends_bind]
  refine (locates_expression limit limit s).imp_post ?_
  intro answer s' _
  cases answer with
  | none => trivial
  | some first =>
      simp only [ends_bind, ends_ahead, ends_addList]
      exact locates_dataRest limit _ [first] s'

theorem locates_data (limit : Nat) (width : DataWidth) : Locates (data limit width) := by
  intro s
  unfold data
  simp only [ends_bind, ends_current, ends_advance, ends_ite, ends_pure]
  refine ⟨fun _ => ?_, fun _ => trivial⟩
  refine (locates_dataList limit s.advance).imp_post ?_
  intro values s' _
  cases values with
  | none => trivial
  | some head => trivial

theorem locates_item {k : Token.Kind} {item : Parser (Option NodeId)}
    (h : item? limit k = some item) : Locates item := by
  unfold item? at h
  split at h
  next m =>
    cases h
    exact locates_instruction limit m
  next =>
    cases h
    exact locates_data limit .byte
  next =>
    cases h
    exact locates_data limit .word
  next => cases h

theorem locates_declaration (limit : Nat) : Locates (declaration limit) := by
  intro s
  unfold declaration
  simp only [ends_bind, ends_current, ends_advance, ends_add]
  exact locates_required (locates_expression limit limit) s.advance.current s.advance.advance

/-! ## The order of reports -/

/-- The first report tells that a phrase was given up, at a name among the tokens, and the second
one that this name is taken for a label. -/
structure Coincides (ts : List Token) (d d' : Diagnostic) : Prop where
  failure : d.kind = .unexpectedToken ∨ d.kind = .nestingTooDeep
  name : ∃ t ∈ ts, t.kind = .name ∧ t.position = d.position ∧ d' = .detachedLabel t

/-- The second report may come directly behind the first one. -/
def Follows (ts : List Token) (d d' : Diagnostic) : Prop :=
  d.position < d'.position ∨ d.position = d'.position ∧ Coincides ts d d'

/-- The last report stands in front of the current token. -/
def Past (s : State) : Prop :=
  ∀ d ∈ s.diagnostics.toList.getLast?, d.position < s.current.position

/-- The last report stands in front of the current token, or a phrase was given up at this token
and it starts a statement. -/
def UpToHere (s : State) : Prop :=
  ∀ d ∈ s.diagnostics.toList.getLast?, d.position < s.current.position ∨
    d.position = s.current.position ∧ (d.kind = .unexpectedToken ∨ d.kind = .nestingTooDeep) ∧
      startsStatement s.stream = true

/-- What has been reported behind `old` is in order, at places of tokens among `ts` or at the end of
the text, and no report stands behind the current token. -/
structure InOrder (ts : List Token) (finish : Position) (old : List Diagnostic) (s : State) :
    Prop where
  suffix : s.stream.ahead <:+ ts
  finish_eq : s.stream.finish = finish
  since : ∃ reported, s.diagnostics.toList = old ++ reported ∧ reported.IsChain (Follows ts) ∧
    ∀ d ∈ reported, d.position ∈ ts.map Token.position ++ [finish]
  last : UpToHere s

/-- The places of the tokens ahead and of the end behind them. -/
def State.places (s : State) : List Position :=
  s.stream.ahead.map Token.position ++ [s.stream.finish]

theorem State.current_mem_places (s : State) : s.current.position ∈ s.places := by
  rw [current, TokenStream.current, places]
  cases s.stream.ahead with
  | nil => exact List.mem_singleton_self _
  | cons t ts => exact List.mem_cons_self

/-- Passing no token leaves the current one. -/
theorem State.Reads.current_eq {reported : List Diagnostic} (h : s.Reads s' [] reported) :
    s'.current = s.current := by
  have hahead : s.stream.ahead = s'.stream.ahead := h.ahead_eq
  rw [State.current, State.current, TokenStream.current, TokenStream.current, hahead, h.finish_eq]

/-- An item reports at most that something is missing behind its first token. -/
theorem exists_reads_of_itemAnswer {answer : Option NodeId} (h : ItemAnswer limit s answer s') :
    ∃ passed reported, s.Reads s' passed reported ∧ passed ≠ [] ∧
      (reported = [] ∨ ∃ d, reported = [d] ∧ d.position = s.current.position) := by
  cases answer with
  | none =>
      obtain ⟨_, hreads⟩ := h
      exact ⟨_, _, hreads, List.cons_ne_nil _ _, .inr ⟨_, rfl, rfl⟩⟩
  | some id =>
      obtain ⟨i, hreads, _⟩ := h
      cases i with
      | instruction t mnemonic isMnemonic arguments =>
          refine ⟨_, _, hreads, List.cons_ne_nil _ _, ?_⟩
          rw [Item.reports]
          split
          next =>
            right
            rw [State.current_eq_of_ahead hreads.ahead_eq]
            exact ⟨_, rfl, rfl⟩
          next => exact .inl rfl
      | data marker width isMarker first further trailing =>
          exact ⟨_, _, hreads, List.cons_ne_nil _ _, .inl rfl⟩

/-- What is reported at the current token may come behind reports in front of it. -/
theorem Past.follows (hpast : Past s) (ts : List Token) {d : Diagnostic}
    (hplace : d.position = s.current.position) :
    ∀ d₀ ∈ s.diagnostics.toList.getLast?, Follows ts d₀ d := by
  intro d₀ hd₀
  left
  rw [hplace]
  exact hpast d₀ hd₀

namespace InOrder

variable {ts : List Token} {finish : Position} {old : List Diagnostic} {passed : List Token}
  {reported : List Diagnostic}

/-- In front of the first token nothing has been reported. -/
theorem start (ts : List Token) :
    InOrder (ts.takeWhile TokenStream.isProper) (TokenStream.ofTokens ts).finish []
      (State.start ts) where
  suffix := List.suffix_rfl
  finish_eq := rfl
  since := ⟨[], rfl, .nil, List.forall_mem_nil _⟩
  last := by
    intro d hd
    cases hd

/-- From any point on, as long as the last report does not stand behind it. -/
theorem here (hlast : UpToHere s) :
    InOrder s.stream.ahead s.stream.finish s.diagnostics.toList s where
  suffix := List.suffix_rfl
  finish_eq := rfl
  since := ⟨[], (List.append_nil _).symm, .nil, List.forall_mem_nil _⟩
  last := hlast

theorem places_suffix (h : InOrder ts finish old s) :
    s.places <:+ ts.map Token.position ++ [finish] := by
  obtain ⟨read, rfl⟩ := h.suffix
  refine ⟨read.map Token.position, ?_⟩
  rw [State.places, h.finish_eq, List.map_append, List.append_assoc]

/-- The tree plays no part. -/
theorem congr (h : InOrder ts finish old s) (hstream : s'.stream = s.stream)
    (hdiagnostics : s'.diagnostics = s.diagnostics) : InOrder ts finish old s' := by
  obtain ⟨stream, tree, diagnostics⟩ := s
  obtain ⟨stream', tree', diagnostics'⟩ := s'
  cases hstream
  cases hdiagnostics
  exact ⟨h.suffix, h.finish_eq, h.since, h.last⟩

/-- At most one report at the current token keeps what has been reported in order. -/
theorem extend (h : InOrder ts finish old s) (hreads : s.Reads s' passed reported)
    (hreported : reported = [] ∨ ∃ d, reported = [d] ∧ d.position = s.current.position ∧
      ∀ d₀ ∈ s.diagnostics.toList.getLast?, Follows ts d₀ d)
    (hlast : UpToHere s') : InOrder ts finish old s' where
  suffix := by
    have hsuffix : s'.stream.ahead <:+ s.stream.ahead := ⟨passed, hreads.ahead_eq.symm⟩
    exact hsuffix.trans h.suffix
  finish_eq := hreads.finish_eq.trans h.finish_eq
  since := by
    obtain ⟨before, hbefore, hchain, hplaced⟩ := h.since
    rcases hreported with rfl | ⟨d, rfl, hplace, hfollows⟩
    · refine ⟨before, ?_, hchain, hplaced⟩
      rw [hreads.diagnostics_eq, List.append_nil, hbefore]
    · refine ⟨before ++ [d], ?_, ?_, ?_⟩
      · rw [hreads.diagnostics_eq, hbefore, List.append_assoc]
      · refine List.isChain_append.2 ⟨hchain, .singleton d, ?_⟩
        rintro d₀ hd₀ _ ⟨⟩
        refine hfollows d₀ ?_
        rw [hbefore]
        exact List.mem_getLast?_append_of_mem_getLast? hd₀
      · intro d' hd'
        rcases List.mem_append.1 hd' with hd' | hd'
        · exact hplaced d' hd'
        · rw [List.mem_singleton.1 hd', hplace]
          exact h.places_suffix.subset s.current_mem_places
  last := hlast

/-- In front of a token that starts no statement, nothing has been reported at it. -/
theorem past_of_not_startsStatement (h : InOrder ts finish old s)
    (hno : startsStatement s.stream = false) : Past s := by
  intro d hd
  refine (h.last d hd).resolve_right ?_
  rintro ⟨_, _, hstarts⟩
  rw [hno] at hstarts
  cases hstarts

/-- The name of a label may be reported where the last phrase was given up. -/
theorem follows_detachedLabel (h : InOrder ts finish old s) (hname : s.current.kind = .name) :
    ∀ d₀ ∈ s.diagnostics.toList.getLast?, Follows ts d₀ (.detachedLabel s.current) := by
  intro d₀ hd₀
  rcases h.last d₀ hd₀ with hbefore | ⟨hat, hfailure, _⟩
  · exact .inl hbefore
  · have hmem : s.current ∈ s.stream.ahead := by
      rw [State.ahead_eq_cons (by rw [hname]; decide)]
      exact List.mem_cons_self
    exact .inr ⟨hat, hfailure, s.current, h.suffix.subset hmem, hname, hat.symm, rfl⟩

/-! ### Reading on

Tokens stand in source order from here on. -/

variable (increasing : (ts.map Token.position ++ [finish]).Pairwise (· < ·))

include increasing

/-- Behind tokens that have been passed, what is ahead stands further down. -/
theorem position_lt_of_mem_places (h : InOrder ts finish old s)
    (hreads : s.Reads s' passed reported) (hpassed : passed ≠ []) :
    ∀ p ∈ s'.places, s.current.position < p := by
  obtain ⟨t, more, rfl⟩ := List.exists_cons_of_ne_nil hpassed
  have hplaces : s.places = t.position :: (more.map Token.position ++ s'.places) := by
    rw [State.places, hreads.ahead_eq, State.places, hreads.finish_eq]
    simp
  have hsorted := increasing.sublist h.places_suffix.sublist
  rw [hplaces] at hsorted
  rw [State.current_eq_of_ahead hreads.ahead_eq]
  intro p hp
  exact (List.pairwise_cons.1 hsorted).1 p (List.mem_append_right _ hp)

/-- The current token stands further down, too. -/
theorem position_lt (h : InOrder ts finish old s) (hreads : s.Reads s' passed reported)
    (hpassed : passed ≠ []) : s.current.position < s'.current.position :=
  h.position_lt_of_mem_places increasing hreads hpassed _ s'.current_mem_places

/-- Reading on past some tokens, with at most one report at the first of them. -/
theorem step (h : InOrder ts finish old s) (hreads : s.Reads s' passed reported)
    (hpassed : passed ≠ [])
    (hreported : reported = [] ∨ ∃ d, reported = [d] ∧ d.position = s.current.position ∧
      ∀ d₀ ∈ s.diagnostics.toList.getLast?, Follows ts d₀ d) :
    InOrder ts finish old s' ∧ Past s' := by
  have hlt := h.position_lt increasing hreads hpassed
  have hpast : Past s' := by
    unfold Past
    rw [hreads.diagnostics_eq]
    intro d hd
    rcases hreported with rfl | ⟨d', rfl, hplace, _⟩
    · rw [List.append_nil] at hd
      rcases h.last d hd with hbefore | ⟨hat, _⟩
      · exact Position.lt_trans hbefore hlt
      · rwa [hat]
    · rw [List.getLast?_concat] at hd
      cases hd
      rwa [hplace]
  exact ⟨h.extend hreads hreported fun d hd => .inl (hpast d hd), hpast⟩

/-- Reading on without a report, be it past tokens or not. -/
theorem silent (h : InOrder ts finish old s) (hpast : Past s) (hreads : s.Reads s' passed []) :
    InOrder ts finish old s' ∧ Past s' := by
  by_cases hpassed : passed = []
  · subst hpassed
    have hpast' : Past s' := by
      unfold Past
      rw [hreads.diagnostics_eq, List.append_nil, hreads.current_eq]
      exact hpast
    exact ⟨h.extend hreads (.inl rfl) fun d hd => .inl (hpast' d hd), hpast'⟩
  · exact h.step increasing hreads hpassed (.inl rfl)

/-- The report of a failure, and the place where a statement can start again. -/
theorem recover (h : InOrder ts finish old s) (hpast : Past s) {e : Failure}
    (he : e.position = s.current.position) : InOrder ts finish old (s.recover e) := by
  obtain ⟨passed, hreads, _⟩ := s.reads_recover e
  refine h.extend hreads (.inr ⟨_, rfl, he, hpast.follows ts he⟩) ?_
  unfold UpToHere
  rw [hreads.diagnostics_eq, List.getLast?_concat]
  rintro d ⟨⟩
  by_cases hpassed : passed = []
  · subst hpassed
    right
    rw [hreads.current_eq]
    exact ⟨he, e.kind_eq, State.resync_startsStatement _⟩
  · left
    rw [Failure.diagnostic, he]
    exact h.position_lt increasing hreads hpassed

/-! ### Blocks -/

/-- A step through a block, or its end. -/
theorem blockStep {x : List NodeId × State} {z : (List NodeId × State) ⊕ (List NodeId × State)}
    (hstep : BlockStep limit x z) (h : InOrder ts finish old x.2) (hpast : Past x.2) :
    match z with
    | .inl y => InOrder ts finish old y.2 ∧ Past y.2
    | .inr r => InOrder ts finish old r.2 := by
  cases hstep with
  | ends => exact h
  | directive hgoes hdirective =>
      obtain ⟨argument, hreads⟩ := State.reads_skipDirective hdirective
      exact h.step increasing hreads (List.cons_ne_nil _ _) (.inl rfl)
  | stall hgoes =>
      have hcurrent := current_ne_eof_of_not_endsBlock hgoes
      exact h.step increasing (State.reads_skip .stall hcurrent) (List.cons_ne_nil _ _)
        (.inr ⟨_, rfl, rfl, hpast.follows ts rfl⟩)
  | item hgoes hitem hrun =>
      have hends := item?_ends hitem
      rw [Ends, hrun] at hends
      obtain ⟨passed, reported, hreads, hpassed, hreported⟩ := exists_reads_of_itemAnswer hends
      refine h.step increasing hreads hpassed (hreported.imp_right ?_)
      rintro ⟨d, hd, hplace⟩
      exact ⟨d, hd, hplace, hpast.follows ts hplace⟩
  | failure hgoes hitem hrun =>
      have hends := (item?_ends hitem).and (locates_item hitem x.2)
      rw [Ends, hrun] at hends
      obtain ⟨⟨passed, hreads, _⟩, hplace⟩ := hends
      have hall := (State.reads_advance (current_ne_eof_of_not_endsBlock hgoes)).trans hreads
      obtain ⟨h', hpast'⟩ := h.step increasing hall (List.cons_ne_nil _ _) (.inl rfl)
      exact h'.recover increasing hpast' hplace

/-- A whole block, or the rest of one. -/
theorem blockEnd (limit : Nat) (x : List NodeId × State) (h : InOrder ts finish old x.2)
    (hpast : Past x.2) : InOrder ts finish old (Parser.blockEnd limit x) := by
  obtain ⟨_, _, hrounds⟩ := blockItems_rounds (s := x.2) limit x.1 (Nat.le_refl _)
  refine hrounds.invariant (fun x => InOrder ts finish old x.2 ∧ Past x.2)
    (fun r => InOrder ts finish old r.2) ⟨h, hpast⟩ ?_ ?_
  · intro x y hx hround
    exact blockStep increasing (hround ▸ Parser.blockStep limit x) hx.1 hx.2
  · intro x r hx hround
    exact blockStep increasing (hround ▸ Parser.blockStep limit x) hx.1 hx.2

/-- The heading of a section. -/
theorem heads (h : InOrder ts finish old s) (hheads : Heads s s') :
    InOrder ts finish old s'.pastLabels ∧ Past s'.pastLabels := by
  have hbehind : InOrder ts finish old s' ∧ Past s' := by
    have hpassed := State.reads_advance hheads.current_ne_eof
    cases hheads with
    | label => exact h.step increasing hpassed (List.cons_ne_nil _ _) (.inl rfl)
    | detached isName isColon =>
        have hboth := (hpassed.trans (State.reads_advance (by rw [isColon]; decide))).trans
          (State.reads_diagnose s.advance.advance (.detachedLabel s.current))
        exact h.step increasing hboth (List.cons_ne_nil _ _)
          (.inr ⟨_, rfl, rfl, h.follows_detachedLabel isName⟩)
  exact hbehind.1.silent increasing hbehind.2 s'.reads_pastLabels

theorem labelSection (limit : Nat) (h : InOrder ts finish old s) (hheads : Heads s s') :
    InOrder ts finish old (statement limit s) := by
  rw [hheads.statement_eq]
  obtain ⟨hstream, hdiagnostics⟩ := labelSection_elsewhere limit s.current s'
  obtain ⟨h', hpast⟩ := h.heads increasing hheads
  exact (blockEnd increasing limit ([], s'.pastLabels) h' hpast).congr hstream hdiagnostics

/-! ### Statements -/

/-- Skipping a token that starts no statement. -/
theorem skip (h : InOrder ts finish old s)
    (hcurrent : s.current.kind ≠ .eof) (hno : startsStatement s.stream = false)
    {report : Token → Diagnostic} (hreport : (report s.current).position = s.current.position) :
    InOrder ts finish old (s.skip report) := by
  have hpast := h.past_of_not_startsStatement hno
  refine (h.step increasing (State.reads_skip report hcurrent) (List.cons_ne_nil _ _) ?_).1
  exact .inr ⟨_, rfl, hreport, hpast.follows ts hreport⟩

theorem declaration (limit : Nat) (h : InOrder ts finish old s) (hname : s.current.kind = .name)
    (hequals : s.advance.current.kind = .equals) :
    Ends (declaration limit) s (fun id s' => InOrder ts finish old (s'.pushItem id))
      fun e s' => InOrder ts finish old (s'.recover e) := by
  have hpassed := (State.reads_advance (s := s) (by rw [hname]; decide)).trans
    (State.reads_advance (s := s.advance) (by rw [hequals]; decide))
  refine ((declaration_ends limit hname hequals).and (locates_declaration limit s)).imp ?_ ?_
  · rintro id s' ⟨⟨d, hreads, _⟩, _⟩
    exact (h.step increasing hreads (List.cons_ne_nil _ _) (.inl rfl)).1.congr rfl rfl
  · rintro e s' ⟨⟨passed, hreads, _⟩, hplace⟩
    obtain ⟨h', hpast⟩ := h.step increasing (hpassed.trans hreads) (List.cons_ne_nil _ _) (.inl rfl)
    exact h'.recover increasing hpast hplace

theorem statement (limit : Nat) (h : InOrder ts finish old s) (hcurrent : s.current.kind ≠ .eof) :
    InOrder ts finish old (statement limit s) := by
  unfold Parser.statement
  dsimp only
  split
  next hdirective =>
    obtain ⟨argument, hreads⟩ := State.reads_skipDirective hdirective
    exact (h.step increasing hreads (List.cons_ne_nil _ _) (.inl rfl)).1
  next hlabel =>
    have hsection := h.labelSection increasing limit (.label hlabel)
    rwa [Heads.statement_eq limit (.label hlabel)] at hsection
  next hname =>
    have hname' : s.stream.current.kind = .name := hname
    split
    next hequals =>
      have hends := h.declaration increasing limit hname hequals
      unfold Ends at hends
      split
      next id s' hrun =>
        rw [hrun] at hends
        exact hends
      next e s' hrun =>
        rw [hrun] at hends
        exact hends
    next hcolon =>
      have hsection := h.labelSection increasing limit (.detached hname hcolon)
      rwa [Heads.statement_eq limit (.detached hname hcolon)] at hsection
    next hequals hcolon =>
      have hno : startsStatement s.stream = false := by
        simp only [startsStatement, hname', Bool.or_eq_false_iff]
        exact ⟨beq_false_of_ne hcolon, beq_false_of_ne hequals⟩
      exact h.skip increasing hcurrent hno rfl
  next hdirective hlabel hname =>
    have hno : startsStatement s.stream = false := by
      unfold startsStatement
      split
      next hk => exact absurd hk hlabel
      next hk => exact absurd hk hdirective
      next hk => exact absurd hk hcurrent
      next hk => exact absurd hk hname
      next => rfl
    exact h.skip increasing hcurrent hno rfl

end InOrder

/-! ## Programs -/

/-- The first report does not stand behind the second one. -/
def Leads (d d' : Diagnostic) : Prop :=
  d.position < d'.position ∨ d.position = d'.position

instance : Trans Leads Leads Leads where
  trans := by
    rintro a b c (hab | hab) hbc
    · exact .inl (hbc.elim (Position.lt_trans hab) (· ▸ hab))
    · rwa [Leads, hab]

section Chain

variable {ts : List Token} {ds : List Diagnostic} {i j : Nat} {d d' : Diagnostic}

/-- If each report may follow the one in front of it, then the places are in order. -/
theorem pairwise_of_follows (h : ds.IsChain (Follows ts)) : ds.Pairwise Leads := by
  have hleads : ds.IsChain Leads := h.imp fun _ _ hfollows => hfollows.imp_right And.left
  exact hleads.pairwise

theorem leads_of_follows (h : ds.IsChain (Follows ts)) (hij : i ≤ j) (hd : ds[i]? = some d)
    (hd' : ds[j]? = some d') : Leads d d' := by
  obtain ⟨hi, rfl⟩ := List.getElem?_eq_some_iff.1 hd
  obtain ⟨hj, rfl⟩ := List.getElem?_eq_some_iff.1 hd'
  rcases Nat.lt_or_eq_of_le hij with hlt | rfl
  · exact List.pairwise_iff_getElem.1 (pairwise_of_follows h) i j hi hj hlt
  · exact .inr rfl

/-- Between two reports at one place, each one coincides with the next. -/
theorem exists_coincides (h : ds.IsChain (Follows ts)) (hd : ds[i]? = some d)
    (hd' : ds[j]? = some d') (hplace : d.position = d'.position) {k : Nat} (hik : i ≤ k)
    (hkj : k < j) : ∃ a b, ds[k]? = some a ∧ ds[k + 1]? = some b ∧ Coincides ts a b := by
  have hj := (List.getElem?_eq_some_iff.1 hd').1
  have hk : k + 1 < ds.length := Nat.lt_of_le_of_lt hkj hj
  have ha : ds[k]? = some ds[k] := List.getElem?_eq_getElem _
  have hb : ds[k + 1]? = some ds[k + 1] := List.getElem?_eq_getElem hk
  refine ⟨_, _, ha, hb, ?_⟩
  rcases List.isChain_iff_getElem.1 h k hk with hlt | ⟨_, hcoincides⟩
  · have hbelow : d.position < ds[k + 1].position :=
      (leads_of_follows h hik hd ha).elim (Position.lt_trans · hlt) (· ▸ hlt)
    have hsame : d.position < d'.position :=
      (leads_of_follows h hkj hb hd').elim (Position.lt_trans hbelow) (· ▸ hbelow)
    exact absurd hplace (Position.ne_of_lt hsame)
  · exact hcoincides

/-- Only neighbours share a place: the second of them is a recovered label, with which no other
report coincides. -/
theorem coincides_of_follows (h : ds.IsChain (Follows ts)) (hij : i < j) (hd : ds[i]? = some d)
    (hd' : ds[j]? = some d') (hplace : d.position = d'.position) :
    j = i + 1 ∧ Coincides ts d d' := by
  obtain ⟨a, b, ha, hb, hfirst⟩ := exists_coincides h hd hd' hplace (Nat.le_refl i) hij
  cases hd.symm.trans ha
  by_cases hnext : j = i + 1
  · subst hnext
    cases hd'.symm.trans hb
    exact ⟨rfl, hfirst⟩
  · obtain ⟨b', c, hb', _, hsecond⟩ :=
      exists_coincides h hd hd' hplace (Nat.le_succ i) (Nat.lt_of_le_of_ne hij (Ne.symm hnext))
    cases hb.symm.trans hb'
    obtain ⟨t, _, _, _, rfl⟩ := hfirst.name
    rcases hsecond.failure with hkind | hkind
    · cases hkind
    · cases hkind

end Chain

/-! ### Reports at the place of an item -/

section AtItem

variable {ts : List Token} {x y : List NodeId × State} {passed : List Token}
  {reported : List Diagnostic}

theorem AtItem.inOrder (increasing : (State.start ts).places.Pairwise (· < ·))
    (h : AtItem limit ts x) :
    InOrder (ts.takeWhile TokenStream.isProper) (TokenStream.ofTokens ts).finish [] x.2 ∧
      Past x.2 := by
  let inOrder : State → Prop :=
    InOrder (ts.takeWhile TokenStream.isProper) (TokenStream.ofTokens ts).finish []
  refine h.keeps inOrder (fun s => inOrder s ∧ Past s) ?_
    (fun s s' hs hheads => hs.heads increasing hheads)
    (fun x y hx hround => hx.1.blockStep increasing (hround ▸ blockStep limit x) hx.2)
  intro s hs
  exact hs.keeps inOrder (.start ts) fun s hs hcurrent => hs.statement increasing limit hcurrent

/-- In front of an item, all reports are at places in front of it. -/
theorem AtItem.position_lt (increasing : (State.start ts).places.Pairwise (· < ·))
    (h : AtItem limit ts x) : ∀ d ∈ x.2.diagnostics.toList, d.position < x.2.current.position := by
  obtain ⟨hinOrder, hpast⟩ := h.inOrder increasing
  obtain ⟨all, hall, hchain, _⟩ := hinOrder.since
  rw [List.nil_append] at hall
  rw [Past, hall] at hpast
  rw [hall]
  intro d hd
  obtain ⟨i, hi, rfl⟩ := List.getElem_of_mem hd
  have hlast : all.getLast? = some all[all.length - 1] := by
    rw [List.getLast?_eq_getElem?, List.getElem?_eq_getElem]
  have hleads := leads_of_follows hchain (Nat.le_sub_one_of_lt hi) (List.getElem?_eq_getElem hi)
    (List.getElem?_eq_getElem (by omega))
  exact hleads.elim (Position.lt_trans · (hpast _ hlast)) (· ▸ hpast _ hlast)

/-- From an item on, all reports are at places of the tokens ahead. -/
theorem AtItem.exists_placed (increasing : (State.start ts).places.Pairwise (· < ·))
    (h : AtItem limit ts x) :
    ∃ more, (program limit ts).diagnostics = x.2.diagnostics.toList ++ more ∧
      ∀ d ∈ more, d.position ∈ x.2.places := by
  obtain ⟨hinOrder, hpast⟩ := h.inOrder increasing
  have hahead : x.2.places.Pairwise (· < ·) := increasing.sublist hinOrder.places_suffix.sublist
  obtain ⟨s, hs, hcurrent, _, hstream, hdiagnostics⟩ := h.exists_statement
  have hblock := (InOrder.here fun d hd => .inl (hpast d hd)).blockEnd hahead limit x hpast
  obtain ⟨s', hend, hprogram⟩ := (hs.next hcurrent).keeps_outcome _
    (hblock.congr hstream hdiagnostics) fun s hs hcurrent => hs.statement hahead limit hcurrent
  obtain ⟨more, hmore, _, hplaced⟩ := hend.since
  exact ⟨more, (congrArg Outcome.diagnostics hprogram).trans hmore, hplaced⟩

/-- What one step through a block reports at its first token is all that is reported there. -/
theorem AtItem.filter_position (increasing : (State.start ts).places.Pairwise (· < ·))
    (h : AtItem limit ts x) (hround : blockRound limit x = .inl y)
    (hreads : x.2.Reads y.2 passed reported) (hpassed : passed ≠ [])
    (hreported : ∀ d ∈ reported, d.position = x.2.current.position) :
    (program limit ts).diagnostics.filter (fun d => d.position == x.2.current.position) =
      reported := by
  obtain ⟨more, hmore, hplaced⟩ := (h.next hround).exists_placed increasing
  have hlt := (h.inOrder increasing).1.position_lt_of_mem_places increasing hreads hpassed
  have hbefore : x.2.diagnostics.toList.filter (fun d => d.position == x.2.current.position) =
      [] := by
    refine List.filter_eq_nil_iff.2 fun d hd => ?_
    rw [beq_iff_eq]
    exact Position.ne_of_lt (h.position_lt increasing d hd)
  have hat : reported.filter (fun d => d.position == x.2.current.position) = reported :=
    List.filter_eq_self.2 fun d hd => beq_iff_eq.2 (hreported d hd)
  have hbehind : more.filter (fun d => d.position == x.2.current.position) = [] := by
    refine List.filter_eq_nil_iff.2 fun d hd => ?_
    rw [beq_iff_eq]
    exact (Position.ne_of_lt (hlt _ (hplaced d hd))).symm
  rw [hmore, hreads.diagnostics_eq, List.filter_append, List.filter_append, hbefore, hat, hbehind,
    List.nil_append, List.append_nil]

end AtItem

/-- Where the tokens stand in source order, so do the reports on a program.  Each of them is at
the place of a token.  Two of them share a place only if the first one tells that a phrase was
given up, and the second one, directly behind it, that the name there is taken for a label. -/
theorem program_inOrder (limit : Nat) {ts : List Token} {e : Token}
    (proper : ∀ t ∈ ts, t.kind ≠ .eof) (isEnd : e.kind = .eof)
    (increasing : (ts ++ [e]).Pairwise fun t u => t.position < u.position) :
    let ds := (program limit (ts ++ [e])).diagnostics
    (∀ d ∈ ds, ∃ t ∈ ts ++ [e], d.position = t.position) ∧
      ds.Pairwise (fun d d' => d.position < d'.position ∨ d.position = d'.position) ∧
      ∀ i j d d', i < j → ds[i]? = some d → ds[j]? = some d' → d.position = d'.position →
        j = i + 1 ∧ Coincides ts d d' := by
  intro ds
  have hplaces : (ts.map Token.position ++ [e.position]).Pairwise (· < ·) := by
    have hmap := List.pairwise_map.2 increasing
    rwa [List.map_append] at hmap
  have hstart : InOrder ts e.position [] (State.start (ts ++ [e])) := by
    have hstart := InOrder.start (ts ++ [e])
    have hstream : TokenStream.ofTokens (ts ++ [e]) = ⟨ts, e.position⟩ :=
      TokenStream.ofTokens_append_eof proper isEnd
    have hahead : (ts ++ [e]).takeWhile TokenStream.isProper = ts :=
      congrArg TokenStream.ahead hstream
    rwa [hstream, hahead] at hstart
  obtain ⟨s', horder, houtcome⟩ := (AtStatement.start limit (ts ++ [e])).keeps_outcome
    (InOrder ts e.position []) hstart fun x hx hcurrent => hx.statement hplaces limit hcurrent
  obtain ⟨reported, hreported, hchain, hplaced⟩ := horder.since
  have hds : ds = reported := (congrArg Outcome.diagnostics houtcome).trans hreported
  rw [hds]
  refine ⟨?_, pairwise_of_follows hchain, fun i j d d' => coincides_of_follows hchain⟩
  intro d hd
  have hmem := hplaced d hd
  rw [← List.map_singleton, ← List.map_append] at hmem
  obtain ⟨t, ht, hplace⟩ := List.mem_map.1 hmem
  exact ⟨t, ht, hplace.symm⟩

/-- A parenthesis that is missing in front of a name with a detached colon, and an operand that is
missing behind it. -/
theorem program_inOrder_missingParenthesis :
    let ts : List Token :=
      [ ⟨.name, "X", ⟨1, 1⟩⟩, ⟨.equals, "=", ⟨1, 3⟩⟩, ⟨.parenLeft, "(", ⟨1, 5⟩⟩
      , ⟨.decConst, "1", ⟨1, 6⟩⟩, ⟨.name, "Foo", ⟨2, 1⟩⟩, ⟨.colon, ":", ⟨2, 5⟩⟩
      , ⟨.instruction .lda, "lda", ⟨2, 7⟩⟩ ]
    let e : Token := .endAt ⟨2, 10⟩
    let ds := (program defaultLimit (ts ++ [e])).diagnostics
    (ts ++ [e]).Pairwise (fun t u => t.position < u.position) ∧
      ds.map (fun d => (d.kind, d.position)) =
        [ (.unexpectedToken, ⟨2, 1⟩), (.recoveredLabel, ⟨2, 1⟩), (.missingOperand, ⟨2, 7⟩) ] ∧
      (∀ d ∈ ds, ∃ t ∈ ts ++ [e], d.position = t.position) ∧
      ds.Pairwise (fun d d' => d.position < d'.position ∨ d.position = d'.position) ∧
      ∀ d d', ds[0]? = some d → ds[1]? = some d' → Coincides ts d d' := by
  intro ts e ds
  have increasing : (ts ++ [e]).Pairwise fun t u => t.position < u.position := by decide
  have hreports : ds.map (fun d => (d.kind, d.position)) =
      [ (.unexpectedToken, ⟨2, 1⟩), (.recoveredLabel, ⟨2, 1⟩), (.missingOperand, ⟨2, 7⟩) ] := by
    decide +kernel
  obtain ⟨hplaced, hsorted, hshared⟩ :=
    @program_inOrder defaultLimit ts e (by decide) rfl increasing
  refine ⟨increasing, hreports, hplaced, hsorted, ?_⟩
  intro d d' hd hd'
  have hplace : ds[0]?.map Diagnostic.position = ds[1]?.map Diagnostic.position := by
    decide +kernel
  rw [hd, hd'] at hplace
  exact (hshared 0 1 d d' Nat.zero_lt_one hd hd' (Option.some.inj hplace)).2

end Asm6502.Parser
