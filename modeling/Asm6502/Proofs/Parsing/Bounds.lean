import Asm6502.Proofs.Parsing.ProgramSoundness

/-!
# How long reading takes and what it leaves

Reading ends after at most as many statements as there are tokens, reports at most
one problem for each token, and keeps at most two nodes for each token, the nodes
given up half-way included.

The account of a program yields the bounds on statements, reports and items, for each
stretch of it has a token of its own.  It says nothing about nodes out of reach, so
their number is bounded by a budget.  A state is worth one for each node it holds and
two for each token ahead.  No parser adds to the worth of a state; and whoever answers
a node leaves one unit of the budget unspent, which pays for the list cell that the
node may be put in later.

## Main results

* `thrifty_expression`, `thrifty_item` — parsers keep within their budget.
* `program_linear` — reading a program ends, within linear bounds.
-/

namespace Asm6502.Parser

open Syntax

variable {s s' : State} {limit : Nat} {E : Parser (Option NodeId)}

/-! ## What a state is worth -/

/-- One for each node and two for each token ahead. -/
def State.worth (s : State) : Nat := s.tree.size + 2 * s.remaining

namespace State

theorem worth_start (ts : List Token) :
    (start ts).worth = 2 * (ts.takeWhile TokenStream.isProper).length + 1 := by
  show 1 + 2 * (ts.takeWhile TokenStream.isProper).length = _
  omega

theorem worth_advance (h : s.current.kind ≠ .eof) : s.advance.worth + 2 = s.worth := by
  have hlength := congrArg List.length (ahead_eq_cons h)
  rw [List.length_cons] at hlength
  show s.tree.size + 2 * s.advance.stream.ahead.length + 2 =
    s.tree.size + 2 * s.stream.ahead.length
  omega

theorem worth_advance_le (s : State) : s.advance.worth ≤ s.worth := by
  have hlength : s.stream.ahead.tail.length ≤ s.stream.ahead.length := by
    rw [List.length_tail]
    omega
  show s.tree.size + 2 * s.stream.ahead.tail.length ≤ s.tree.size + 2 * s.stream.ahead.length
  omega

@[simp] theorem worth_diagnose (s : State) (d : Diagnostic) : (s.diagnose d).worth = s.worth :=
  rfl

@[simp] theorem worth_add (s : State) (k : Node.Kind) (line : Nat) :
    (s.add k line).2.worth = s.worth + 1 := by
  show (s.tree.add k line).2.size + 2 * s.remaining = s.tree.size + 2 * s.remaining + 1
  rw [Tree.size_add]
  omega

@[simp] theorem worth_addList (s : State) (ids : List NodeId) :
    (s.addList ids).2.worth = s.worth + ids.length := by
  have hsize : (s.tree.addList ids).2.size = s.tree.size + ids.length := by
    induction ids with
    | nil => rfl
    | cons id ids ih =>
        show ((s.tree.addList ids).2.add _ _).2.size = _
        rw [Tree.size_add, ih, List.length_cons]
        omega
  show (s.tree.addList ids).2.size + 2 * s.remaining = _
  rw [hsize, worth]
  omega

@[simp] theorem worth_pushItem (s : State) (id : NodeId) : (s.pushItem id).worth = s.worth := by
  show (s.tree.pushItem id).size + 2 * s.remaining = s.worth
  rw [Tree.size_pushItem]
  rfl

theorem worth_skip_le (s : State) (report : Token → Diagnostic) :
    (s.skip report).worth ≤ s.worth := worth_advance_le _

theorem worth_skipDirective_le (s : State) : s.skipDirective.worth ≤ s.worth := by
  have hfirst := worth_advance_le s
  have hsecond := worth_advance_le s.advance
  unfold skipDirective
  dsimp only
  split
  · omega
  · exact hfirst

theorem worth_recover_le (s : State) (e : Failure) : (s.recover e).worth ≤ s.worth := by
  obtain ⟨passed, hreads, _⟩ := reads_resync (s.diagnose e.diagnostic)
  have hremaining : (s.recover e).remaining ≤ s.remaining := hreads.remaining_le
  show s.tree.size + 2 * (s.recover e).remaining ≤ s.tree.size + 2 * s.remaining
  omega

end State

/-! ## Expressions -/

/-- The parser adds nothing to the worth of the state, and if it answers a node, it
leaves one unit. -/
def Thrifty (p : Parser (Option NodeId)) (s : State) : Prop :=
  Ends p s (fun answer s' => s'.worth + answer.toList.length ≤ s.worth)
    (fun _ s' => s'.worth ≤ s.worth)

/-- The parser adds nothing to the worth of the state, whatever it answers. -/
def Frugal {α : Type} (p : Parser α) (s : State) : Prop :=
  Ends p s (fun _ s' => s'.worth ≤ s.worth) (fun _ s' => s'.worth ≤ s.worth)

/-- What has been spent in front of a parser may have left some of the budget. -/
theorem Thrifty.within {p : Parser (Option NodeId)} {post : Option NodeId → State → Prop}
    {worth : Nat} (h : Thrifty p s) (hs : s.worth ≤ worth)
    (hpost : ∀ answer s', s'.worth + answer.toList.length ≤ s.worth → post answer s') :
    Ends p s post (fun _ s' => s'.worth ≤ worth) := by
  refine h.imp hpost ?_
  intro e s' hfail
  exact Nat.le_trans hfail hs

/-- The token in front of an expression pays for a node around it. -/
theorem thrifty_required {post : NodeId → State → Prop} {after : Token} {worth : Nat}
    (h : Thrifty E s) (hs : s.worth ≤ worth)
    (hpost : ∀ id s', s'.worth + 1 ≤ s.worth → post id s') :
    Ends (required E after) s post (fun _ s' => s'.worth ≤ worth) := by
  rw [ends_required]
  refine h.within hs ?_
  intro answer s' hanswer
  cases answer with
  | none => exact Nat.le_trans hanswer hs
  | some id => exact hpost id s' hanswer

theorem thrifty_leaf (k : Node.Kind) (h : s.current.kind ≠ .eof) : Thrifty (leaf k) s := by
  have hadvance := State.worth_advance h
  unfold Thrifty leaf
  simp only [ends_bind, ends_current, ends_advance, ends_add, ends_pure, State.worth_add,
    Option.toList_some, List.length_singleton]
  omega

theorem thrifty_signed (hE : ∀ s, Thrifty E s) (w : Wrapper) (h : s.current.kind ≠ .eof) :
    Thrifty (signed E w) s := by
  have hadvance := State.worth_advance h
  unfold Thrifty signed
  simp only [ends_bind, ends_current, ends_advance]
  refine thrifty_required (hE s.advance) (by omega) ?_
  intro child s' hchild
  simp only [ends_add, ends_pure, State.worth_add, Option.toList_some, List.length_singleton]
  omega

theorem thrifty_parenthesised (hE : ∀ s, Thrifty E s) (h : s.current.kind ≠ .eof) :
    Thrifty (parenthesised E) s := by
  have hadvance := State.worth_advance h
  unfold Thrifty parenthesised
  simp only [ends_bind, ends_current, ends_advance]
  refine thrifty_required (hE s.advance) (by omega) ?_
  intro child s' hchild
  have hclosed := State.worth_advance_le s'
  simp only [ends_expect, ends_add, ends_pure, State.worth_add, Option.toList_some,
    List.length_singleton]
  constructor
  · intro _
    omega
  · intro _
    omega

theorem thrifty_primary (hE : ∀ s, Thrifty E s) (s : State) : Thrifty (primary E) s := by
  have hcurrent {k : Token.Kind} (hk : s.current.kind = k) (hproper : k ≠ .eof) :
      s.current.kind ≠ .eof := by
    rw [hk]
    exact hproper
  unfold Thrifty primary
  rw [ends_bind, ends_current]
  split
  next hk => exact thrifty_leaf _ (hcurrent hk (by decide))
  next hk => exact thrifty_leaf _ (hcurrent hk (by decide))
  next hk => exact thrifty_leaf _ (hcurrent hk (by decide))
  next hk => exact thrifty_leaf _ (hcurrent hk (by decide))
  next hk => exact thrifty_signed hE .immediate (hcurrent hk (by decide))
  next hk => exact thrifty_signed hE .loByte (hcurrent hk (by decide))
  next hk => exact thrifty_signed hE .hiByte (hcurrent hk (by decide))
  next hk => exact thrifty_parenthesised hE (hcurrent hk (by decide))
  next => exact Nat.le_refl _

/-- A sign between two parts pays for their sum. -/
theorem frugal_sumRest (hE : ∀ s, Thrifty E s) (bound : List Token) (left : NodeId) (s : State) :
    Frugal (sumRest E bound left) s := by
  induction bound generalizing s left with
  | nil => exact Nat.le_refl _
  | cons b bound ih =>
      unfold Frugal sumRest
      rw [ends_bind, ends_current]
      split
      next => exact Nat.le_refl _
      next operator hoperator =>
        have hadvance := State.worth_advance (ne_eof_of_eq_some hoperator rfl)
        simp only [ends_bind, ends_advance]
        refine thrifty_required (thrifty_primary hE s.advance) (by omega) ?_
        intro right s₁ hright
        simp only [ends_lineOf, ends_add]
        have hsum := State.worth_add s₁ (.sum operator left right) (s₁.tree.line left)
        refine (ih _ _).imp ?_ ?_
        · intro id s' h
          omega
        · intro e s' h
          omega

theorem thrifty_sum (hE : ∀ s, Thrifty E s) (s : State) : Thrifty (sum E) s := by
  unfold Thrifty sum
  rw [ends_bind]
  refine (thrifty_primary hE s).within (Nat.le_refl _) ?_
  intro answer s₁ hfirst
  cases answer with
  | none => exact hfirst
  | some left =>
      simp only [Option.toList_some, List.length_singleton] at hfirst
      simp only [ends_bind, ends_ahead]
      refine (frugal_sumRest hE s₁.stream.ahead left s₁).imp ?_ ?_
      · intro id s' h
        simp only [ends_pure, Option.toList_some, List.length_singleton]
        omega
      · intro e s' h
        omega

theorem thrifty_expression (limit levels : Nat) (s : State) :
    Thrifty (expression limit levels) s := by
  induction levels generalizing s with
  | zero => exact Nat.le_refl _
  | succ levels ih => exact thrifty_sum ih s

theorem thrifty_operand (limit : Nat) (s : State) : Thrifty (operand limit) s := by
  unfold Thrifty operand
  rw [ends_bind]
  refine (thrifty_expression limit limit s).within (Nat.le_refl _) ?_
  intro answer s₁ hfirst
  cases answer with
  | none => exact hfirst
  | some id =>
      simp only [Option.toList_some, List.length_singleton] at hfirst
      simp only [ends_bind, ends_current, ends_ite, ends_advance, ends_pure]
      constructor
      · intro hcomma
        have hadvance := State.worth_advance (s := s₁) (by rw [hcomma]; decide)
        split
        next =>
          rw [ends_throw]
          omega
        next w hw =>
          have hregister := State.worth_advance (ne_eof_of_eq_some hw rfl)
          simp only [ends_bind, ends_advance, ends_lineOf, ends_add, ends_pure, State.worth_add,
            Option.toList_some, List.length_singleton]
          omega
      · intro _
        exact hfirst

/-! ## Items -/

theorem frugal_operandOf (limit : Nat) (token : Token) (c : OperandClass) (s : State) :
    Frugal (operandOf limit token c) s := by
  have honLine : Frugal (operandOf.onLineOf limit token) s := by
    unfold Frugal operandOf.onLineOf
    rw [ends_bind, ends_current, ends_ite]
    constructor
    · intro _
      refine (thrifty_operand limit s).within (Nat.le_refl _) ?_
      intro answer s' h
      omega
    · intro _
      exact Nat.le_refl _
  cases c with
  | implied => exact Nat.le_refl _
  | memory =>
      simp only [Frugal, operandOf, ends_bind]
      refine honLine.imp_post ?_
      intro answer s' h
      cases answer with
      | none => exact h
      | some id => exact h
  | accumulator => exact honLine
  | target =>
      simp only [Frugal, operandOf, ends_bind, ends_expect, ends_add, ends_pure,
        State.worth_add]
      constructor
      · intro hname
        have hadvance := State.worth_advance (s := s) (by rw [hname]; decide)
        omega
      · intro _
        exact Nat.le_refl _

theorem thrifty_instruction (limit : Nat) (m : Mnemonic) (h : s.current.kind ≠ .eof) :
    Thrifty (instruction limit m) s := by
  have hadvance := State.worth_advance h
  unfold Thrifty instruction
  simp only [ends_bind, ends_current, ends_advance]
  refine (frugal_operandOf limit s.current m.operandClass s.advance).imp ?_ ?_
  · intro operand s' hoperand
    simp only [ends_add, ends_pure, State.worth_add, Option.toList_some, List.length_singleton]
    omega
  · intro e s' hfail
    omega

/-- Each expression of a data list has left a unit, which pays for its cell. -/
theorem thrifty_dataRest (limit : Nat) (bound : List Token) (done : List NodeId) (s : State) :
    Ends (dataRest limit bound done) s
      (fun ids s' => s'.worth + ids.length ≤ s.worth + done.length)
      (fun _ s' => s'.worth ≤ s.worth) := by
  have hdone (done : List NodeId) (s : State) :
      s.worth + done.reverse.length ≤ s.worth + done.length := by simp
  induction bound generalizing s done with
  | nil => exact hdone done s
  | cons b bound ih =>
      unfold dataRest
      simp only [ends_bind, ends_current, ends_ite, ends_advance, ends_pure]
      constructor
      · intro _
        have hcomma := State.worth_advance_le s
        refine (thrifty_expression limit limit s.advance).within hcomma ?_
        intro answer s₁ hanswer
        cases answer with
        | none =>
            simp only [Option.toList_none, List.length_nil] at hanswer
            simp only [ends_pure, List.length_reverse]
            omega
        | some id =>
            simp only [Option.toList_some, List.length_singleton] at hanswer
            refine (ih (id :: done) s₁).imp ?_ ?_
            · intro ids s' h
              rw [List.length_cons] at h
              omega
            · intro e s' h
              omega
      · intro _
        exact hdone done s

theorem frugal_dataList (limit : Nat) (s : State) : Frugal (dataList limit) s := by
  unfold Frugal dataList
  rw [ends_bind]
  refine (thrifty_expression limit limit s).within (Nat.le_refl _) ?_
  intro answer s₁ hfirst
  cases answer with
  | none => exact hfirst
  | some id =>
      simp only [Option.toList_some, List.length_singleton] at hfirst
      simp only [ends_bind, ends_ahead]
      refine (thrifty_dataRest limit s₁.stream.ahead [id] s₁).imp ?_ ?_
      · intro ids s' h
        simp only [List.length_singleton] at h
        simp only [ends_addList, State.worth_addList]
        omega
      · intro e s' h
        omega

theorem thrifty_data (limit : Nat) (width : DataWidth) (h : s.current.kind ≠ .eof) :
    Thrifty (data limit width) s := by
  have hadvance := State.worth_advance h
  unfold Thrifty data
  simp only [ends_bind, ends_current, ends_advance, ends_ite, ends_pure]
  constructor
  · intro _
    refine (frugal_dataList limit s.advance).imp ?_ ?_
    · intro answer s' hlist
      cases answer with
      | none =>
          simp only [ends_bind, ends_diagnose, ends_pure, State.worth_diagnose,
            Option.toList_none, List.length_nil]
          omega
      | some head =>
          simp only [ends_bind, ends_add, ends_pure, State.worth_add, Option.toList_some,
            List.length_singleton]
          omega
    · intro e s' hfail
      omega
  · intro _
    simp only [ends_diagnose, State.worth_diagnose, Option.toList_none, List.length_nil]
    omega

theorem thrifty_item {item : Parser (Option NodeId)}
    (h : item? limit s.current.kind = some item) : Thrifty item s := by
  have hcurrent : s.current.kind ≠ .eof := ne_eof_of_eq_some h rfl
  unfold item? at h
  split at h
  next m _ =>
    cases h
    exact thrifty_instruction limit m hcurrent
  next =>
    cases h
    exact thrifty_data limit .byte hcurrent
  next =>
    cases h
    exact thrifty_data limit .word hcurrent
  next => cases h

/-! ## Blocks and statements -/

theorem worth_blockItems_le (limit : Nat) (bound : List Token) (done : List NodeId) (s : State) :
    (blockItems limit bound done s).2.worth + (blockItems limit bound done s).1.length ≤
      s.worth + done.length := by
  induction bound generalizing done s with
  | nil => simp [blockItems]
  | cons b bound ih =>
      unfold blockItems
      split
      next => simp
      next =>
        split
        next =>
          have hskip := State.worth_skipDirective_le s
          have hrest := ih done s.skipDirective
          omega
        next =>
          split
          next =>
            have hskip := State.worth_skip_le s .stall
            have hrest := ih done (s.skip .stall)
            omega
          next item hitem =>
            have hthrifty := thrifty_item hitem
            unfold Thrifty Ends at hthrifty
            split
            next found s' hrun =>
              rw [hrun] at hthrifty
              have hrest := ih (found.toList ++ done) s'
              rw [List.length_append] at hrest
              omega
            next e s' hrun =>
              rw [hrun] at hthrifty
              have hrecover := State.worth_recover_le s' e
              simp only [List.length_reverse]
              omega

/-- The items of a block have paid for their cells. -/
theorem worth_block_le (limit : Nat) (s : State) : (block limit s).2.worth ≤ s.worth := by
  have hitems := worth_blockItems_le limit s.stream.ahead [] s
  rw [List.length_nil] at hitems
  unfold block
  simp only [State.worth_addList]
  omega

theorem worth_addLabels (labels : List Token) (x : Option NodeId × State) :
    (addLabels labels x).2.worth = x.2.worth + labels.length := by
  induction labels with
  | nil => rfl
  | cons label labels ih =>
      rw [addLabels_cons, addLabel, State.worth_add, ih, List.length_cons]
      omega

/-- Each label pays for its own node; only the first one has been passed before. -/
theorem worth_labelSection_le (limit : Nat) (token : Token) (s : State) :
    (labelSection limit token s).worth ≤ s.worth + 1 := by
  have hblock := worth_block_le limit s.pastLabels
  have hchain := worth_addLabels s.labels (block limit s.pastLabels)
  have hlength : s.stream.ahead.length = s.labels.length + s.pastLabels.stream.ahead.length := by
    rw [← List.length_append, ← s.ahead_eq_labels]
  have hpast : s.pastLabels.worth + 2 * s.labels.length = s.worth := by
    show s.tree.size + 2 * s.pastLabels.stream.ahead.length + 2 * s.labels.length =
      s.tree.size + 2 * s.stream.ahead.length
    omega
  rw [labelSection_eq]
  dsimp only
  rw [State.worth_pushItem, addLabel, State.worth_add]
  omega

theorem frugal_declaration (limit : Nat) (hname : s.current.kind = .name) :
    Frugal (declaration limit) s := by
  have hfirst := State.worth_advance (s := s) (by rw [hname]; decide)
  have hsecond := State.worth_advance_le s.advance
  unfold Frugal declaration
  simp only [ends_bind, ends_current, ends_advance]
  refine thrifty_required (thrifty_expression limit limit s.advance.advance) (by omega) ?_
  intro value s' hvalue
  simp only [ends_add, State.worth_add]
  omega

theorem worth_statement_le (limit : Nat) (s : State) : (statement limit s).worth ≤ s.worth := by
  unfold statement
  dsimp only
  split
  next => exact State.worth_skipDirective_le s
  next hlabel =>
    have hadvance := State.worth_advance (s := s) (by rw [hlabel]; decide)
    have hsection := worth_labelSection_le limit s.current s.advance
    omega
  next hname =>
    split
    next =>
      have hdeclaration := frugal_declaration limit hname
      unfold Frugal Ends at hdeclaration
      split
      next id s' hrun =>
        rw [hrun] at hdeclaration
        rw [State.worth_pushItem]
        exact hdeclaration
      next e s' hrun =>
        rw [hrun] at hdeclaration
        exact Nat.le_trans (State.worth_recover_le s' e) hdeclaration
    next =>
      have hfirst := State.worth_advance (s := s) (by rw [hname]; decide)
      have hsecond := State.worth_advance_le s.advance
      have hsection := worth_labelSection_le limit s.current
        (s.advance.advance.diagnose (.detachedLabel s.current))
      rw [State.worth_diagnose] at hsection
      omega
    next => exact State.worth_skip_le s .strayName
  next => exact State.worth_skip_le s .noStatement

/-! ## Programs -/

theorem Rounds.worth_le {n : Nat} (h : Rounds (statementRound limit) n s s') :
    s'.worth ≤ s.worth := by
  refine (h.keeps (fun t => t.worth ≤ s.worth) (Nat.le_refl _) ?_).2
  intro x hx _
  exact Nat.le_trans (worth_statement_le limit x) hx

/-- The loops inside statements come to their own ends, each within as many rounds as
tokens are ahead, and never at their bounds. -/
structure InnerLoopsEnd (limit : Nat) : Prop where
  sums : ∀ (levels : Nat) (left : NodeId) (s : State), ∃ n ≤ s.remaining,
    Rounds (sumRound (expression limit levels)) n (left, s)
      (sumRest (expression limit levels) s.stream.ahead left s)
  dataLists : ∀ (done : List NodeId) (s : State), ∃ n ≤ s.remaining,
    Rounds (dataRound limit) n (done, s) (dataRest limit s.stream.ahead done s)
  blocks : ∀ (done : List NodeId) (s : State), ∃ n ≤ s.remaining,
    Rounds (blockRound limit) n (done, s) (blockItems limit s.stream.ahead done s)

theorem innerLoopsEnd (limit : Nat) : InnerLoopsEnd limit where
  sums levels left _ := sumRest_rounds limit levels left (Nat.le_refl _)
  dataLists done _ := dataRest_rounds limit done (Nat.le_refl _)
  blocks done _ := blockItems_rounds limit done (Nat.le_refl _)

/-- There are at most as many entries as tokens. -/
theorem length_entries_le (account : List Statement) :
    (account.filterMap Statement.entry?).length ≤ (account.flatMap Statement.tokens).length := by
  refine Nat.le_trans (List.length_filterMap_le _ _) ?_
  induction account with
  | nil => exact Nat.le_refl _
  | cons st account ih =>
      have hpos := List.length_pos_iff.2 st.tokens_ne_nil
      rw [List.flatMap_cons, List.length_append, List.length_cons]
      omega

/-- Let `n` be the number of tokens before the first end.  Whatever the tokens and the
limit are, reading ends: no loop is cut short by its bound, and there are at most `n`
statements.  It is never given up, it reports at most `n` problems, and it leaves a tree
with at most `n` items and at most `2 * n + 1` nodes, those out of reach included. -/
theorem program_linear (limit : Nat) (ts : List Token) :
    let n := (ts.takeWhile TokenStream.isProper).length
    let outcome := program limit ts
    InnerLoopsEnd limit ∧
      (∃ rounds ≤ n, ∃ s', Rounds (statementRound limit) rounds (State.start ts) s' ∧
        outcome = ⟨s'.tree, s'.diagnostics.toList⟩) ∧
      (∀ d ∈ outcome.diagnostics, d.kind ≠ .recoveryExhausted) ∧
      outcome.diagnostics.length ≤ n ∧ outcome.tree.items.length ≤ n ∧
      outcome.tree.size ≤ 2 * n + 1 := by
  intro n outcome
  obtain ⟨rounds, s', account, hrounds, hrun, houtcome, haccount, hahead⟩ :=
    program_accounts limit ts
  have htokens : (account.flatMap Statement.tokens).length = n := by
    rw [← List.append_nil (account.flatMap Statement.tokens), ← hahead, ← haccount.tokens_eq]
  have houtcome : outcome = ⟨s'.tree, s'.diagnostics.toList⟩ := houtcome
  refine ⟨innerLoopsEnd limit, ⟨rounds, hrounds, s', hrun, houtcome⟩, ?_, ?_, ?_, ?_⟩
  · intro d hd
    rw [houtcome, haccount.diagnostics_eq] at hd
    obtain ⟨st, _, hst⟩ := List.mem_flatMap.1 hd
    exact st.kind_ne_of_mem_reports hst
  · rw [houtcome, haccount.diagnostics_eq, ← htokens]
    exact length_flatMap_le Statement.length_reports_le account
  · rw [houtcome, haccount.shows.shown.length_eq, ← htokens]
    exact length_entries_le account
  · have hworth := hrun.worth_le
    rw [State.worth_start] at hworth
    rw [houtcome]
    exact Nat.le_trans (Nat.le_add_right _ _) hworth

end Asm6502.Parser
