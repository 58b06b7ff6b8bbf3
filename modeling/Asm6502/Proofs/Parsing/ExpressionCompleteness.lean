import Asm6502.Proofs.Parsing.ExpressionSoundness

/-!
# Expressions are read back

The tokens of a canonical expression are read back as this expression, wherever
they stand, provided that the next token cannot go on with them.  A plus or minus
sign behind would.  So would a comma behind an operand.

The parser meets a sum from the left, its first part first, while the grammar
builds it from its last sign.  The two fit together once the statement about a sum
is one about everything still to be read: whoever can go on behind the sum can
already go on at its first part (`sum_reads_back_of`).

## Main results

* `expression_reads_back`, `operand_reads_back` — completeness of the two parsers.
-/

namespace Asm6502.Parser

open Syntax

variable {s s' : State} {levels limit : Nat} {E : Parser (Option NodeId)}
  {fail : Failure → State → Prop}

/-- No token, or one that does not go on with a sum. -/
def EndsSum (rest : List Token) : Prop := ∀ t ∈ rest.head?, sumOperator? t.kind = none

theorem sumOperator?_current (h : EndsSum s.stream.ahead) : sumOperator? s.current.kind = none :=
  State.current_of_head? (p := fun k => sumOperator? k = none) h rfl

/-- The answer that is the expression `e`. -/
def ReadsBack (s : State) (e : Expression) (answer : Option NodeId) (s' : State) : Prop :=
  ∃ id, answer = some id ∧ ReadsExpression s s' e id

/-- The parser reads back the canonical expressions that nest less than `levels` deep. -/
def ReadsAll (levels : Nat) (E : Parser (Option NodeId)) : Prop :=
  ∀ (e : Expression) (s : State) (rest : List Token), e.Canonical → e.depth < levels →
    s.stream.ahead = e.tokens ++ rest → EndsSum rest → Ends E s (ReadsBack s e) Never

theorem ends_required_of_readsBack {e : Expression} {after : Token}
    {post : NodeId → State → Prop} (h : Ends E s (ReadsBack s e) Never)
    (hpost : ∀ id s', ReadsExpression s s' e id → post id s') :
    Ends (required E after) s post fail := by
  rw [ends_required]
  refine h.imp ?_ fun _ _ => False.elim
  rintro _ s' ⟨id, rfl, he⟩
  exact hpost id s' he

/-! ## Primaries -/

theorem leaf_reads_back {k : Node.Kind} {e : Expression} {t : Token} {rest : List Token}
    (hleaf : k.children = []) (hs : s.stream.ahead = t :: rest) (htokens : e.tokens = [t])
    (hcanonical : e.Canonical) (hshown : ∀ tree id, tree.node id = ⟨k, t.line⟩ → e.ShownAt tree id) :
    Ends (leaf k) s (ReadsBack s e) Never := by
  have hcurrent : s.current = t := State.current_eq_of_ahead hs
  unfold leaf
  simp only [ends_bind, ends_current, ends_advance, ends_add, ends_pure, hcurrent]
  exact ⟨_, rfl, .leaf hleaf (State.reads_advance_of_ahead hs) htokens hcanonical hshown⟩

theorem signed_reads_back (hE : ReadsAll levels E) {sign : Token} {w : Wrapper}
    (hsign : signWrapper? sign.kind = some w) {body : Expression} {rest : List Token}
    (hc : body.Canonical) (hdepth : body.depth < levels)
    (hs : s.stream.ahead = sign :: body.tokens ++ rest) (hrest : EndsSum rest) :
    Ends (signed E w) s (ReadsBack s (.signed sign w hsign body)) Never := by
  have hcurrent : s.current = sign := State.current_eq_of_ahead hs
  have hpassed := State.reads_advance_of_ahead hs
  unfold signed
  simp only [ends_bind, ends_current, ends_advance]
  refine ends_required_of_readsBack (hE body _ rest hc hdepth (State.ahead_advance hs) hrest) ?_
  intro child s' he
  simp only [ends_add, ends_pure, hcurrent]
  exact ⟨_, rfl, .signed hsign hpassed he⟩

theorem parenthesised_reads_back (hE : ReadsAll levels E) {opening closing : Token}
    (hopening : opening.kind = .parenLeft) (hclosing : closing.kind = .parenRight)
    {body : Expression} {rest : List Token} (hc : body.Canonical) (hdepth : body.depth < levels)
    (hs : s.stream.ahead = opening :: (body.tokens ++ closing :: rest)) :
    Ends (parenthesised E) s (ReadsBack s (.parens opening hopening body closing hclosing))
      Never := by
  have hcurrent : s.current = opening := State.current_eq_of_ahead hs
  have hpassed := State.reads_advance_of_ahead hs
  have hbehind : EndsSum (closing :: rest) := by
    intro t ht
    cases ht
    rw [hclosing]
    rfl
  unfold parenthesised
  simp only [ends_bind, ends_current, ends_advance]
  refine ends_required_of_readsBack (hE body _ _ hc hdepth (State.ahead_advance hs) hbehind) ?_
  intro child s' he
  have hahead : s'.stream.ahead = closing :: rest :=
    he.reads.ahead_eq_rest (State.ahead_advance hs)
  have hclose : s'.current = closing := State.current_eq_of_ahead hahead
  have hclosed := State.reads_advance_of_ahead hahead
  simp only [ends_expect, ends_add, ends_pure, hcurrent, hclose, hclosing, ne_eq,
    not_true_eq_false, false_implies, and_true, true_implies]
  exact ⟨_, rfl, .parens hopening hclosing hpassed he hclosed⟩

/-- What is not a sum is read back at once.  If it is closed, anything may follow. -/
theorem primary_reads_back (hE : ReadsAll levels E) {e : Expression} {rest : List Token}
    (hc : e.Canonical) (hsum : e.isSum = false) (hdepth : e.depth ≤ levels)
    (hs : s.stream.ahead = e.tokens ++ rest) (hrest : e.isOpen = true → EndsSum rest) :
    Ends (primary E) s (ReadsBack s e) Never := by
  unfold primary
  rw [ends_bind, ends_current]
  cases e with
  | sum => cases hsum
  | name t ht =>
      have hcurrent : s.current = t := State.current_eq_of_ahead hs
      rw [hcurrent, ht]
      exact leaf_reads_back rfl hs rfl hc fun _ _ h => h
  | const t ht =>
      have hcurrent : s.current = t := State.current_eq_of_ahead hs
      have hleaf : Ends (leaf (.const t.text)) s (ReadsBack s (.const t ht)) Never :=
        leaf_reads_back rfl hs rfl hc fun _ _ h => h
      rw [hcurrent]
      cases hk : t.kind with
      | hexConst | binConst | decConst => exact hleaf
      | _ =>
          rw [hk] at ht
          cases ht
  | signed sign w isSign body =>
      have hcurrent : s.current = sign := State.current_eq_of_ahead hs
      have hbody : body.Canonical := hc
      have hsigned := signed_reads_back hE isSign hbody (Nat.lt_of_succ_le hdepth) hs (hrest rfl)
      rw [hcurrent]
      cases hk : sign.kind with
      | hash | less | greater =>
          rw [hk] at isSign
          cases isSign
          exact hsigned
      | _ =>
          rw [hk] at isSign
          cases isSign
  | parens opening isOpening body closing isClosing =>
      have hcurrent : s.current = opening := State.current_eq_of_ahead hs
      have hs' : s.stream.ahead = opening :: (body.tokens ++ closing :: rest) := by
        rw [hs, Expression.tokens, List.cons_append, List.append_assoc]
        rfl
      rw [hcurrent, isOpening]
      exact parenthesised_reads_back hE isOpening isClosing hc (Nat.lt_of_succ_le hdepth) hs'

/-! ## Sums -/

/-- Where no sum goes on, its rest is empty. -/
theorem sumRest_of_none (bound : List Token) {left : NodeId} {post : NodeId → State → Prop}
    (h : sumOperator? s.current.kind = none)
    (hpost : post left s) : Ends (sumRest E bound left) s post fail := by
  cases bound with
  | nil => exact hpost
  | cons b bound =>
      unfold sumRest
      rw [ends_bind, ends_current, h]
      exact hpost

/-- One more link of a sum. -/
theorem sumRest_reads_back_of (hE : ReadsAll levels E) {s₀ : State} {left right : Expression}
    {sign : Token} {operator : SumOperator} {isSign : sumOperator? sign.kind = some operator}
    {l : NodeId} {bound rest : List Token} {post : NodeId → State → Prop}
    (hc : (Expression.sum left sign operator isSign right).Canonical)
    (hdepth : right.depth ≤ levels) (hleft : ReadsExpression s₀ s left l)
    (hs : s.stream.ahead = sign :: (right.tokens ++ rest))
    (hrest : right.isOpen = true → EndsSum rest)
    (hbound : s.stream.ahead.length ≤ bound.length)
    (hpost : ∀ bound' whole s', rest.length ≤ bound'.length → s'.stream.ahead = rest →
      ReadsExpression s₀ s' (.sum left sign operator isSign right) whole →
        Ends (sumRest E bound' whole) s' post fail) :
    Ends (sumRest E bound l) s post fail := by
  have hcurrent : s.current = sign := State.current_eq_of_ahead hs
  have hsign := State.reads_advance_of_ahead hs
  cases bound with
  | nil =>
      rw [hs] at hbound
      cases hbound
  | cons b bound =>
      unfold sumRest
      rw [ends_bind, ends_current, hcurrent, isSign]
      simp only [ends_bind, ends_advance]
      refine ends_required_of_readsBack (primary_reads_back hE hc.2.1 hc.2.2.2 hdepth
        (State.ahead_advance hs) hrest) ?_
      intro r s₁ hright
      simp only [ends_lineOf, ends_add]
      have hahead : s₁.stream.ahead = rest := hright.reads.ahead_eq_rest (State.ahead_advance hs)
      refine hpost bound _ _ ?_ hahead (.sum isSign hleft hsign hright hc.2.2.1 hc.2.2.2)
      rw [hs] at hbound
      simp only [List.length_cons, List.length_append] at hbound
      omega

/-- Going on behind the first part of a sum. -/
theorem sum_reads_back_of_primary (hE : ReadsAll levels E) {e : Expression} {rest : List Token}
    {post : NodeId → State → Prop} (hc : e.Canonical) (hsum : e.isSum = false)
    (hdepth : e.depth ≤ levels) (hs : s.stream.ahead = e.tokens ++ rest)
    (hrest : e.isOpen = true → EndsSum rest)
    (hpost : ∀ bound id s', rest.length ≤ bound.length → s'.stream.ahead = rest →
      ReadsExpression s s' e id → Ends (sumRest E bound id) s' post fail) :
    Ends (sum E) s (fun answer s' => ∃ id, answer = some id ∧ post id s') fail := by
  unfold sum
  rw [ends_bind]
  refine (primary_reads_back hE hc hsum hdepth hs hrest).imp ?_ fun _ _ => False.elim
  rintro _ s' ⟨id, rfl, he⟩
  have hahead : s'.stream.ahead = rest := he.reads.ahead_eq_rest hs
  simp only [ends_bind, ends_ahead, ends_pure]
  refine (hpost _ id s' (Nat.le_of_eq (by rw [hahead])) hahead he).imp_post ?_
  intro whole s'' hwhole
  exact ⟨whole, rfl, hwhole⟩

/-- Whoever can go on behind a canonical expression can go on in front of it. -/
theorem sum_reads_back_of (hE : ReadsAll levels E) {e : Expression} {rest : List Token}
    {post : NodeId → State → Prop} (hc : e.Canonical) (hdepth : e.depth ≤ levels)
    (hs : s.stream.ahead = e.tokens ++ rest) (hrest : e.isOpen = true → EndsSum rest)
    (hpost : ∀ bound id s', rest.length ≤ bound.length → s'.stream.ahead = rest →
      ReadsExpression s s' e id → Ends (sumRest E bound id) s' post fail) :
    Ends (sum E) s (fun answer s' => ∃ id, answer = some id ∧ post id s') fail := by
  induction e generalizing rest with
  | name => exact sum_reads_back_of_primary hE hc rfl hdepth hs hrest hpost
  | const => exact sum_reads_back_of_primary hE hc rfl hdepth hs hrest hpost
  | signed => exact sum_reads_back_of_primary hE hc rfl hdepth hs hrest hpost
  | parens => exact sum_reads_back_of_primary hE hc rfl hdepth hs hrest hpost
  | sum left sign operator isSign right ihLeft _ =>
      have hdepths := Nat.max_le.1 hdepth
      have hleft : s.stream.ahead = left.tokens ++ sign :: (right.tokens ++ rest) := by
        rw [hs, Expression.tokens, List.append_assoc]
        rfl
      refine ihLeft hc.1 hdepths.1 hleft ?_ ?_
      · intro hopen
        rw [hc.2.2.1] at hopen
        cases hopen
      · -- Going on behind the left operand is reading one more link and going on behind the sum.
        intro bound l s' hbound hahead he
        exact sumRest_reads_back_of hE hc hdepths.2 he hahead hrest (hahead ▸ hbound) hpost

theorem sum_reads_back (hE : ReadsAll levels E) : ReadsAll (levels + 1) (sum E) := by
  intro e s rest hc hdepth hs hrest
  refine sum_reads_back_of hE hc (Nat.le_of_lt_succ hdepth) hs (fun _ => hrest) ?_
  intro bound id s' _ hahead he
  exact sumRest_of_none bound (sumOperator?_current (hahead ▸ hrest)) he

/-- Canonical expressions that nest less than `levels` deep are read back. -/
theorem expression_reads_back (limit levels : Nat) : ReadsAll levels (expression limit levels) := by
  induction levels with
  | zero =>
      intro e s rest _ hdepth
      exact absurd hdepth (Nat.not_lt_zero _)
  | succ levels ih => exact sum_reads_back ih

/-! ## Operands -/

/-- What may follow an operand: nothing that goes on with it. -/
def EndsOperand (rest : List Token) : Prop :=
  EndsSum rest ∧ ∀ t ∈ rest.head?, t.kind ≠ .comma

theorem operand_reads_back {o : Operand} {rest : List Token} (hc : o.expression.Canonical)
    (hdepth : o.expression.depth < limit) (hs : s.stream.ahead = o.tokens ++ rest)
    (hrest : EndsOperand rest) :
    Ends (operand limit) s
      (fun answer s' => ∃ id, answer = some id ∧ s.Reads s' o.tokens [] ∧ o.ShownAt s'.tree id)
      Never := by
  unfold operand
  rw [ends_bind]
  cases o with
  | plain e =>
      refine (expression_reads_back limit limit e s rest hc hdepth hs hrest.1).imp_post ?_
      rintro _ s' ⟨id, rfl, he⟩
      have hcomma : s'.current.kind ≠ .comma :=
        State.current_of_head? (p := (· ≠ .comma)) (he.reads.ahead_eq_rest hs ▸ hrest.2) (by decide)
      simp only [ends_bind, ends_current, ends_ite, ends_pure]
      exact ⟨fun h => absurd h hcomma, fun _ => ⟨id, rfl, he.reads, he.shown⟩⟩
  | indexed e comma isComma register wrapper isRegister =>
      have hs' : s.stream.ahead = e.tokens ++ comma :: register :: rest := by
        rw [hs, Operand.tokens, List.append_assoc]
        rfl
      have hends : EndsSum (comma :: register :: rest) := by
        intro t ht
        cases ht
        rw [isComma]
        rfl
      refine (expression_reads_back limit limit e s _ hc hdepth hs' hends).imp_post ?_
      rintro _ s' ⟨id, rfl, he⟩
      have hahead : s'.stream.ahead = comma :: register :: rest := he.reads.ahead_eq_rest hs'
      have hahead' : s'.advance.stream.ahead = register :: rest := State.ahead_advance hahead
      have hcomma : s'.current = comma := State.current_eq_of_ahead hahead
      have hregister : s'.advance.current = register := State.current_eq_of_ahead hahead'
      have hpassed := (State.reads_advance_of_ahead hahead).trans
        (State.reads_advance_of_ahead hahead')
      simp only [ends_bind, ends_current, ends_ite, ends_advance]
      refine ⟨fun _ => ?_, fun h => absurd (hcomma ▸ isComma) h⟩
      rw [hregister, isRegister]
      simp only [ends_bind, ends_advance, ends_lineOf, ends_add, ends_pure]
      exact ⟨_, rfl, he.indexed isComma isRegister hpassed⟩

end Asm6502.Parser
