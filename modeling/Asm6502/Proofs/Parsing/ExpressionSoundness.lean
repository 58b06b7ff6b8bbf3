import Asm6502.Parser.Expression
import Asm6502.Proofs.Parsing.Runs
import Asm6502.Proofs.Parsing.Syntax

/-!
# What the parser of expressions answers

Whatever the tokens are, an answer of the expression parser is an expression: the
tokens passed spell one out, the node answered shows it, and it groups the way
canonical expressions do.  Where no expression starts, nothing is touched.  A
failure reports nothing by itself, leaves what was read behind, out of reach, and has
passed no label.

The grouping rests on one observation.  An expression ends only where no plus or
minus sign follows.  A signed expression ends where what it applies to does, so
nothing can be added to it on the right, and it comes last in every sum.

## Main results

* `expression_ends`, `operand_ends` — the answers of the two parsers.
* `expression_of_isStop`, `operand_of_isStop` — their answers where statements end.
-/

namespace Asm6502.Parser

open Syntax

variable {s s' : State} {levels limit : Nat} {E : Parser (Option NodeId)}

/-- Between the two states, exactly the expression has been read, and node `id` shows
it. -/
structure ReadsExpression (s s' : State) (e : Expression) (id : NodeId) : Prop where
  reads : s.Reads s' e.tokens []
  shown : e.ShownAt s'.tree id
  canonical : e.Canonical

/-- A failure in the state `s'`: some tokens were passed, no label among them, and
nothing was reported. -/
def Abandoned (s : State) (_ : Failure) (s' : State) : Prop :=
  ∃ passed, s.Reads s' passed [] ∧ Interior passed

/-- The answer of the expression parser with the given number of levels left. -/
def ExpressionAnswer (levels : Nat) (s : State) (answer : Option NodeId) (s' : State) : Prop :=
  match answer with
  | none => s' = s
  | some id => ∃ e, ReadsExpression s s' e id ∧ e.depth < levels ∧
      sumOperator? s'.current.kind = none

/-- The answer of the parser of primaries, whose parts nest less than `levels` deep.
What ends with a signed expression cannot be gone on with. -/
def PrimaryAnswer (levels : Nat) (s : State) (answer : Option NodeId) (s' : State) : Prop :=
  match answer with
  | none => s' = s
  | some id => ∃ e, ReadsExpression s s' e id ∧ e.isSum = false ∧ e.depth ≤ levels ∧
      (e.isOpen = true → sumOperator? s'.current.kind = none)

theorem ends_required {after : Token} {post : NodeId → State → Prop}
    {fail : Failure → State → Prop} :
    Ends (required E after) s post fail ↔
      Ends E s (fun answer s' =>
        match answer with
        | some id => post id s'
        | none => fail (.noExpression after.text s'.current.position) s') fail := by
  unfold required
  rw [ends_bind]
  constructor
  all_goals
    intro h
    refine h.imp_post ?_
    intro answer s' ha
    cases answer <;> exact ha

/-- A failure behind tokens that have been passed. -/
theorem Abandoned.behind {passed : List Token} {e : Failure} {s₀ : State}
    (h : s₀.Reads s passed []) (hpassed : Interior passed) (ha : Abandoned s e s') :
    Abandoned s₀ e s' := by
  obtain ⟨more, hmore, hinterior⟩ := ha
  exact ⟨_, h.trans hmore, hpassed.append hinterior⟩

theorem Abandoned.here {passed : List Token} {e : Failure} (h : s.Reads s' passed [])
    (hpassed : Interior passed) : Abandoned s e s' := ⟨passed, h, hpassed⟩

/-! ## Putting expressions together -/

/-- A node may be added around an expression that is there. -/
theorem reads_wrap {e : Expression} {id : NodeId} (h : e.ShownAt s.tree id) (w : Wrapper)
    (line : Nat) : s.Reads (s.add (.wrap w id) line).2 [] [] :=
  State.reads_add line (by simpa [Node.Kind.children] using h.isInner)

/-- So may a node for two expressions that are there. -/
theorem reads_sum {left right : Expression} {l r : NodeId} (hl : left.ShownAt s.tree l)
    (hr : right.ShownAt s.tree r) (operator : SumOperator) (line : Nat) :
    s.Reads (s.add (.sum operator l r) line).2 [] [] :=
  State.reads_add line (by simpa [Node.Kind.children] using ⟨hl.isInner, hr.isInner⟩)

namespace ReadsExpression

variable {s₀ s₁ : State}

/-- A node for a single token. -/
theorem leaf {k : Node.Kind} {e : Expression} {t : Token} (hleaf : k.children = [])
    (hpassed : s.Reads s₁ [t] []) (htokens : e.tokens = [t]) (hcanonical : e.Canonical)
    (hshown : ∀ tree id, tree.node id = ⟨k, t.line⟩ → e.ShownAt tree id) :
    ReadsExpression s (s₁.add k t.line).2 e (s₁.add k t.line).1 where
  reads := by
    have hadd : s₁.Reads (s₁.add k t.line).2 [] [] := State.reads_add _ (by simp [hleaf])
    have hreads := hpassed.trans hadd
    rw [List.append_nil, ← htokens] at hreads
    exact hreads
  shown := hshown _ _ (State.node_add ..)
  canonical := hcanonical

/-- A node for a sign around what it applies to. -/
theorem signed {sign : Token} {w : Wrapper} {body : Expression} {child : NodeId}
    (isSign : signWrapper? sign.kind = some w) (hpassed : s.Reads s₁ [sign] [])
    (hbody : ReadsExpression s₁ s' body child) :
    ReadsExpression s (s'.add (.wrap w child) sign.line).2 (.signed sign w isSign body)
      (s'.add (.wrap w child) sign.line).1 where
  reads := by
    have hreads := (hpassed.trans hbody.reads).trans (reads_wrap hbody.shown w sign.line)
    rw [List.append_nil] at hreads
    exact hreads
  shown := by
    have hadd := reads_wrap hbody.shown w sign.line
    exact ⟨child, State.node_add .., hbody.shown.keeps hadd.grows.keeps⟩
  canonical := hbody.canonical

/-- A node for parentheses around an expression. -/
theorem parens {opening closing : Token} {body : Expression} {child : NodeId} {s₂ : State}
    (isOpening : opening.kind = .parenLeft) (isClosing : closing.kind = .parenRight)
    (hpassed : s.Reads s₁ [opening] []) (hbody : ReadsExpression s₁ s₂ body child)
    (hclosed : s₂.Reads s' [closing] []) :
    ReadsExpression s (s'.add (.wrap .indirect child) opening.line).2
      (.parens opening isOpening body closing isClosing)
      (s'.add (.wrap .indirect child) opening.line).1 where
  reads := by
    have hkept := hbody.shown.keeps hclosed.grows.keeps
    have hreads := ((hpassed.trans hbody.reads).trans hclosed).trans
      (reads_wrap hkept .indirect opening.line)
    simpa [Expression.tokens] using hreads
  shown := by
    have hkept := hbody.shown.keeps hclosed.grows.keeps
    have hadd := reads_wrap hkept .indirect opening.line
    exact ⟨child, State.node_add .., hkept.keeps hadd.grows.keeps⟩
  canonical := hbody.canonical

/-- A node for two expressions with a sign between them. -/
theorem sum {left right : Expression} {sign : Token} {operator : SumOperator} {l r : NodeId}
    (isSign : sumOperator? sign.kind = some operator) (hleft : ReadsExpression s₀ s left l)
    (hpassed : s.Reads s₁ [sign] []) (hright : ReadsExpression s₁ s' right r)
    (hclosed : left.isOpen = false) (hgroups : right.isSum = false) :
    ReadsExpression s₀ (s'.add (.sum operator l r) (s'.tree.line l)).2
      (.sum left sign operator isSign right)
      (s'.add (.sum operator l r) (s'.tree.line l)).1 where
  reads := by
    have hkept := hleft.shown.keeps (hpassed.trans hright.reads).grows.keeps
    have hreads := ((hleft.reads.trans hpassed).trans hright.reads).trans
      (reads_sum hkept hright.shown operator (s'.tree.line l))
    simpa [Expression.tokens] using hreads
  shown := by
    have hkept := hleft.shown.keeps (hpassed.trans hright.reads).grows.keeps
    have hadd := reads_sum hkept hright.shown operator (s'.tree.line l)
    refine ⟨l, r, ?_, hkept.keeps hadd.grows.keeps, hright.shown.keeps hadd.grows.keeps⟩
    rw [← hkept.line_eq]
    exact State.node_add ..
  canonical := ⟨hleft.canonical, hright.canonical, hclosed, hgroups⟩

/-- A node for an index behind an expression. -/
theorem indexed {e : Expression} {comma register : Token} {wrapper : Wrapper} {id : NodeId}
    (isComma : comma.kind = .comma) (isRegister : indexWrapper? register.kind = some wrapper)
    (he : ReadsExpression s s' e id) (hpassed : s'.Reads s₁ [comma, register] []) :
    s.Reads (s₁.add (.wrap wrapper id) (s₁.tree.line id)).2
        (Operand.indexed e comma isComma register wrapper isRegister).tokens [] ∧
      (Operand.indexed e comma isComma register wrapper isRegister).ShownAt
        (s₁.add (.wrap wrapper id) (s₁.tree.line id)).2.tree
        (s₁.add (.wrap wrapper id) (s₁.tree.line id)).1 := by
  have hkept : e.ShownAt s₁.tree id := he.shown.keeps hpassed.grows.keeps
  have hadd := reads_wrap hkept wrapper (s₁.tree.line id)
  constructor
  · have hreads := (he.reads.trans hpassed).trans hadd
    simpa [Operand.tokens] using hreads
  · refine ⟨id, ?_, hkept.keeps hadd.grows.keeps⟩
    rw [← hkept.line_eq]
    exact State.node_add ..

end ReadsExpression

/-! ## Primaries -/

/-- A single token that is an expression. -/
theorem leaf_ends {k : Node.Kind} {e : Expression} (hleaf : k.children = [])
    (htokens : e.tokens = [s.current]) (hcurrent : s.current.kind ≠ .eof)
    (hclosed : e.isOpen = false) (hsum : e.isSum = false)
    (hcanonical : e.Canonical) (hdepth : e.depth = 0)
    (hshown : ∀ t id, t.node id = ⟨k, s.current.line⟩ → e.ShownAt t id) :
    Ends (leaf k) s (PrimaryAnswer levels s) (Abandoned s) := by
  unfold leaf
  simp only [ends_bind, ends_current, ends_advance, ends_add, ends_pure]
  refine ⟨e, .leaf hleaf (State.reads_advance hcurrent) htokens hcanonical hshown, hsum, ?_, ?_⟩
  · rw [hdepth]
    exact Nat.zero_le _
  · intro hopen
    rw [hclosed] at hopen
    cases hopen

theorem signed_ends {w : Wrapper} (hE : ∀ s, Ends E s (ExpressionAnswer levels s) (Abandoned s))
    (hw : signWrapper? s.current.kind = some w) :
    Ends (signed E w) s (PrimaryAnswer levels s) (Abandoned s) := by
  have hpassed := State.reads_advance (ne_eof_of_eq_some hw rfl)
  have hsign : Interior [s.current] := .of_eq_some hw rfl rfl
  unfold signed
  simp only [ends_bind, ends_current, ends_advance, ends_required, ends_add, ends_pure]
  refine (hE s.advance).imp ?_ fun _ _ => .behind hpassed hsign
  intro answer s' ha
  cases answer with
  | none =>
      cases ha
      exact .here hpassed hsign
  | some child =>
      obtain ⟨e, he, hdepth, hends⟩ := ha
      exact ⟨.signed s.current w hw e, .signed hw hpassed he, rfl, hdepth, fun _ => hends⟩

theorem parenthesised_ends
    (hE : ∀ s, Ends E s (ExpressionAnswer levels s) (Abandoned s))
    (hopening : s.current.kind = .parenLeft) :
    Ends (parenthesised E) s (PrimaryAnswer levels s) (Abandoned s) := by
  have hpassed := State.reads_advance (s := s) (by rw [hopening]; decide)
  have hinterior : Interior [s.current] := .of_kind hopening (by decide) (by decide)
  unfold parenthesised
  simp only [ends_bind, ends_current, ends_advance, ends_required, ends_expect, ends_add,
    ends_pure]
  refine (hE s.advance).imp ?_ fun _ _ => .behind hpassed hinterior
  intro answer s' ha
  cases answer with
  | none =>
      cases ha
      exact .here hpassed hinterior
  | some child =>
      obtain ⟨e, he, hdepth, _⟩ := ha
      have hbody := hpassed.trans he.reads
      refine ⟨?_, fun _ => .here hbody (hinterior.append e.interior)⟩
      intro hclosing
      have hclose := State.reads_advance (s := s') (by rw [hclosing]; decide)
      refine ⟨.parens s.current hopening e s'.current hclosing,
        .parens hopening hclosing hpassed he hclose, rfl, hdepth, ?_⟩
      intro hopen
      cases hopen

theorem primary_ends (hE : ∀ s, Ends E s (ExpressionAnswer levels s) (Abandoned s)) (s : State) :
    Ends (primary E) s (PrimaryAnswer levels s) (Abandoned s) := by
  have hconst (hk : s.current.kind.isConstant = true) (hcurrent : s.current.kind ≠ .eof) :
      Ends (leaf (.const s.current.text)) s (PrimaryAnswer levels s) (Abandoned s) :=
    leaf_ends (e := .const s.current hk) rfl rfl hcurrent rfl rfl trivial rfl fun _ _ h => h
  unfold primary
  rw [ends_bind, ends_current]
  split
  next hk =>
    exact leaf_ends (e := .name s.current hk) rfl rfl (by rw [hk]; decide) rfl rfl trivial rfl
      fun _ _ h => h
  next hk => exact hconst (by rw [hk]; rfl) (by rw [hk]; decide)
  next hk => exact hconst (by rw [hk]; rfl) (by rw [hk]; decide)
  next hk => exact hconst (by rw [hk]; rfl) (by rw [hk]; decide)
  next hk => exact signed_ends hE (by rw [hk]; rfl)
  next hk => exact signed_ends hE (by rw [hk]; rfl)
  next hk => exact signed_ends hE (by rw [hk]; rfl)
  next hk => exact parenthesised_ends hE hk
  next => exact rfl

/-! ## Sums -/

/-- Where the tokens are over, no sum goes on. -/
theorem sumOperator?_current_of_nil (h : s.stream.ahead = []) :
    sumOperator? s.current.kind = none := by
  rw [State.current_of_nil h]
  rfl

/-- The rest of a sum, behind its part `left`.  The bound is no restriction if it is
as long as the tokens ahead. -/
theorem sumRest_ends (hE : ∀ s, Ends E s (ExpressionAnswer levels s) (Abandoned s))
    (bound : List Token) {s₀ s : State} {left : NodeId} {e : Expression}
    (hbound : s.stream.ahead.length ≤ bound.length) (he : ReadsExpression s₀ s e left)
    (hdepth : e.depth ≤ levels)
    (hends : e.isOpen = true → sumOperator? s.current.kind = none) :
    Ends (sumRest E bound left) s
      (fun id s' => ∃ e', ReadsExpression s₀ s' e' id ∧ e'.depth ≤ levels ∧
        sumOperator? s'.current.kind = none)
      (Abandoned s₀) := by
  induction bound generalizing s left e with
  | nil =>
      have hahead := List.eq_nil_of_length_eq_zero (Nat.le_zero.1 hbound)
      exact ⟨e, he, hdepth, sumOperator?_current_of_nil hahead⟩
  | cons b bound ih =>
      unfold sumRest
      rw [ends_bind, ends_current]
      split
      next hnone => exact ⟨e, he, hdepth, hnone⟩
      next operator hoperator =>
        have hclosed : e.isOpen = false := by
          rw [Bool.eq_false_iff]
          intro hopen
          rw [hends hopen] at hoperator
          cases hoperator
        have hsign := State.reads_advance (ne_eof_of_eq_some hoperator rfl)
        have hpassed := he.reads.trans hsign
        have hinterior := e.interior.append (Interior.of_eq_some hoperator rfl rfl)
        simp only [ends_bind, ends_advance, ends_required, ends_lineOf, ends_add]
        refine (primary_ends hE s.advance).imp ?_ fun _ _ => .behind hpassed hinterior
        intro answer s₁ ha
        cases answer with
        | none =>
            cases ha
            exact .here hpassed hinterior
        | some right =>
            obtain ⟨e₁, he₁, hsum, hdepth₁, hends₁⟩ := ha
            have hkept := he.shown.keeps (hsign.trans he₁.reads).grows.keeps
            have hadd := reads_sum hkept he₁.shown operator (s₁.tree.line left)
            refine ih ?_ (.sum hoperator he hsign he₁ hclosed hsum)
              (Nat.max_le.2 ⟨hdepth, hdepth₁⟩) hends₁
            have hlength := congrArg List.length (hsign.trans (he₁.reads.trans hadd)).ahead_eq
            simp only [List.length_append, List.length_cons] at hlength hbound
            omega

theorem sum_ends (hE : ∀ s, Ends E s (ExpressionAnswer levels s) (Abandoned s)) (s : State) :
    Ends (sum E) s (ExpressionAnswer (levels + 1) s) (Abandoned s) := by
  unfold sum
  rw [ends_bind]
  refine (primary_ends hE s).imp_post ?_
  intro answer s' ha
  cases answer with
  | none => exact ha
  | some left =>
      obtain ⟨e, he, _, hdepth, hends⟩ := ha
      simp only [ends_bind, ends_ahead, ends_pure]
      refine (sumRest_ends hE _ (Nat.le_refl _) he hdepth hends).imp_post ?_
      rintro id s'' ⟨e', he', hdepth', hends'⟩
      exact ⟨e', he', Nat.lt_succ_of_le hdepth', hends'⟩

/-- The answers of the expression parser. -/
theorem expression_ends (limit levels : Nat) (s : State) :
    Ends (expression limit levels) s (ExpressionAnswer levels s) (Abandoned s) := by
  induction levels generalizing s with
  | zero => exact ⟨[], .refl s, .nil⟩
  | succ levels ih => exact sum_ends ih s

/-! ## Operands -/

/-- The answer of the operand parser. -/
def OperandAnswer (limit : Nat) (s : State) (answer : Option NodeId) (s' : State) : Prop :=
  match answer with
  | none => s' = s
  | some id => ∃ o : Operand, s.Reads s' o.tokens [] ∧ o.ShownAt s'.tree id ∧
      o.expression.Fits limit

theorem operand_ends (limit : Nat) (s : State) :
    Ends (operand limit) s (OperandAnswer limit s) (Abandoned s) := by
  unfold operand
  rw [ends_bind]
  refine (expression_ends limit limit s).imp_post ?_
  intro answer s' ha
  cases answer with
  | none => exact ha
  | some id =>
      obtain ⟨e, he, hdepth, _⟩ := ha
      have hfits : e.Fits limit := ⟨he.canonical, hdepth⟩
      simp only [ends_bind, ends_current, ends_ite, ends_advance, ends_pure]
      refine ⟨?_, fun _ => ⟨.plain e, he.reads, he.shown, hfits⟩⟩
      intro hcomma
      have hcommaPassed := State.reads_advance (s := s') (by rw [hcomma]; decide)
      split
      next =>
        rw [ends_throw]
        exact .here (he.reads.trans hcommaPassed)
          (e.interior.append (.of_kind hcomma (by decide) (by decide)))
      next w hw =>
        simp only [ends_bind, ends_advance, ends_lineOf, ends_add, ends_pure]
        obtain ⟨hreads, hshown⟩ := he.indexed hcomma hw
          (hcommaPassed.trans (State.reads_advance (ne_eof_of_eq_some hw rfl)))
        exact ⟨.indexed e s'.current hcomma s'.advance.current w hw, hreads, hshown, hfits⟩

/-! ## Where no expression starts -/

theorem primary_of_isStop (h : IsStop s.current.kind) : primary E s = .ok none s := by
  unfold primary
  rcases h with h | h
  · simp only [bind, EStateM.bind, current, h]
    rfl
  · simp only [bind, EStateM.bind, current, h]
    rfl

theorem expression_of_isStop (limit levels : Nat) (h : IsStop s.current.kind) :
    expression limit (levels + 1) s = .ok none s := by
  show sum (expression limit levels) s = _
  unfold sum
  simp only [bind, EStateM.bind, primary_of_isStop h]
  rfl

theorem operand_of_isStop (hlimit : 1 ≤ limit) (h : IsStop s.current.kind) :
    operand limit s = .ok none s := by
  obtain ⟨levels, rfl⟩ := Nat.exists_eq_add_of_le' hlimit
  unfold operand
  simp only [bind, EStateM.bind, expression_of_isStop (levels + 1) levels h]
  rfl

end Asm6502.Parser
