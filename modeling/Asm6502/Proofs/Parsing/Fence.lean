import Asm6502.Proofs.Parsing.Progress

/-!
# Names that stop whatever is being read

A name with a colon behind it is a place where a statement can start, and where the name
begins a line nothing in front of it should take it.  Much of what is read does look
whether the line has ended, and much does not: an expression goes on behind an operator, a sign
or an opening parenthesis, a list of data behind its comma, and the value of a declaration and
the target of a branch are taken from wherever they stand.  Unless one of these has been begun
and reaches up to the name, nothing takes the name: it stands like a fence between what is in
front of it and what is behind.

The beginnings are told by the tokens alone.  Whether a token asks for more depends on what the
parser was reading when it came to the token: behind an operator that nothing has led up to, or
behind a branch that is in no code block, the name is left alone.

The invariant is that the name has not been passed, unless a beginning reaches up to it.  All
parsers keep it, wherever they start in front of the name.  So at last a statement starts at the
name, and finds the label.

## Main results

* `Fence.stops_expression`, `Fence.stops_item` — what starts in front of the name ends
  there at the latest, unless it asks for the name.
* `Fence.Coming.statement` — so does a statement, with all that is given up in it.
* `Fence.reports` — the name is reported as a label.
-/

namespace Asm6502

/-- Whether a token is a sign or a parenthesis in front of an expression. -/
def Token.Kind.opens : Kind → Bool
  | .hash | .less | .greater | .parenLeft => true
  | _ => false

namespace Syntax

/-! ## What asks for more -/

/-- Nothing, or what can stand in a sum in front of a part: other parts and a sign.  The last one
in front of the sign ends by itself. -/
inductive SumFront (levels : Nat) : List Token → Prop where
  | nothing : SumFront levels []
  | parts {left : Expression} {sign : Token} {operator : SumOperator} (canonical : left.Canonical)
      (closed : left.isOpen = false) (depth_le : left.depth ≤ levels)
      (isSign : Parser.sumOperator? sign.kind = some operator) :
      SumFront levels (left.tokens ++ [sign])

/-- The tokens of a part of a sum up to where a name may stand: in its place, or in what it opens,
where one may stand behind what `asks`. -/
inductive PartAsks (asks : List Token → Prop) : List Token → Prop where
  | here : PartAsks asks []
  | inside {opening : Token} {ts : List Token} (opens : opening.kind.opens = true)
      (more : asks ts) : PartAsks asks (opening :: ts)

/-- The tokens of an expression up to where a name may stand, if expressions nest less than
`levels` deep. -/
def Asks : Nat → List Token → Prop
  | 0, _ => False
  | levels + 1, ts =>
    ∃ front part, SumFront levels front ∧ PartAsks (Asks levels) part ∧ ts = front ++ part

/-- The tokens of a list of data up to where a name may stand. -/
inductive DataAsks (limit : Nat) : List Token → Prop where
  | first {ts : List Token} (asks : Asks limit ts) : DataAsks limit ts
  | further {first : Expression} {further : List Further} {comma : Token} {ts : List Token}
      (fits : ∀ e ∈ first :: further.map Further.expression, e.Fits limit)
      (isComma : comma.kind = .comma) (asks : Asks limit ts) :
      DataAsks limit (Parser.dataTokens first further ++ comma :: ts)

/-- The tokens start on the line. -/
abbrev OnLine (line : Nat) (ts : List Token) : Prop := ts.head?.map Token.line = some line

/-- The tokens of an item up to where a name is taken, on whatever line it stands.  Operands and
data have to start on the line of the item. -/
inductive BeginsItem (limit : Nat) : List Token → Prop where
  | operand {token : Token} {mnemonic : Mnemonic} {ts : List Token}
      (isMnemonic : token.kind = .instruction mnemonic)
      (takes : mnemonic.operandClass = .memory ∨ mnemonic.operandClass = .accumulator)
      (onLine : OnLine token.line ts) (asks : Asks limit ts) : BeginsItem limit (token :: ts)
  | target {token : Token} {mnemonic : Mnemonic} (isMnemonic : token.kind = .instruction mnemonic)
      (takes : mnemonic.operandClass = .target) : BeginsItem limit [token]
  | data {marker : Token} {width : DataWidth} {ts : List Token}
      (isMarker : markerWidth? marker.kind = some width) (onLine : OnLine marker.line ts)
      (asks : DataAsks limit ts) : BeginsItem limit (marker :: ts)

/-- The tokens of a declaration up to where a name may stand in its value. -/
inductive BeginsDeclaration (limit : Nat) : List Token → Prop where
  | value {name equals : Token} {ts : List Token} (isName : name.kind = .name)
      (isEquals : equals.kind = .equals) (asks : Asks limit ts) :
      BeginsDeclaration limit (name :: equals :: ts)

end Syntax

namespace Parser

open Syntax

/-- Reading the tokens `ts` comes to a declaration, or to an item of a code block, whose beginning
reaches up to the tokens `behind` and asks for a name there. -/
inductive AskedFor (limit : Nat) (ts behind : List Token) : Prop where
  | declaration {s : State} {begun : List Token} (started : AtStatement limit ts s)
      (ahead : s.stream.ahead = begun ++ behind) (begins : BeginsDeclaration limit begun)
  | item {x : List NodeId × State} {begun : List Token} (started : AtItem limit ts x)
      (ahead : x.2.stream.ahead = begun ++ behind) (begins : BeginsItem limit begun)

/-- A name in front of a colon, and the tokens in front of and behind the two.  Those in front
stand on other lines. -/
structure Fence where
  before : List Token
  name : Token
  colon : Token
  behind : List Token
  isName : name.kind = .name
  isColon : colon.kind = .colon
  first : ∀ t ∈ before, t.line ≠ name.line

namespace Fence

variable {f : Fence} {s s' : State} {limit levels : Nat} {α : Type} {ts passed : List Token}
  {begins begins' : List Token → Prop}

/-- The tokens from the name on. -/
def tokens (f : Fence) : List Token := f.name :: f.colon :: f.behind

/-- Between the current token and the name stand the tokens `mid`. -/
def Ahead (f : Fence) (s : State) (mid : List Token) : Prop :=
  mid <:+ f.before ∧ s.stream.ahead = mid ++ f.tokens

/-- The name is the current token. -/
def Reached (f : Fence) (s : State) : Prop := s.stream.ahead = f.tokens

/-- The name is ahead, but not the current token. -/
def Coming (f : Fence) (s : State) : Prop := ∃ t mid, f.Ahead s (t :: mid)

/-- The name has not been passed. -/
def Kept (f : Fence) (s : State) : Prop := f.Reached s ∨ f.Coming s

theorem kept_iff : f.Kept s ↔ ∃ mid, f.Ahead s mid := by
  constructor
  · rintro (h | ⟨t, mid, h⟩)
    · exact ⟨[], List.nil_suffix, h⟩
    · exact ⟨t :: mid, h⟩
  · rintro ⟨_ | ⟨t, mid⟩, h⟩
    · exact .inl h.2
    · exact .inr ⟨t, mid, h⟩

/-! ## Passing one token -/

theorem Reached.current_eq (h : f.Reached s) : s.current = f.name := State.current_eq_of_ahead h

theorem Reached.kind_current (h : f.Reached s) : s.current.kind = .name := by
  rw [h.current_eq, f.isName]

theorem Reached.kind_next (h : f.Reached s) : s.advance.current.kind = .colon := by
  rw [State.current_eq_of_ahead (State.ahead_advance h), f.isColon]

theorem Coming.kept_advance (h : f.Coming s) : f.Kept s.advance := by
  obtain ⟨t, mid, ⟨ts, hbefore⟩, hahead⟩ := h
  refine kept_iff.2 ⟨mid, ⟨ts ++ [t], ?_⟩, State.ahead_advance hahead⟩
  rw [List.append_assoc]
  exact hbefore

theorem Coming.ahead_advance (h : f.Coming s) :
    s.stream.ahead = [s.current] ++ s.advance.stream.ahead := by
  obtain ⟨t, mid, _, hahead⟩ := h
  rw [State.current_eq_of_ahead hahead, State.ahead_advance hahead]
  exact hahead

/-- What stands in front of the name is on another line. -/
theorem Coming.line_ne (h : f.Coming s) : f.name.line ≠ s.current.line := by
  obtain ⟨t, mid, hmid, hahead⟩ := h
  rw [State.current_eq_of_ahead hahead]
  exact (f.first t (hmid.subset List.mem_cons_self)).symm

theorem Kept.coming (h : f.Kept s) (hk : s.current.kind ≠ .name) : f.Coming s := by
  rcases h with h | h
  · exact absurd h.kind_current hk
  · exact h

/-- Only the name itself is on its line. -/
theorem Kept.coming_of_line (h : f.Kept s) {line : Nat} (hline : s.current.line = line)
    (hother : f.name.line ≠ line) : f.Coming s := by
  refine h.resolve_left fun hreached => hother ?_
  rw [← hline, hreached.current_eq]

/-! ## Beginnings -/

/-- From the current token up to the name stands such a beginning. -/
def Leads (f : Fence) (begins : List Token → Prop) (s : State) : Prop :=
  ∃ mid, f.Ahead s mid ∧ begins mid

/-- The name has not been passed in the state `s'`, or else it was asked for in the state `s`. -/
def Spares (f : Fence) (begins : List Token → Prop) (s s' : State) : Prop :=
  f.Kept s' ∨ f.Leads begins s

/-- Where a beginning leads up to the name, so does what contains it. -/
theorem Leads.behind (h : f.Leads begins s') (hs : f.Kept s)
    (hpassed : s.stream.ahead = passed ++ s'.stream.ahead)
    (hbegins : ∀ ts, begins ts → begins' (passed ++ ts)) : f.Leads begins' s := by
  obtain ⟨mid', hahead', hmid'⟩ := h
  obtain ⟨mid, hahead⟩ := kept_iff.1 hs
  rw [hahead.2, hahead'.2, ← List.append_assoc] at hpassed
  obtain rfl := List.append_cancel_right hpassed
  exact ⟨_, hahead, hbegins _ hmid'⟩

theorem Spares.behind {s₀ : State} (h : f.Spares begins s s') (hs : f.Kept s₀)
    (hpassed : s₀.stream.ahead = passed ++ s.stream.ahead)
    (hbegins : ∀ ts, begins ts → begins' (passed ++ ts)) : f.Spares begins' s₀ s' :=
  h.imp_right fun h => h.behind hs hpassed hbegins

/-- In front of the name a beginning has the current token for its first. -/
theorem Coming.head?_eq {mid : List Token} (h : f.Coming s) (hmid : f.Ahead s mid) :
    mid.head? = some s.current := by
  obtain ⟨t, mid', hahead⟩ := h
  have hall := hahead.2.symm.trans hmid.2
  obtain rfl := List.append_cancel_right hall
  rw [State.current_eq_of_ahead hahead.2]
  rfl

/-! ## Expressions -/

/-- However `p` ends, the name has not been passed, or it was asked for in the state `s₀`. -/
def StopsSince (f : Fence) (begins : List Token → Prop) (s₀ : State) (p : Parser α) (s : State) :
    Prop :=
  Ends p s (fun _ s' => f.Spares begins s₀ s') fun _ s' => f.Spares begins s₀ s'

/-- However `p` ends, the name has not been passed, or it was asked for where `p` started. -/
def Stops (f : Fence) (begins : List Token → Prop) (p : Parser α) (s : State) : Prop :=
  f.StopsSince begins s p s

/-- Where the name is asked for, there is nothing to show. -/
theorem Leads.ends {s₀ : State} (h : f.Leads begins s₀) (p : Parser α) (s : State) :
    f.StopsSince begins s₀ p s := by
  unfold StopsSince Ends
  split
  · exact .inr h
  · exact .inr h

theorem Stops.mono {p : Parser α} (h : f.Stops begins p s)
    (hbegins : ∀ ts, begins ts → begins' ts) : f.Stops begins' p s := by
  have hmore (s' : State) (h : f.Spares begins s s') : f.Spares begins' s s' :=
    h.imp_right fun ⟨mid, hahead, hmid⟩ => ⟨mid, hahead, hbegins mid hmid⟩
  exact h.imp (fun _ => hmore) fun _ => hmore

theorem Stops.behind {p : Parser α} {s₀ : State} (h : f.Stops begins p s) (hs : f.Kept s₀)
    (hpassed : s₀.stream.ahead = passed ++ s.stream.ahead)
    (hbegins : ∀ ts, begins ts → begins' (passed ++ ts)) : f.StopsSince begins' s₀ p s :=
  h.imp (fun _ _ h => h.behind hs hpassed hbegins) fun _ _ h => h.behind hs hpassed hbegins

variable {E : Parser (Option NodeId)}

/-- The name may be a part of a sum itself. -/
theorem Reached.leads (h : f.Reached s) (asks : List Token → Prop) : f.Leads (PartAsks asks) s :=
  ⟨[], ⟨List.nil_suffix, h⟩, .here⟩

theorem stops_leaf (k : Node.Kind) (hs : f.Coming s) : f.Stops begins (leaf k) s := by
  unfold Stops StopsSince leaf
  simp only [ends_bind, ends_current, ends_advance, ends_add, ends_pure]
  exact .inl hs.kept_advance

theorem stops_required (h : f.Stops begins E s) (after : Token) :
    f.Stops begins (required E after) s := by
  unfold Stops StopsSince
  rw [ends_required]
  refine h.imp_post ?_
  rintro (_ | id) s' hs'
  · exact hs'
  · exact hs'

theorem stops_signed {w : Wrapper} (hE : ∀ s, f.Kept s → f.Stops begins E s) (hs : f.Coming s)
    (hsign : s.current.kind.opens = true) : f.Stops (PartAsks begins) (signed E w) s := by
  unfold Stops StopsSince signed
  simp only [ends_bind, ends_current, ends_advance, ends_add, ends_pure]
  exact (stops_required (hE _ hs.kept_advance) _).behind (.inr hs) hs.ahead_advance
    fun _ => .inside hsign

theorem stops_parenthesised (hE : ∀ s, f.Kept s → f.Stops begins E s) (hs : f.Coming s)
    (hopening : s.current.kind.opens = true) :
    f.Stops (PartAsks begins) (parenthesised E) s := by
  unfold Stops StopsSince parenthesised
  simp only [ends_bind, ends_current, ends_advance, ends_expect, ends_add, ends_pure]
  refine ((stops_required (hE _ hs.kept_advance) _).behind (.inr hs) hs.ahead_advance
    fun _ => .inside hopening).imp_post ?_
  intro child s' hs'
  refine ⟨fun hclosing => hs'.imp_left fun hkept => ?_, fun _ => hs'⟩
  exact (hkept.coming (by rw [hclosing]; decide)).kept_advance

theorem stops_primary (hE : ∀ s, f.Kept s → f.Stops begins E s) (hs : f.Kept s) :
    f.Stops (PartAsks begins) (primary E) s := by
  rcases hs with hreached | hs
  · exact (hreached.leads begins).ends _ s
  unfold Stops StopsSince primary
  rw [ends_bind, ends_current]
  split
  next => exact stops_leaf _ hs
  next => exact stops_leaf _ hs
  next => exact stops_leaf _ hs
  next => exact stops_leaf _ hs
  next hk => exact stops_signed hE hs (by rw [hk]; rfl)
  next hk => exact stops_signed hE hs (by rw [hk]; rfl)
  next hk => exact stops_signed hE hs (by rw [hk]; rfl)
  next hk => exact stops_parenthesised hE hs (by rw [hk]; rfl)
  next => exact .inl (.inr hs)

/-- Behind the part `e` of a sum that started in the state `s₀`. -/
theorem stops_sumRest (hE : ∀ s, f.Kept s → f.Stops (Asks levels) E s)
    (hanswer : ∀ s, Ends E s (ExpressionAnswer levels s) (Abandoned s)) (bound : List Token)
    {left : NodeId} {s₀ : State} {e : Expression} (hs₀ : f.Kept s₀) (hs : f.Kept s)
    (he : ReadsExpression s₀ s e left) (hdepth : e.depth ≤ levels)
    (hends : e.isOpen = true → sumOperator? s.current.kind = none) :
    f.StopsSince (Asks (levels + 1)) s₀ (sumRest E bound left) s := by
  induction bound generalizing s left e with
  | nil => exact .inl hs
  | cons b bound ih =>
      unfold StopsSince sumRest
      rw [ends_bind, ends_current]
      split
      next => exact .inl hs
      next operator hoperator =>
        have hclosed : e.isOpen = false := by
          rw [Bool.eq_false_iff]
          intro hopen
          rw [hends hopen] at hoperator
          cases hoperator
        have hcoming := hs.coming (by intro hk; rw [hk] at hoperator; cases hoperator)
        have hpassed : s₀.stream.ahead = (e.tokens ++ [s.current]) ++ s.advance.stream.ahead := by
          rw [he.reads.ahead_eq, hcoming.ahead_advance, List.append_assoc]
        have hright : f.StopsSince (Asks (levels + 1)) s₀ (primary E) s.advance :=
          (stops_primary hE hcoming.kept_advance).behind hs₀ hpassed fun ts hts =>
            ⟨_, ts, .parts he.canonical hclosed hdepth hoperator, hts, rfl⟩
        simp only [ends_bind, ends_advance, ends_required, ends_lineOf, ends_add]
        refine (hright.and (primary_ends hanswer s.advance)).imp ?_ fun _ _ h => h.1
        rintro (_ | right) s' ⟨hs', ha⟩
        · exact hs'
        · rcases hs' with hkept | hleads
          · obtain ⟨e₁, he₁, hsum, hdepth₁, hends₁⟩ := ha
            have hsign := State.reads_advance (ne_eof_of_eq_some hoperator rfl)
            exact ih hkept (.sum hoperator he hsign he₁ hclosed hsum)
              (Nat.max_le.2 ⟨hdepth, hdepth₁⟩) hends₁
          · exact hleads.ends _ _

/-- An expression does not pass the name, unless it asks for it. -/
theorem stops_expression (limit levels : Nat) (hs : f.Kept s) :
    f.Stops (Asks levels) (expression limit levels) s := by
  induction levels generalizing s with
  | zero => exact .inl hs
  | succ levels ih =>
      show f.Stops (Asks (levels + 1)) (sum (expression limit levels)) s
      have hfirst : f.Stops (Asks (levels + 1)) (primary (expression limit levels)) s :=
        (stops_primary (fun _ => ih) hs).mono fun ts hts => ⟨[], ts, .nothing, hts, rfl⟩
      unfold Stops StopsSince sum
      rw [ends_bind]
      refine (hfirst.and (primary_ends (expression_ends limit levels) s)).imp ?_ fun _ _ h => h.1
      rintro (_ | left) s' ⟨hs', ha⟩
      · exact hs'
      · simp only [ends_bind, ends_ahead, ends_pure]
        rcases hs' with hkept | hleads
        · obtain ⟨e, he, _, hdepth, hends⟩ := ha
          exact stops_sumRest (fun _ => ih) (expression_ends limit levels) _ hs hkept he hdepth
            hends
        · exact hleads.ends _ s'

/-- Behind an operand that may be indexed, a comma is the last token that is passed: a name
is no register. -/
theorem stops_operand (limit : Nat) (hs : f.Kept s) :
    f.Stops (Asks limit) (operand limit) s := by
  unfold Stops StopsSince operand
  rw [ends_bind]
  refine (stops_expression limit limit hs).imp_post ?_
  rintro (_ | id) s' hs'
  · exact hs'
  rcases hs' with hkept | hleads
  · simp only [ends_bind, ends_current, ends_ite, ends_advance, ends_pure]
    refine ⟨fun hcomma => ?_, fun _ => .inl hkept⟩
    have hbehind := (hkept.coming (by rw [hcomma]; decide)).kept_advance
    split
    next => exact .inl hbehind
    next w hw =>
      have hregister : s'.advance.current.kind ≠ .name := by
        intro hk
        rw [hk] at hw
        cases hw
      simp only [ends_bind, ends_advance, ends_lineOf, ends_add, ends_pure]
      exact .inl (hbehind.coming hregister).kept_advance
  · exact hleads.ends _ s'

/-! ## Items -/

/-- What starts on another line than the name asks for it with tokens on that line. -/
theorem Coming.onLine {line : Nat} (h : f.Coming s) (hline : s.current.line = line)
    (hleads : f.Leads begins s) : f.Leads (fun ts => OnLine line ts ∧ begins ts) s := by
  obtain ⟨mid, hahead, hmid⟩ := hleads
  refine ⟨mid, hahead, ?_, hmid⟩
  rw [OnLine, h.head?_eq hahead, ← hline]
  rfl

theorem stops_onLineOf (limit : Nat) {token : Token} (hs : f.Kept s)
    (hline : f.name.line ≠ token.line) :
    f.Stops (fun ts => OnLine token.line ts ∧ Asks limit ts)
      (operandOf.onLineOf limit token) s := by
  unfold Stops StopsSince operandOf.onLineOf
  rw [ends_bind, ends_current, ends_ite]
  refine ⟨fun hcurrent => ?_, fun _ => .inl hs⟩
  have hcoming := hs.coming_of_line hcurrent hline
  have hmore (s' : State) (h : f.Spares (Asks limit) s s') :
      f.Spares (fun ts => OnLine token.line ts ∧ Asks limit ts) s s' :=
    h.imp_right (hcoming.onLine hcurrent)
  exact (stops_operand limit hs).imp (fun _ => hmore) fun _ => hmore

/-- Behind the mnemonic `token`, only the target of a branch is taken from another line. -/
theorem stops_operandOf (limit : Nat) {token : Token} {m : Mnemonic}
    (hm : token.kind = .instruction m) (hs : f.Kept s) (hline : f.name.line ≠ token.line) :
    f.Stops (fun ts => BeginsItem limit (token :: ts))
      (operandOf limit token m.operandClass) s := by
  have honLine (hclass : m.operandClass = .memory ∨ m.operandClass = .accumulator) :
      f.Stops (fun ts => BeginsItem limit (token :: ts)) (operandOf.onLineOf limit token) s :=
    (stops_onLineOf limit hs hline).mono fun _ h => .operand hm hclass h.1 h.2
  cases hclass : m.operandClass with
  | implied => exact .inl hs
  | memory =>
      unfold Stops StopsSince
      simp only [operandOf, ends_bind]
      refine (honLine (.inl hclass)).imp_post ?_
      rintro (_ | id) s' hs'
      · exact hs'
      · exact hs'
  | accumulator => exact honLine (.inr hclass)
  | target =>
      unfold Stops StopsSince
      simp only [operandOf, ends_bind, ends_expect, ends_add, ends_pure]
      refine ⟨fun _ => ?_, fun _ => .inl hs⟩
      rcases hs with hreached | hcoming
      · exact .inr ⟨[], ⟨List.nil_suffix, hreached⟩, .target hm hclass⟩
      · exact .inl hcoming.kept_advance

theorem stops_instruction (limit : Nat) {m : Mnemonic} (hs : f.Coming s)
    (hm : s.current.kind = .instruction m) :
    f.Stops (BeginsItem limit) (instruction limit m) s := by
  unfold Stops StopsSince instruction
  simp only [ends_bind, ends_current, ends_advance, ends_add, ends_pure]
  exact (stops_operandOf limit hm hs.kept_advance hs.line_ne).behind (.inr hs) hs.ahead_advance
    fun _ h => h

/-- Behind expressions of a list of data that started in the state `s₀`. -/
theorem stops_dataRest (bound : List Token) {done : List NodeId} {s₀ : State}
    {first : Expression} {further : List Further} (hs₀ : f.Kept s₀) (hs : f.Kept s)
    (h : ReadsData limit s₀ s done.reverse first further) :
    f.StopsSince (DataAsks limit) s₀ (dataRest limit bound done) s := by
  induction bound generalizing s done further with
  | nil => exact .inl hs
  | cons b bound ih =>
      unfold StopsSince dataRest
      simp only [ends_bind, ends_current, ends_ite, ends_advance, ends_pure]
      refine ⟨fun hcomma => ?_, fun _ => .inl hs⟩
      have hcoming := hs.coming (by rw [hcomma]; decide)
      have hpassed : s₀.stream.ahead =
          (dataTokens first further ++ [s.current]) ++ s.advance.stream.ahead := by
        rw [h.reads.ahead_eq, hcoming.ahead_advance, List.append_assoc]
      have hvalue : f.StopsSince (DataAsks limit) s₀ (expression limit limit) s.advance := by
        refine (stops_expression limit limit hcoming.kept_advance).behind hs₀ hpassed ?_
        intro ts hts
        rw [List.append_assoc]
        exact .further h.fits hcomma hts
      refine (hvalue.and (expression_ends limit limit s.advance)).imp ?_ fun _ _ h => h.1
      rintro (_ | id) s' ⟨hs', ha⟩
      · exact hs'
      · rcases hs' with hkept | hleads
        · obtain ⟨e, he, hdepth, _⟩ := ha
          have hsign := State.reads_advance (s := s) (by rw [hcomma]; decide)
          have hmore : ReadsData limit s₀ s' (id :: done).reverse first
              (further ++ [⟨s.current, hcomma, e⟩]) := by
            rw [List.reverse_cons]
            exact h.snoc rfl (hsign.trans he.reads) he.shown ⟨he.canonical, hdepth⟩
          exact ih hkept hmore
        · exact hleads.ends _ s'

theorem stops_dataList (limit : Nat) (hs : f.Kept s) :
    f.Stops (DataAsks limit) (dataList limit) s := by
  unfold Stops StopsSince dataList
  rw [ends_bind]
  have hfirst : f.Stops (DataAsks limit) (expression limit limit) s :=
    (stops_expression limit limit hs).mono fun _ => .first
  refine (hfirst.and (expression_ends limit limit s)).imp ?_ fun _ _ h => h.1
  rintro (_ | id) s' ⟨hs', ha⟩
  · exact hs'
  · simp only [ends_bind, ends_ahead, ends_addList]
    rcases hs' with hkept | hleads
    · obtain ⟨e, he, hdepth, _⟩ := ha
      exact stops_dataRest s'.stream.ahead hs hkept (.first he ⟨he.canonical, hdepth⟩)
    · exact hleads.ends _ s'

theorem stops_data (limit : Nat) {width width' : DataWidth} (hs : f.Coming s)
    (hwidth : markerWidth? s.current.kind = some width) :
    f.Stops (BeginsItem limit) (data limit width') s := by
  unfold Stops StopsSince data
  simp only [ends_bind, ends_current, ends_advance, ends_ite, ends_pure]
  refine ⟨fun hline => ?_, fun _ => .inl hs.kept_advance⟩
  have hcoming := hs.kept_advance.coming_of_line hline hs.line_ne
  have hmore (s' : State) (h : f.Spares (DataAsks limit) s.advance s') :
      f.Spares (BeginsItem limit) s s' :=
    Spares.behind (h.imp_right (hcoming.onLine hline)) (.inr hs) hs.ahead_advance
      fun _ h => .data hwidth h.1 h.2
  refine (stops_dataList limit hs.kept_advance).imp ?_ fun _ => hmore
  rintro (_ | head) s' hs'
  · exact hmore s' hs'
  · exact hmore s' hs'

/-- An item that starts in front of the name does not pass it, unless it asks for it. -/
theorem stops_item {item : Parser (Option NodeId)} (hs : f.Coming s)
    (h : item? limit s.current.kind = some item) : f.Stops (BeginsItem limit) item s := by
  unfold item? at h
  split at h
  next m hm =>
    cases h
    exact stops_instruction limit hs hm
  next hk =>
    cases h
    exact stops_data limit hs (by rw [hk]; rfl)
  next hk =>
    cases h
    exact stops_data limit hs (by rw [hk]; rfl)
  next => cases h

theorem stops_declaration (limit : Nat) (hs : f.Coming s) (hname : s.current.kind = .name)
    (hequals : s.advance.current.kind = .equals) :
    f.Stops (BeginsDeclaration limit) (declaration limit) s := by
  have hbehind := hs.kept_advance.coming (by rw [hequals]; decide)
  have hpassed : s.stream.ahead =
      [s.current, s.advance.current] ++ s.advance.advance.stream.ahead := by
    rw [hs.ahead_advance, hbehind.ahead_advance]
    rfl
  unfold Stops StopsSince declaration
  simp only [ends_bind, ends_current, ends_advance, ends_add]
  exact (stops_required (stops_expression limit limit hbehind.kept_advance) _).behind (.inr hs)
    hpassed fun _ => .value hname hequals

/-! ## Blocks -/

/-- At the name a statement can start. -/
theorem Reached.startsStatement (h : f.Reached s) : startsStatement s.stream = true := by
  have hname : s.stream.current.kind = .name := h.kind_current
  have hcolon : s.stream.advance.current.kind = .colon := h.kind_next
  simp [Parser.startsStatement, hname, hcolon]

theorem Reached.endsBlock (h : f.Reached s) : endsBlock s.stream = true := by
  have hname : s.stream.current.kind = .name := h.kind_current
  simp [Parser.endsBlock, h.startsStatement, hname]

/-- Seeking a statement comes to the name at the latest. -/
theorem Kept.resync (h : f.Kept s) : f.Kept s.resync := by
  obtain ⟨mid, hmid, hahead⟩ := kept_iff.1 h
  have hseek (mid : List Token) (hmid : mid <:+ f.before) :
      ∃ mid', mid' <:+ f.before ∧
        (seekStatement s.stream.finish (mid ++ f.tokens)).ahead = mid' ++ f.tokens := by
    induction mid with
    | nil =>
        have hstarts : startsStatement ⟨f.name :: f.colon :: f.behind, s.stream.finish⟩ = true :=
          Reached.startsStatement (s := ⟨⟨f.tokens, s.stream.finish⟩, s.tree, #[]⟩) rfl
        refine ⟨[], List.nil_suffix, ?_⟩
        rw [List.nil_append, tokens, seekStatement, if_pos hstarts]
    | cons t mid ih =>
        rw [List.cons_append, seekStatement]
        split
        next => exact ⟨t :: mid, hmid, rfl⟩
        next => exact ih ((List.suffix_cons t mid).trans hmid)
  obtain ⟨mid', hmid', hahead'⟩ := hseek mid hmid
  refine kept_iff.2 ⟨mid', hmid', ?_⟩
  rw [← hahead', ← hahead]
  rfl

theorem Kept.recover (h : f.Kept s) (e : Failure) : f.Kept (s.recover e) :=
  Kept.resync (s := s.diagnose e.diagnostic) h

theorem Coming.skip (h : f.Coming s) (report : Token → Diagnostic) : f.Kept (s.skip report) :=
  Coming.kept_advance (s := s.diagnose (report s.current)) h

/-- The name is no numeral behind a directive. -/
theorem Coming.skipDirective (h : f.Coming s) : f.Kept s.skipDirective := by
  have hbehind := h.kept_advance
  unfold State.skipDirective
  dsimp only
  split
  next hconst =>
    refine (hbehind.coming ?_).kept_advance
    intro hk
    rw [hk] at hconst
    cases hconst
  next => exact hbehind

/-- The name has not been passed in the state, or else it has been asked for on the way. -/
def Endures (f : Fence) (limit : Nat) (ts : List Token) (s : State) : Prop :=
  f.Kept s ∨ AskedFor limit ts f.tokens

theorem Spares.endures_of_statement (h : f.Spares (BeginsDeclaration limit) s s')
    (hs : AtStatement limit ts s) : f.Endures limit ts s' :=
  h.imp_right fun ⟨_, hahead, hbegins⟩ => .declaration hs hahead.2 hbegins

theorem Spares.endures_of_item {x : List NodeId × State}
    (h : f.Spares (BeginsItem limit) x.2 s') (hx : AtItem limit ts x) : f.Endures limit ts s' :=
  h.imp_right fun ⟨_, hahead, hbegins⟩ => .item hx hahead.2 hbegins

/-- One step through a block does not pass the name, unless an item asks for it. -/
theorem Endures.blockStep {x : List NodeId × State} (hs : f.Endures limit ts x.2)
    (hx : AtItem limit ts x) :
    (blockRound limit x).elim (fun y => f.Endures limit ts y.2)
      fun r => f.Endures limit ts r.2 := by
  have hstep := Parser.blockStep limit x
  generalize blockRound limit x = next at hstep ⊢
  rcases hs with hkept | hasked
  · have hcoming (hgoes : ¬ Parser.endsBlock x.2.stream = true) : f.Coming x.2 :=
      hkept.resolve_left fun hreached => hgoes hreached.endsBlock
    cases hstep with
    | ends => exact .inl hkept
    | directive hgoes => exact .inl (hcoming hgoes).skipDirective
    | stall hgoes => exact .inl ((hcoming hgoes).skip .stall)
    | item hgoes hitem hrun =>
        have hstops := stops_item (hcoming hgoes) hitem
        rw [Stops, StopsSince, Ends, hrun] at hstops
        exact hstops.endures_of_item hx
    | failure hgoes hitem hrun =>
        have hstops := stops_item (hcoming hgoes) hitem
        rw [Stops, StopsSince, Ends, hrun] at hstops
        exact (hstops.endures_of_item hx).imp_left fun hkept => hkept.recover _
  · cases next with
    | inl => exact .inr hasked
    | inr => exact .inr hasked

theorem Kept.blockEnd {x : List NodeId × State} (hs : f.Kept x.2) (hx : AtItem limit ts x) :
    f.Endures limit ts (blockEnd limit x) := by
  obtain ⟨_, _, hrounds⟩ := blockItems_rounds (s := x.2) limit x.1 (Nat.le_refl _)
  let keeps (x : List NodeId × State) : Prop := AtItem limit ts x ∧ f.Endures limit ts x.2
  refine hrounds.invariant keeps (fun r => f.Endures limit ts r.2) ⟨hx, .inl hs⟩ ?_ ?_
  · rintro x y ⟨hx, hs⟩ hround
    have hstep := hs.blockStep hx
    rw [hround] at hstep
    exact ⟨hx.next hround, hstep⟩
  · rintro x r ⟨hx, hs⟩ hround
    have hstep := hs.blockStep hx
    rw [hround] at hstep
    exact hstep

/-! ## Statements -/

/-- The name is no label token. -/
theorem Kept.pastLabels (h : f.Kept s) : f.Kept s.pastLabels := by
  obtain ⟨mid, hmid, hahead⟩ := kept_iff.1 h
  have hdrop (mid : List Token) (hmid : mid <:+ f.before) :
      ∃ mid', mid' <:+ f.before ∧
        (mid ++ f.tokens).dropWhile (fun t => t.kind == .label) = mid' ++ f.tokens := by
    induction mid with
    | nil =>
        refine ⟨[], List.nil_suffix, List.dropWhile_cons_of_neg ?_⟩
        rw [f.isName]
        decide
    | cons t mid ih =>
        rw [List.cons_append, List.dropWhile_cons]
        split
        next => exact ih ((List.suffix_cons t mid).trans hmid)
        next => exact ⟨t :: mid, hmid, rfl⟩
  obtain ⟨mid', hmid', hahead'⟩ := hdrop mid hmid
  refine kept_iff.2 ⟨mid', hmid', ?_⟩
  rw [← hahead', ← hahead]
  rfl

theorem Kept.labelSection (h : f.Kept s') (hs : AtStatement limit ts s) (hheads : Heads s s') :
    f.Endures limit ts (labelSection limit s.current s') := by
  have hblock := h.pastLabels.blockEnd (.first hs hheads)
  have hstream := (labelSection_elsewhere limit s.current s').1
  unfold Endures Kept Reached Coming Ahead at hblock ⊢
  rwa [hstream]

/-- A statement that starts in front of the name does not pass it, unless it asks for it. -/
theorem Coming.statement (h : f.Coming s) (hs : AtStatement limit ts s) :
    f.Endures limit ts (statement limit s) := by
  unfold Parser.statement
  dsimp only
  split
  next => exact .inl h.skipDirective
  next hlabel => exact h.kept_advance.labelSection hs (.label hlabel)
  next hname =>
    split
    next hequals =>
      have hstops := stops_declaration limit h hname hequals
      unfold Stops StopsSince Ends at hstops
      split
      next id s' hrun =>
        rw [hrun] at hstops
        exact hstops.endures_of_statement hs
      next e s' hrun =>
        rw [hrun] at hstops
        exact (hstops.endures_of_statement hs).imp_left fun hkept => hkept.recover e
    next hcolon =>
      have hcolon' : s.advance.current.kind = .colon := hcolon
      have hbehind : f.Kept (s.advance.advance.diagnose (.detachedLabel s.current)) :=
        (h.kept_advance.coming (by rw [hcolon']; decide)).kept_advance
      exact hbehind.labelSection hs (.detached hname hcolon)
    next => exact .inl (h.skip .strayName)
  next => exact .inl (h.skip .noStatement)

/-- The statement that starts at the name is the section of a label. -/
theorem Reached.statement (limit : Nat) (h : f.Reached s) :
    statement limit s =
      labelSection limit f.name (s.advance.advance.diagnose (.detachedLabel f.name)) := by
  have hcolon : s.stream.advance.current.kind = .colon := h.kind_next
  unfold Parser.statement
  simp only [h.current_eq, f.isName, hcolon]

theorem Reached.reports (limit : Nat) (h : f.Reached s) :
    Diagnostic.detachedLabel f.name ∈ (Parser.statement limit s).diagnostics.toList := by
  obtain ⟨s₁, id, parts, hrun, hreads, _⟩ := labelSection_reads limit f.name
    (s.advance.advance.diagnose (.detachedLabel f.name))
  rw [h.statement, hrun]
  show Diagnostic.detachedLabel f.name ∈ s₁.diagnostics.toList
  rw [hreads.diagnostics_eq]
  refine List.mem_append_left _ ?_
  rw [(State.reads_diagnose _ _).diagnostics_eq]
  exact List.mem_append_right _ List.mem_cons_self

/-! ## Programs -/

theorem kept_start (h : ts.takeWhile TokenStream.isProper = f.before ++ f.tokens) :
    f.Kept (State.start ts) := kept_iff.2 ⟨f.before, List.suffix_refl _, h⟩

/-- The name is reported as a label, unless it has been asked for on the way. -/
theorem reports (f : Fence) (limit : Nat)
    (h : ts.takeWhile TokenStream.isProper = f.before ++ f.tokens) :
    Diagnostic.detachedLabel f.name ∈ (program limit ts).diagnostics ∨
      AskedFor limit ts f.tokens := by
  obtain ⟨n, s', _, _, hrounds, hprogram, _, hahead⟩ := program_accounts limit ts
  rw [hprogram]
  let keeps (s : State) : Prop :=
    AtStatement limit ts s ∧ (Diagnostic.detachedLabel f.name ∈ s.diagnostics.toList ∨
      f.Endures limit ts s)
  have hstart : keeps (State.start ts) := ⟨.start limit ts, .inr (.inl (kept_start h))⟩
  obtain ⟨_, _, hend⟩ := hrounds.keeps keeps hstart (by
    rintro s ⟨hs, hendures⟩ hcurrent
    refine ⟨hs.next hcurrent, ?_⟩
    rcases hendures with hreported | (hreached | hcoming) | hasked
    · obtain ⟨_, haccount⟩ := hs.exists_accounts
      obtain ⟨_, haccount'⟩ := statement_accounts limit haccount hcurrent
      exact .inl (haccount.mem_diagnostics haccount' hreported)
    · exact .inl (hreached.reports limit)
    · exact .inr (hcoming.statement hs)
    · exact .inr (.inr hasked))
  rcases hend with hreported | hkept | hasked
  · exact .inl hreported
  · obtain ⟨mid, _, hmid⟩ := kept_iff.1 hkept
    rw [hahead] at hmid
    cases (List.append_eq_nil_iff.1 hmid.symm).2
  · exact .inr hasked

end Fence

end Parser

end Asm6502
