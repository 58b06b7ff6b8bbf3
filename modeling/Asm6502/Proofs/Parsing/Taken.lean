import Asm6502.Proofs.Parsing.BlockCompleteness
import Asm6502.Proofs.Parsing.Fence

/-!
# Names that are taken

Where a declaration or an item has been begun and asks for a name, the name that stands there is
taken, whatever stands behind it: it is a part of an expression, or the target of a branch.  So no
statement starts at it, and no label is recovered from it.

What has been begun need not come to an end, for the parser may fail behind the name.  So nothing is
said about its answers, only how many tokens it leaves, whether it answers or fails.  What stands in
front of the name is read back like what is complete: a part of a sum or of a list of data ends
where it is followed by a sign or a comma, and reading goes on from there.

## Main results

* `takes_expression`, `takes_item`, `takes_declaration` — the name does not stay ahead.
* `AskedFor.ahead_ne` — no statement starts at a name that is asked for.
-/

namespace Asm6502.Parser

open Syntax

variable {s s' : State} {limit levels n : Nat} {α : Type} {E : Parser (Option NodeId)}

/-! ## How many tokens are left -/

/-- However `p` ends, it leaves at most `n` tokens. -/
def Leaves (n : Nat) (p : Parser α) (s : State) : Prop :=
  Ends p s (fun _ s' => s'.remaining ≤ n) fun _ s' => s'.remaining ≤ n

theorem State.remaining_advance (s : State) : s.advance.remaining = s.remaining - 1 :=
  List.length_tail

theorem State.remaining_advance_le (hs : s.remaining ≤ n) : s.advance.remaining ≤ n := by
  rw [State.remaining_advance]
  omega

/-- What does not fail without passing tokens leaves no more than there were. -/
theorem leaves_of_ends {p : Parser α} {post : α → State → Prop} (h : Ends p s post (Abandoned s))
    (hpost : ∀ a s', post a s' → s'.remaining ≤ s.remaining) (hs : s.remaining ≤ n) :
    Leaves n p s := by
  refine h.imp (fun a s' ha => Nat.le_trans (hpost a s' ha) hs) ?_
  rintro e s' ⟨_, hreads, _⟩
  exact Nat.le_trans hreads.remaining_le hs

theorem leaves_expression (limit levels : Nat) (hs : s.remaining ≤ n) :
    Leaves n (expression limit levels) s := by
  refine leaves_of_ends (expression_ends limit levels s) ?_ hs
  rintro (_ | id) s' ha
  · cases ha
    exact Nat.le_refl _
  · obtain ⟨e, he, _⟩ := ha
    exact he.reads.remaining_le

theorem leaves_primary (hanswer : ∀ s, Ends E s (ExpressionAnswer levels s) (Abandoned s))
    (hs : s.remaining ≤ n) : Leaves n (primary E) s := by
  refine leaves_of_ends (primary_ends hanswer s) ?_ hs
  rintro (_ | id) s' ha
  · cases ha
    exact Nat.le_refl _
  · obtain ⟨e, he, _⟩ := ha
    exact he.reads.remaining_le

theorem leaves_required (h : Leaves n E s) (after : Token) : Leaves n (required E after) s := by
  unfold Leaves
  rw [ends_required]
  refine h.imp_post ?_
  rintro (_ | id) s' hs'
  · exact hs'
  · exact hs'

theorem leaves_sumRest (hanswer : ∀ s, Ends E s (ExpressionAnswer levels s) (Abandoned s))
    (bound : List Token) (left : NodeId) (hs : s.remaining ≤ n) :
    Leaves n (sumRest E bound left) s := by
  induction bound generalizing s left with
  | nil => exact hs
  | cons b bound ih =>
      unfold Leaves sumRest
      rw [ends_bind, ends_current]
      split
      next => exact hs
      next =>
        simp only [ends_bind, ends_advance, ends_lineOf, ends_add]
        refine (leaves_required (leaves_primary hanswer (State.remaining_advance_le hs))
          _).imp_post ?_
        intro right s' hs'
        exact ih _ hs'

theorem leaves_dataRest (limit : Nat) (bound : List Token) (done : List NodeId)
    (hs : s.remaining ≤ n) : Leaves n (dataRest limit bound done) s := by
  induction bound generalizing s done with
  | nil => exact hs
  | cons b bound ih =>
      unfold Leaves dataRest
      simp only [ends_bind, ends_current, ends_ite, ends_advance, ends_pure]
      refine ⟨fun _ => ?_, fun _ => hs⟩
      refine (leaves_expression limit limit (State.remaining_advance_le hs)).imp_post ?_
      rintro (_ | id) s' hs'
      · exact hs'
      · exact ih _ hs'

/-! ## Expressions -/

variable {name : Token} {rest ts : List Token} {asks : List Token → Prop}

/-- Wherever it is asked for, `p` takes the name in front of `rest`. -/
def Takes (asks : List Token → Prop) (name : Token) (rest : List Token) (p : Parser α) : Prop :=
  ∀ s ts, asks ts → s.stream.ahead = ts ++ name :: rest → Leaves rest.length p s

theorem State.remaining_advance_of_ahead (hs : s.stream.ahead = name :: rest) :
    s.advance.remaining ≤ rest.length := by
  have hlength := congrArg List.length (State.ahead_advance hs)
  exact Nat.le_of_eq hlength

theorem takes_primary (isName : name.kind = .name) (hE : Takes asks name rest E) :
    Takes (PartAsks asks) name rest (primary E) := by
  intro s ts hts hs
  unfold Leaves primary
  rw [ends_bind, ends_current]
  cases hts with
  | here =>
      rw [State.current_eq_of_ahead hs, isName]
      unfold leaf
      simp only [ends_bind, ends_current, ends_advance, ends_add, ends_pure]
      exact State.remaining_advance_of_ahead hs
  | @inside opening _ opens more =>
      have hinside (after : Token) := leaves_required (hE _ _ more (State.ahead_advance hs)) after
      rw [State.current_eq_of_ahead hs]
      cases hk : opening.kind with
      | hash | less | greater =>
          unfold signed
          simp only [ends_bind, ends_current, ends_advance, ends_add, ends_pure]
          exact hinside _
      | parenLeft =>
          unfold parenthesised
          simp only [ends_bind, ends_current, ends_advance, ends_expect, ends_add, ends_pure]
          refine (hinside _).imp_post ?_
          intro child s' hs'
          exact ⟨fun _ => State.remaining_advance_le hs', fun _ => hs'⟩
      | _ =>
          rw [hk] at opens
          cases opens

/-- Behind a sign, where the name is asked for as a part of the sum. -/
theorem leaves_sumRest_of_asks (isName : name.kind = .name)
    (hanswer : ∀ s, Ends E s (ExpressionAnswer levels s) (Abandoned s))
    (hE : Takes asks name rest E) {sign : Token} {operator : SumOperator}
    (isSign : sumOperator? sign.kind = some operator) (hts : PartAsks asks ts)
    (hs : s.stream.ahead = sign :: (ts ++ name :: rest)) {bound : List Token}
    (hbound : s.stream.ahead.length ≤ bound.length) (left : NodeId) :
    Leaves rest.length (sumRest E bound left) s := by
  cases bound with
  | nil =>
      rw [hs] at hbound
      cases hbound
  | cons b bound =>
      unfold Leaves sumRest
      rw [ends_bind, ends_current, State.current_eq_of_ahead hs, isSign]
      simp only [ends_bind, ends_advance, ends_lineOf, ends_add]
      have hpart := takes_primary isName hE s.advance ts hts (State.ahead_advance hs)
      refine (leaves_required hpart _).imp_post ?_
      intro right s' hs'
      exact leaves_sumRest hanswer bound _ hs'

theorem takes_sum (isName : name.kind = .name) (hall : ReadsAll levels E)
    (hanswer : ∀ s, Ends E s (ExpressionAnswer levels s) (Abandoned s))
    (hE : Takes (Asks levels) name rest E) : Takes (Asks (levels + 1)) name rest (sum E) := by
  rintro s _ ⟨front, part, hfront, hpart, rfl⟩ hs
  cases hfront with
  | nothing =>
      unfold Leaves sum
      rw [ends_bind]
      refine (takes_primary isName hE s part hpart hs).imp_post ?_
      rintro (_ | left) s' hs'
      · exact hs'
      · simp only [ends_bind, ends_ahead, ends_pure]
        exact leaves_sumRest hanswer _ left hs'
  | @parts left sign operator canonical closed depth_le isSign =>
      have hs' : s.stream.ahead = left.tokens ++ sign :: (part ++ name :: rest) := by
        rw [hs]
        simp
      have hclosed (hopen : left.isOpen = true) : EndsSum (sign :: (part ++ name :: rest)) := by
        rw [closed] at hopen
        cases hopen
      have hsum : Ends (sum E) s
          (fun answer s' => ∃ id, answer = some id ∧ s'.remaining ≤ rest.length)
          fun _ s' => s'.remaining ≤ rest.length := by
        refine sum_reads_back_of hall canonical depth_le hs' hclosed ?_
        intro bound id s' hbound hahead _
        exact leaves_sumRest_of_asks isName hanswer hE isSign hpart hahead (hahead ▸ hbound) id
      refine hsum.imp_post ?_
      rintro _ s' ⟨_, _, hs'⟩
      exact hs'

/-- An expression takes a name that it asks for. -/
theorem takes_expression (limit levels : Nat) (isName : name.kind = .name) :
    Takes (Asks levels) name rest (expression limit levels) := by
  induction levels with
  | zero =>
      intro s ts hts
      exact hts.elim
  | succ levels ih =>
      exact takes_sum isName (expression_reads_back limit levels) (expression_ends limit levels) ih

theorem takes_operand (limit : Nat) (isName : name.kind = .name) :
    Takes (Asks limit) name rest (operand limit) := by
  intro s ts hts hs
  unfold Leaves operand
  rw [ends_bind]
  refine (takes_expression limit limit isName s ts hts hs).imp_post ?_
  rintro (_ | id) s' hs'
  · exact hs'
  · have hbehind := State.remaining_advance_le hs'
    simp only [ends_bind, ends_current, ends_ite, ends_advance, ends_pure]
    refine ⟨fun _ => ?_, fun _ => hs'⟩
    split
    next => exact hbehind
    next =>
      simp only [ends_bind, ends_advance, ends_lineOf, ends_add, ends_pure]
      exact State.remaining_advance_le hbehind

/-! ## Items -/

theorem State.current_line_of_onLine {line : Nat} (hline : OnLine line ts)
    (hs : s.stream.ahead = ts ++ rest) : s.current.line = line := by
  cases ts with
  | nil => cases hline
  | cons t ts =>
      rw [State.current_eq_of_ahead hs]
      exact Option.some.inj hline

theorem takes_onLineOf (limit : Nat) (isName : name.kind = .name) (token : Token) :
    Takes (fun ts => OnLine token.line ts ∧ Asks limit ts) name rest
      (operandOf.onLineOf limit token) := by
  rintro s ts ⟨hline, hts⟩ hs
  unfold Leaves operandOf.onLineOf
  rw [ends_bind, ends_current, if_pos (State.current_line_of_onLine hline hs)]
  exact takes_operand limit isName s ts hts hs

/-- Behind the mnemonic `token`. -/
theorem takes_operandOf (limit : Nat) (isName : name.kind = .name) {token : Token} {m : Mnemonic}
    (isMnemonic : token.kind = .instruction m) :
    Takes (fun ts => BeginsItem limit (token :: ts)) name rest
      (operandOf limit token m.operandClass) := by
  intro s ts hts hs
  cases hts with
  | @operand _ m' _ isMnemonic' takes onLine asks =>
      cases isMnemonic.symm.trans isMnemonic'
      have htakes := takes_onLineOf limit isName token s ts ⟨onLine, asks⟩ hs
      rcases takes with hclass | hclass
      · rw [hclass]
        unfold Leaves
        simp only [operandOf, ends_bind]
        refine htakes.imp_post ?_
        rintro (_ | id) s' hs'
        · exact hs'
        · exact hs'
      · rw [hclass]
        exact htakes
  | @target _ m' isMnemonic' takes =>
      cases isMnemonic.symm.trans isMnemonic'
      have hcurrent : s.current.kind = .name := by rw [State.current_eq_of_ahead hs, isName]
      rw [takes]
      unfold Leaves
      simp only [operandOf, ends_bind, ends_expect, ends_add, ends_pure]
      exact ⟨fun _ => State.remaining_advance_of_ahead hs, fun h => absurd hcurrent h⟩
  | data isMarker =>
      rw [isMnemonic] at isMarker
      cases isMarker

theorem takes_dataList (limit : Nat) (isName : name.kind = .name) :
    Takes (DataAsks limit) name rest (dataList limit) := by
  intro s ts hts hs
  unfold Leaves dataList
  rw [ends_bind]
  cases hts with
  | first asks =>
      refine (takes_expression limit limit isName s ts asks hs).imp_post ?_
      rintro (_ | id) s' hs'
      · exact hs'
      · simp only [ends_bind, ends_ahead, ends_addList]
        exact leaves_dataRest limit s'.stream.ahead [id] hs'
  | @further first further comma ts fits isComma asks =>
      have hcomma : EndsSum (comma :: (ts ++ name :: rest)) := by
        rintro _ ⟨⟩
        rw [isComma]
        rfl
      have hs' : s.stream.ahead = first.tokens ++
          (further.flatMap (fun f => f.comma :: f.expression.tokens) ++
            comma :: (ts ++ name :: rest)) := by
        rw [hs, dataTokens]
        simp
      have hfirst := fits first List.mem_cons_self
      refine (expression_reads_back limit limit first s _ hfirst.canonical hfirst.depth_lt hs'
        (endsSum_further further hcomma)).imp ?_ fun _ _ => False.elim
      rintro _ s' ⟨id, rfl, he⟩
      simp only [ends_bind, ends_ahead, ends_addList]
      refine dataRest_reads_back_of s'.stream.ahead (.first he hfirst) ?_
        (he.reads.ahead_eq_rest hs') hcomma (Nat.le_refl _) ?_
      · intro f hf
        exact fits _ (List.mem_cons_of_mem _ (List.mem_map_of_mem hf))
      -- At the last comma the name is asked for.
      · intro bound done s'' hbound hahead _
        cases bound with
        | nil => cases hbound
        | cons b bound =>
            unfold dataRest
            simp only [ends_bind, ends_current, ends_ite, ends_advance, ends_pure,
              State.current_eq_of_ahead hahead]
            refine ⟨fun _ => ?_, fun h => absurd isComma h⟩
            refine (takes_expression limit limit isName _ ts asks
              (State.ahead_advance hahead)).imp_post ?_
            rintro (_ | id) s₁ hs₁
            · exact hs₁
            · exact leaves_dataRest limit bound _ hs₁

/-- An item takes a name that it asks for. -/
theorem takes_item (isName : name.kind = .name) (hts : BeginsItem limit ts)
    (hs : s.stream.ahead = ts ++ name :: rest) :
    ∃ item, item? limit s.current.kind = some item ∧ Leaves rest.length item s := by
  have instructionOf {token : Token} {m : Mnemonic} {more : List Token}
      (hts : BeginsItem limit (token :: more)) (isMnemonic : token.kind = .instruction m)
      (hs : s.stream.ahead = token :: (more ++ name :: rest)) :
      ∃ item, item? limit s.current.kind = some item ∧ Leaves rest.length item s := by
    refine ⟨instruction limit m, ?_, ?_⟩
    · rw [State.current_eq_of_ahead hs, isMnemonic]
      rfl
    · unfold Leaves instruction
      simp only [ends_bind, ends_current, ends_advance, ends_add, ends_pure,
        State.current_eq_of_ahead hs]
      exact takes_operandOf limit isName isMnemonic _ more hts (State.ahead_advance hs)
  cases hts with
  | operand isMnemonic takes onLine asks =>
      exact instructionOf (.operand isMnemonic takes onLine asks) isMnemonic hs
  | target isMnemonic takes => exact instructionOf (.target isMnemonic takes) isMnemonic hs
  | @data marker width more isMarker onLine asks =>
      have hahead : s.advance.stream.ahead = more ++ name :: rest := State.ahead_advance hs
      refine ⟨data limit width, ?_, ?_⟩
      · rw [State.current_eq_of_ahead hs]
        exact item?_of_markerWidth? isMarker
      · unfold Leaves data
        simp only [ends_bind, ends_current, ends_advance, State.current_eq_of_ahead hs,
          State.current_line_of_onLine onLine hahead, if_true]
        refine (takes_dataList limit isName _ more asks hahead).imp_post ?_
        rintro (_ | head) s' hs'
        · exact hs'
        · exact hs'

theorem takes_declaration (limit : Nat) (isName : name.kind = .name) :
    Takes (BeginsDeclaration limit) name rest (declaration limit) := by
  intro s ts hts hs
  cases hts with
  | @value _ equals more _ isEquals asks =>
      have hahead : s.advance.stream.ahead = equals :: (more ++ name :: rest) :=
        State.ahead_advance hs
      unfold Leaves declaration
      simp only [ends_bind, ends_current, ends_advance, ends_add]
      have hvalue := takes_expression limit limit isName _ more asks (State.ahead_advance hahead)
      exact (leaves_required hvalue _).imp_post fun _ _ hs' => hs'

/-! ## Programs -/

theorem remaining_recover_le (e : Failure) (hs : s.remaining ≤ n) :
    (s.recover e).remaining ≤ n := by
  obtain ⟨_, hreads, _⟩ := State.reads_recover s e
  exact Nat.le_trans hreads.remaining_le hs

theorem remaining_statement_of_begins (isName : name.kind = .name)
    (hts : BeginsDeclaration limit ts) (hs : s.stream.ahead = ts ++ name :: rest) :
    (statement limit s).remaining ≤ rest.length := by
  have htakes := takes_declaration limit isName s ts hts hs
  cases hts with
  | @value first equals more isName' isEquals asks =>
      have hfirst : s.current.kind = .name := by rw [State.current_eq_of_ahead hs, isName']
      have hequals : s.stream.advance.current.kind = .equals := by
        rw [show s.stream.advance.current = s.advance.current from rfl,
          State.current_eq_of_ahead (State.ahead_advance hs), isEquals]
      unfold statement
      simp only [hfirst, hequals]
      unfold Leaves Ends at htakes
      split
      next id s' hrun =>
        rw [hrun] at htakes
        exact htakes
      next e s' hrun =>
        rw [hrun] at htakes
        exact remaining_recover_le e htakes

theorem remaining_blockEnd_of_begins (isName : name.kind = .name) {x : List NodeId × State}
    (hts : BeginsItem limit ts) (hs : x.2.stream.ahead = ts ++ name :: rest) :
    (blockEnd limit x).remaining ≤ rest.length := by
  obtain ⟨item, hitem, htakes⟩ := takes_item isName hts hs
  unfold Leaves Ends at htakes
  cases hrun : item x.2 with
  | ok found s' =>
      rw [hrun] at htakes
      rw [blockEnd_eq_of_round (blockRound_of_item hitem hrun)]
      exact Nat.le_trans (remaining_blockEnd_le limit _) htakes
  | error e s' =>
      rw [hrun] at htakes
      rw [blockEnd_eq_of_last (blockRound_of_failure hitem hrun)]
      exact remaining_recover_le e htakes

/-- No statement starts at a name that is asked for. -/
theorem AskedFor.ahead_ne {all : List Token} (h : AskedFor limit all (name :: rest))
    (isName : name.kind = .name) (hs' : AtStatement limit all s') :
    s'.stream.ahead ≠ name :: rest := by
  intro hahead
  have hlength : s'.remaining = rest.length + 1 := congrArg List.length hahead
  -- A statement that starts in front of the name and ends behind it.
  obtain ⟨s, hs, hbefore, hbehind⟩ : ∃ s, AtStatement limit all s ∧
      s'.remaining < s.remaining ∧ (statement limit s).remaining ≤ rest.length := by
    cases h with
    | @declaration s begun started ahead begins =>
        refine ⟨s, started, ?_, remaining_statement_of_begins isName begins ahead⟩
        have hall : s.remaining = _ := congrArg List.length ahead
        rw [hlength, hall, List.length_append, List.length_cons]
        cases begins
        simp
    | @item x begun started ahead begins =>
        obtain ⟨s, hs, _, hle, hstream, _⟩ := started.exists_statement
        have hall : x.2.remaining = _ := congrArg List.length ahead
        have hpos : 0 < begun.length := by
          cases begins <;> exact Nat.succ_pos _
        rw [List.length_append, List.length_cons] at hall
        refine ⟨s, hs, by omega, ?_⟩
        have hend := remaining_blockEnd_of_begins isName begins ahead
        rwa [State.remaining, hstream]
  have hle := hs.remaining_le_statement hs' hbefore
  omega

end Asm6502.Parser
