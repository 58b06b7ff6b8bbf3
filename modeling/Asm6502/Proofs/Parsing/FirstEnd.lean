import Asm6502.Proofs.Parsing.Respacing

/-!
# The first end is the end

A list of tokens may hold more than one end.  A reader that keeps what stands behind the first one
still never comes to it: each token that is passed is known to be no end, and whether a name starts
a statement is asked only where the token ahead is a name, so that the token behind it is the
farthest one looked at.

This is told by cutting.  A stream with ends among its tokens may be cut at the first one, before
it is read or after, and the parsers do not notice, neither by what they answer nor by what they
report.  Only the token found there may differ, in its text, and this is never shown.

The number of attempts depends on all tokens, those behind the first end included.  It plays no
part, because no loop comes to its bound.

## Main results

* `TokenStream.cut_whole` — what a reader is given is what it would cut off itself.
* `cuts_item`, `statement_cut` — parsers do not notice a cut.
* `readStream_cut` — programs are read alike, cut or not.
* `program_firstEnd` — what stands behind the first end plays no part.
-/

namespace Asm6502

/-! ## Streams with ends among their tokens -/

/-- A token as it is shown: what is known of an end is its place. -/
def Token.shown (t : Token) : Token := if t.kind = .eof then .endAt t.position else t

namespace Token

theorem shown_of_ne_eof {t : Token} (h : t.kind ≠ .eof) : t.shown = t := if_neg h

theorem kind_shown (t : Token) : t.shown.kind = t.kind := by
  unfold shown
  split
  next h => exact h.symm
  next => rfl

theorem position_shown (t : Token) : t.shown.position = t.position := by
  unfold shown
  split
  next => rfl
  next => rfl

theorem line_shown (t : Token) : t.shown.line = t.line := congrArg Position.line t.position_shown

end Token

namespace TokenStream

variable {t e : Token} {ts front behind : List Token} {p : Position}

/-- The stream of all tokens of a list, with the end that a reader takes it to have.  Only the last
end is taken as the end. -/
def whole (ts : List Token) : TokenStream where
  ahead := (completed ts).dropLast
  finish := ((completed ts).getLast?.map Token.position).getD .start

/-- The stream up to its first end. -/
def cut (s : TokenStream) : TokenStream where
  ahead := s.ahead.takeWhile isProper
  finish :=
    match s.ahead.dropWhile isProper with
    | e :: _ => e.position
    | [] => s.finish

theorem cut_cons (h : t.kind ≠ .eof) (ts : List Token) (p : Position) :
    cut ⟨t :: ts, p⟩ = ⟨t :: (cut ⟨ts, p⟩).ahead, (cut ⟨ts, p⟩).finish⟩ := by
  have hproper : isProper t = true := bne_iff_ne.2 h
  simp only [cut, List.takeWhile_cons_of_pos hproper, List.dropWhile_cons_of_pos hproper]

theorem cut_cons_eof (h : t.kind = .eof) (ts : List Token) (p : Position) :
    cut ⟨t :: ts, p⟩ = ⟨[], t.position⟩ := by
  have hend : ¬ isProper t = true := by simp [isProper, h]
  simp only [cut, List.takeWhile_cons_of_neg hend, List.dropWhile_cons_of_neg hend]

/-- A stream without ends among its tokens stays as it is. -/
theorem cut_of_proper (h : ∀ t ∈ ts, t.kind ≠ .eof) (p : Position) : cut ⟨ts, p⟩ = ⟨ts, p⟩ := by
  induction ts with
  | nil => rfl
  | cons t ts ih =>
      rw [cut_cons (h t List.mem_cons_self), ih fun u hu => h u (List.mem_cons_of_mem _ hu)]

theorem cut_append_eof (hfront : ∀ t ∈ front, t.kind ≠ .eof) (he : e.kind = .eof)
    (behind : List Token) (p : Position) :
    cut ⟨front ++ e :: behind, p⟩ = ⟨front, e.position⟩ := by
  induction front with
  | nil => exact cut_cons_eof he behind p
  | cons t front ih =>
      rw [List.cons_append, cut_cons (hfront t List.mem_cons_self),
        ih fun u hu => hfront u (List.mem_cons_of_mem _ hu)]

/-- What a reader is given of a list of tokens is the stream of all of them, cut. -/
theorem cut_whole (ts : List Token) : (whole ts).cut = ofTokens ts := by
  rw [← ofTokens_completed ts, whole]
  obtain ⟨front, e, behind, hall, hfront, he⟩ := exists_eq_append_eof (exists_eof_completed ts)
  rw [hall, ofTokens_append_eof hfront he]
  cases behind with
  | nil =>
      rw [List.dropLast_concat, List.getLast?_concat]
      exact cut_of_proper hfront e.position
  | cons b behind =>
      rw [List.dropLast_append_cons, List.dropLast_cons_cons]
      exact cut_append_eof hfront he _ _

/-- Labels are no ends, so a cut lies behind the labels ahead. -/
theorem labels_cut (ts : List Token) (p : Position) :
    let isLabel (t : Token) : Bool := t.kind == .label
    (cut ⟨ts, p⟩).ahead.takeWhile isLabel = ts.takeWhile isLabel ∧
      ⟨(cut ⟨ts, p⟩).ahead.dropWhile isLabel, (cut ⟨ts, p⟩).finish⟩ =
        cut ⟨ts.dropWhile isLabel, p⟩ := by
  intro isLabel
  induction ts with
  | nil => exact ⟨rfl, rfl⟩
  | cons t ts ih =>
      by_cases hlabel : isLabel t = true
      · have hproper : t.kind ≠ .eof := by
          rw [eq_of_beq hlabel]
          decide
        rw [cut_cons hproper, List.takeWhile_cons_of_pos hlabel, List.takeWhile_cons_of_pos hlabel,
          List.dropWhile_cons_of_pos hlabel, List.dropWhile_cons_of_pos hlabel, ih.1]
        exact ⟨rfl, ih.2⟩
      · rw [List.takeWhile_cons_of_neg hlabel, List.dropWhile_cons_of_neg hlabel]
        by_cases heof : t.kind = .eof
        · rw [cut_cons_eof heof]
          exact ⟨rfl, rfl⟩
        · rw [cut_cons heof, List.takeWhile_cons_of_neg hlabel, List.dropWhile_cons_of_neg hlabel]
          exact ⟨rfl, rfl⟩

theorem current_cut (s : TokenStream) : s.cut.current = s.current.shown := by
  obtain ⟨ahead, p⟩ := s
  cases ahead with
  | nil => rfl
  | cons t ts =>
      by_cases ht : t.kind = .eof
      · rw [cut_cons_eof ht, current_cons, Token.shown, if_pos ht]
        rfl
      · rw [cut_cons ht, current_cons, current_cons, Token.shown_of_ne_eof ht]

theorem advance_cut {s : TokenStream} (h : s.current.kind ≠ .eof) :
    s.cut.advance = s.advance.cut := by
  obtain ⟨ahead, p⟩ := s
  cases ahead with
  | nil => exact absurd rfl h
  | cons t ts =>
      rw [current_cons] at h
      rw [cut_cons h, advance_cons, advance_cons]

end TokenStream

namespace Parser

open Syntax

variable {α β : Type} {s s' : State} {limit : Nat} {E : Parser (Option NodeId)}

/-! ## States and runs, cut -/

/-- The failure as it is shown. -/
def Failure.shown : Failure → Failure
  | .unexpected expected found => .unexpected expected found.shown
  | .noExpression after position => .noExpression after position
  | .tooDeep limit position => .tooDeep limit position

/-- Of the token found, only the kind and the place are reported. -/
theorem Failure.diagnostic_unexpected {t u : Token} (hkind : t.kind = u.kind)
    (hposition : t.position = u.position) (expected : String) :
    (unexpected expected t).diagnostic = (unexpected expected u).diagnostic := by
  obtain ⟨kind, text, position⟩ := t
  obtain ⟨kind', text', position'⟩ := u
  cases hkind
  cases hposition
  rfl

theorem Failure.diagnostic_shown (e : Failure) : e.shown.diagnostic = e.diagnostic := by
  cases e with
  | unexpected expected found =>
      exact diagnostic_unexpected found.kind_shown found.position_shown expected
  | noExpression after position => rw [shown]
  | tooDeep limit position => rw [shown]

/-- The state with the tokens ahead cut. -/
def State.cut (s : State) : State := { s with stream := s.stream.cut }

namespace State

theorem current_cut (s : State) : s.cut.current = s.current.shown := s.stream.current_cut

theorem current_cut_of_ne_eof (h : s.current.kind ≠ .eof) : s.cut.current = s.current := by
  rw [current_cut, Token.shown_of_ne_eof h]

theorem kind_current_cut (s : State) : s.cut.current.kind = s.current.kind := by
  rw [current_cut, Token.kind_shown]

theorem position_current_cut (s : State) : s.cut.current.position = s.current.position := by
  rw [current_cut, Token.position_shown]

/-- An end is never passed, and behind any other token the cut is the same. -/
theorem advance_cut (h : s.current.kind ≠ .eof) : s.cut.advance = s.advance.cut := by
  show State.mk s.stream.cut.advance s.tree s.diagnostics = _
  rw [TokenStream.advance_cut h]
  rfl

theorem skip_cut (h : s.current.kind ≠ .eof) (report : Token → Diagnostic) :
    s.cut.skip report = (s.skip report).cut := by
  show (s.cut.diagnose (report s.cut.current)).advance = _
  rw [current_cut_of_ne_eof h]
  exact advance_cut (s := s.diagnose (report s.current)) h

theorem skipDirective_cut (h : s.current.kind = .directive) :
    s.cut.skipDirective = s.skipDirective.cut := by
  have hproper : s.current.kind ≠ .eof := by
    rw [h]
    decide
  unfold skipDirective
  dsimp only
  rw [advance_cut hproper, kind_current_cut]
  split
  next hconst => exact advance_cut (ne_eof_of_isConstant hconst)
  next => rfl

end State

theorem startsStatement_cut (stream : TokenStream) :
    startsStatement stream.cut = startsStatement stream := by
  have hkind : stream.cut.current.kind = stream.current.kind := by
    rw [TokenStream.current_cut, Token.kind_shown]
  unfold startsStatement
  rw [hkind]
  split
  next => rfl
  next => rfl
  next => rfl
  next hname =>
    rw [TokenStream.advance_cut (by rw [hname]; decide), TokenStream.current_cut, Token.kind_shown]
  next => rfl

theorem endsBlock_cut (stream : TokenStream) : endsBlock stream.cut = endsBlock stream := by
  rw [endsBlock, startsStatement_cut, TokenStream.current_cut, Token.kind_shown]
  rfl

/-- Seeking a statement stops at an end. -/
theorem seekStatement_cut (finish : Position) (ts : List Token) :
    seekStatement (TokenStream.cut ⟨ts, finish⟩).finish (TokenStream.cut ⟨ts, finish⟩).ahead =
      (seekStatement finish ts).cut := by
  induction ts with
  | nil => rfl
  | cons t ts ih =>
      by_cases ht : t.kind = .eof
      · have hstarts : startsStatement ⟨t :: ts, finish⟩ = true := by
          simp [startsStatement, ht]
        rw [seekStatement, if_pos hstarts, TokenStream.cut_cons_eof ht]
        rfl
      · have hcut := startsStatement_cut ⟨t :: ts, finish⟩
        rw [TokenStream.cut_cons ht] at hcut ⊢
        rw [seekStatement, seekStatement, hcut]
        split
        next => rw [TokenStream.cut_cons ht]
        next => exact ih

theorem State.recover_cut (s : State) (e : Failure) :
    s.cut.recover e.shown = (s.recover e).cut := by
  show State.mk (seekStatement s.stream.cut.finish s.stream.cut.ahead) s.tree
      (s.diagnostics.push e.shown.diagnostic) = _
  rw [e.diagnostic_shown, seekStatement_cut]
  rfl

/-- The result with the tokens ahead cut. -/
def cutResult : Result α → Result α
  | .ok a s => .ok a s.cut
  | .error e s => .error e.shown s.cut

/-- The parser does not notice a cut. -/
def Cuts (p : Parser α) (s : State) : Prop := p s.cut = cutResult (p s)

theorem Cuts.bind {p : Parser α} {f : α → Parser β} (hp : Cuts p s)
    (hf : ∀ a s', p s = .ok a s' → Cuts (f a) s') : Cuts (p >>= f) s := by
  unfold Cuts at hp ⊢
  simp only [Bind.bind, EStateM.bind]
  rw [hp]
  cases h : p s with
  | ok a s' => exact hf a s' h
  | error e s' => rfl

/-- The token ahead is read, and shows no more than it does behind a cut. -/
theorem Cuts.current_bind {f : Token → Parser α}
    (hf : f s.current.shown s.cut = cutResult (f s.current s)) : Cuts (current >>= f) s := by
  show f s.cut.current s.cut = _
  rw [State.current_cut]
  exact hf

/-- A token that is no end is read as it is. -/
theorem Cuts.current_bind_of_ne_eof {f : Token → Parser α} (h : s.current.kind ≠ .eof)
    (hf : Cuts (f s.current) s) : Cuts (current >>= f) s := by
  refine .current_bind ?_
  rw [Token.shown_of_ne_eof h]
  exact hf

theorem Cuts.advance_bind {f : Unit → Parser α} (h : s.current.kind ≠ .eof)
    (hf : Cuts (f ()) s.advance) : Cuts (advance >>= f) s := by
  show f () s.cut.advance = _
  rw [State.advance_cut h]
  exact hf

/-- A token of another kind is shown by its kind and place. -/
theorem cuts_expect {k : Token.Kind} (hk : k ≠ .eof) (s : State) : Cuts (expect k) s := by
  by_cases h : s.current.kind = k
  · have hproper : s.current.kind ≠ .eof := h ▸ hk
    refine .current_bind_of_ne_eof hproper ?_
    rw [if_pos h]
    exact .advance_bind hproper rfl
  · refine .current_bind ?_
    rw [Token.kind_shown, if_neg h, if_neg h]
    rfl

/-! ## Expressions -/

theorem cuts_required (hE : ∀ s, Cuts E s) (after : Token) (s : State) :
    Cuts (required E after) s := by
  refine (hE s).bind ?_
  intro answer s' _
  cases answer with
  | none =>
      show EStateM.Result.error (Failure.noExpression after.text s'.cut.current.position) s'.cut = _
      rw [State.position_current_cut]
      rfl
  | some id => rfl

theorem cuts_leaf (h : s.current.kind ≠ .eof) (k : Node.Kind) : Cuts (leaf k) s :=
  .current_bind_of_ne_eof h (.advance_bind h rfl)

theorem cuts_signed (hE : ∀ s, Cuts E s) (h : s.current.kind ≠ .eof) (w : Wrapper) :
    Cuts (signed E w) s := by
  refine .current_bind_of_ne_eof h (.advance_bind h ((cuts_required hE _ _).bind ?_))
  intro child s' _
  rfl

theorem cuts_parenthesised (hE : ∀ s, Cuts E s) (h : s.current.kind ≠ .eof) :
    Cuts (parenthesised E) s := by
  refine .current_bind_of_ne_eof h (.advance_bind h ((cuts_required hE _ _).bind ?_))
  intro child s' _
  refine (cuts_expect (by decide) s').bind ?_
  intro closing s'' _
  rfl

theorem cuts_primary (hE : ∀ s, Cuts E s) (s : State) : Cuts (primary E) s := by
  by_cases h : s.current.kind = .eof
  · have hcut : s.cut.current.kind = .eof := (s.kind_current_cut).trans h
    rw [Cuts, primary_of_isStop (.inl h), primary_of_isStop (.inl hcut)]
    rfl
  · refine .current_bind_of_ne_eof h ?_
    cases s.current.kind with
    | name => exact cuts_leaf h _
    | hexConst | binConst | decConst => exact cuts_leaf h _
    | hash => exact cuts_signed hE h .immediate
    | less => exact cuts_signed hE h .loByte
    | greater => exact cuts_signed hE h .hiByte
    | parenLeft => exact cuts_parenthesised hE h
    | _ => rfl

/-- A link of a chain does not notice a cut. -/
theorem sumRound_cut (hE : ∀ s, Cuts E s) (x : NodeId × State) :
    sumRound E (x.1, x.2.cut) = (sumRound E x).map (fun y => (y.1, y.2.cut)) cutResult := by
  obtain ⟨left, s⟩ := x
  unfold sumRound
  dsimp only
  rw [State.kind_current_cut]
  cases hoperator : sumOperator? s.current.kind with
  | none => rfl
  | some operator =>
      have hcurrent : s.current.kind ≠ .eof := ne_eof_of_eq_some hoperator rfl
      have hright := cuts_required (cuts_primary hE) s.current s.advance
      dsimp only
      rw [State.current_cut_of_ne_eof hcurrent, State.advance_cut hcurrent, hright]
      cases required (primary E) s.current s.advance with
      | ok right s' => rfl
      | error e s' => rfl

/-- A chain ends by itself, within the tokens ahead of the cut as well. -/
theorem sumRest_cut {levels : Nat} (hE : ∀ s, Cuts (expression limit levels) s) (left : NodeId)
    (s : State) :
    sumRest (expression limit levels) s.cut.stream.ahead left s.cut =
      cutResult (sumRest (expression limit levels) s.stream.ahead left s) := by
  obtain ⟨_, _, h⟩ := sumRest_rounds limit levels left (Nat.le_refl s.remaining)
  obtain ⟨_, _, h'⟩ := sumRest_rounds limit levels left (Nat.le_refl s.cut.remaining)
  exact h.eq_of_map h' (sumRound_cut hE)

theorem cuts_expression (limit levels : Nat) (s : State) : Cuts (expression limit levels) s := by
  induction levels generalizing s with
  | zero =>
      show EStateM.Result.error (Failure.tooDeep limit s.cut.current.position) s.cut = _
      rw [State.position_current_cut]
      rfl
  | succ levels ih =>
      show Cuts (sum (expression limit levels)) s
      refine (cuts_primary ih s).bind ?_
      intro answer s' _
      cases answer with
      | none => rfl
      | some left =>
          have hrest : Cuts (fun s => sumRest (expression limit levels) s.stream.ahead left s) s' :=
            sumRest_cut ih left s'
          refine hrest.bind ?_
          intro id s'' _
          rfl

/-! ## Items -/

theorem cuts_operand (limit : Nat) (s : State) : Cuts (operand limit) s := by
  refine (cuts_expression limit limit s).bind ?_
  intro answer s' _
  cases answer with
  | none => rfl
  | some id =>
      refine .current_bind ?_
      rw [Token.kind_shown]
      by_cases hcomma : s'.current.kind = .comma
      · rw [if_pos hcomma]
        refine Cuts.advance_bind (by rw [hcomma]; decide) (.current_bind ?_)
        rw [Token.kind_shown]
        cases hregister : indexWrapper? s'.advance.current.kind with
        | none => rfl
        | some wrapper => exact Cuts.advance_bind (ne_eof_of_eq_some hregister rfl) rfl
      · rw [if_neg hcomma]
        rfl

theorem cuts_onLineOf (limit : Nat) (token : Token) (s : State) :
    Cuts (operandOf.onLineOf limit token) s := by
  refine .current_bind ?_
  rw [Token.line_shown]
  split
  next => exact cuts_operand limit s
  next => rfl

theorem cuts_operandOf (limit : Nat) (token : Token) (c : OperandClass) (s : State) :
    Cuts (operandOf limit token c) s := by
  cases c with
  | implied => rfl
  | memory =>
      refine (cuts_onLineOf limit token s).bind ?_
      intro answer s' _
      cases answer with
      | none => rfl
      | some id => rfl
  | accumulator => exact cuts_onLineOf limit token s
  | target =>
      refine (cuts_expect (by decide) s).bind ?_
      intro target s' _
      rfl

theorem cuts_instruction (limit : Nat) (m : Mnemonic) (h : s.current.kind ≠ .eof) :
    Cuts (instruction limit m) s := by
  refine .current_bind_of_ne_eof h (.advance_bind h ((cuts_operandOf limit _ _ _).bind ?_))
  intro operand s' _
  rfl

/-- A comma and what stands behind it do not notice a cut. -/
theorem dataRound_cut (limit : Nat) (x : List NodeId × State) :
    dataRound limit (x.1, x.2.cut) =
      (dataRound limit x).map (fun y => (y.1, y.2.cut)) cutResult := by
  obtain ⟨done, s⟩ := x
  unfold dataRound
  dsimp only
  rw [State.kind_current_cut]
  by_cases hcomma : s.current.kind = .comma
  · have hvalue := cuts_expression limit limit s.advance
    rw [if_pos hcomma, if_pos hcomma, State.advance_cut (by rw [hcomma]; decide), hvalue]
    cases expression limit limit s.advance with
    | ok answer s' =>
        cases answer with
        | none => rfl
        | some id => rfl
    | error e s' => rfl
  · rw [if_neg hcomma, if_neg hcomma]
    rfl

theorem cuts_dataList (limit : Nat) (s : State) : Cuts (dataList limit) s := by
  refine (cuts_expression limit limit s).bind ?_
  intro answer s' _
  cases answer with
  | none => rfl
  | some first =>
      obtain ⟨_, _, h⟩ := dataRest_rounds limit [first] (Nat.le_refl s'.remaining)
      obtain ⟨_, _, h'⟩ := dataRest_rounds limit [first] (Nat.le_refl s'.cut.remaining)
      have hrest : Cuts (fun s => dataRest limit s.stream.ahead [first] s) s' :=
        h.eq_of_map h' (dataRound_cut limit)
      refine hrest.bind ?_
      intro ids s'' _
      rfl

theorem cuts_data (limit : Nat) (width : DataWidth) (h : s.current.kind ≠ .eof) :
    Cuts (data limit width) s := by
  refine .current_bind_of_ne_eof h (.advance_bind h (.current_bind ?_))
  dsimp only
  rw [Token.line_shown, Simulation.ite_bind_bind]
  refine Cuts.bind ?_ ?_
  · split
    next => exact cuts_dataList limit _
    next => rfl
  · intro values s' _
    cases values with
    | none => rfl
    | some head => rfl

/-- Items do not notice a cut. -/
theorem cuts_item {item : Parser (Option NodeId)} (h : item? limit s.current.kind = some item) :
    Cuts item s := by
  have hcurrent := ne_eof_of_eq_some h rfl
  unfold item? at h
  split at h
  next m _ =>
    cases h
    exact cuts_instruction limit m hcurrent
  next =>
    cases h
    exact cuts_data limit .byte hcurrent
  next =>
    cases h
    exact cuts_data limit .word hcurrent
  next => cases h

/-! ## Blocks and sections -/

theorem blockRound_cut (limit : Nat) (x : List NodeId × State) :
    blockRound limit (x.1, x.2.cut) =
      (blockRound limit x).map (fun y => (y.1, y.2.cut)) (fun r => (r.1, r.2.cut)) := by
  obtain ⟨done, s⟩ := x
  have hends : endsBlock s.cut.stream = endsBlock s.stream := endsBlock_cut s.stream
  unfold blockRound
  dsimp only
  rw [hends, State.kind_current_cut]
  split
  next => rfl
  next hgoes =>
    split
    next hdirective =>
      rw [State.skipDirective_cut hdirective]
      rfl
    next =>
      cases hitem : item? limit s.current.kind with
      | none =>
          dsimp only
          rw [State.skip_cut (current_ne_eof_of_not_endsBlock hgoes)]
          rfl
      | some item =>
          dsimp only
          rw [cuts_item hitem]
          cases item s with
          | ok found s' => rfl
          | error e s' => exact congrArg (fun s => Sum.inr (done.reverse, s)) (s'.recover_cut e)

theorem block_cut (limit : Nat) (s : State) :
    block limit s.cut = ((block limit s).1, (block limit s).2.cut) := by
  obtain ⟨_, _, h⟩ := blockItems_rounds limit [] (Nat.le_refl s.remaining)
  obtain ⟨_, _, h'⟩ := blockItems_rounds limit [] (Nat.le_refl s.cut.remaining)
  have hitems := h.eq_of_map h' (blockRound_cut limit)
  unfold block
  rw [hitems]
  rfl

theorem State.labels_cut (s : State) :
    s.cut.labels = s.labels ∧ s.cut.pastLabels = s.pastLabels.cut := by
  obtain ⟨hlabels, hpast⟩ := TokenStream.labels_cut s.stream.ahead s.stream.finish
  exact ⟨hlabels, congrArg (fun stream => State.mk stream s.tree s.diagnostics) hpast⟩

theorem addLabels_cut (labels : List Token) (x : Option NodeId × State) :
    addLabels labels (x.1, x.2.cut) = ((addLabels labels x).1, (addLabels labels x).2.cut) := by
  induction labels with
  | nil => rfl
  | cons label labels ih =>
      rw [addLabels_cons, addLabels_cons, ih]
      rfl

theorem labelSection_cut (limit : Nat) (token : Token) (s : State) :
    labelSection limit token s.cut = (labelSection limit token s).cut := by
  obtain ⟨hlabels, hpast⟩ := s.labels_cut
  rw [labelSection_eq, labelSection_eq, hlabels, hpast, block_cut, addLabels_cut]
  rfl

/-! ## Statements -/

theorem cuts_declaration (limit : Nat) (hname : s.current.kind ≠ .eof)
    (hequals : s.advance.current.kind ≠ .eof) : Cuts (declaration limit) s := by
  refine .current_bind_of_ne_eof hname (.advance_bind hname ?_)
  refine .current_bind_of_ne_eof hequals (.advance_bind hequals ?_)
  refine (cuts_required (cuts_expression limit limit) _ _).bind ?_
  intro value s' _
  rfl

/-- A statement does not notice a cut. -/
theorem statement_cut (limit : Nat) (h : s.current.kind ≠ .eof) :
    statement limit s.cut = (statement limit s).cut := by
  have hnext : s.cut.stream.advance.current.kind = s.stream.advance.current.kind := by
    show s.cut.advance.current.kind = _
    rw [State.advance_cut h, State.kind_current_cut]
    rfl
  unfold statement
  dsimp only
  rw [State.kind_current_cut, hnext, State.current_cut_of_ne_eof h]
  split
  next hdirective => exact State.skipDirective_cut hdirective
  next =>
    rw [State.advance_cut h]
    exact labelSection_cut limit _ _
  next =>
    split
    next hequals =>
      have hproper : s.advance.current.kind ≠ .eof := by
        rw [show s.advance.current.kind = .equals from hequals]
        decide
      rw [cuts_declaration limit h hproper]
      cases declaration limit s with
      | ok id s' => rfl
      | error e s' => exact s'.recover_cut e
    next hcolon =>
      have hproper : s.advance.current.kind ≠ .eof := by
        rw [show s.advance.current.kind = .colon from hcolon]
        decide
      rw [State.advance_cut h, State.advance_cut hproper]
      exact labelSection_cut limit _ (s.advance.advance.diagnose (.detachedLabel s.current))
    next => exact State.skip_cut h .strayName
  next => exact State.skip_cut h .noStatement

theorem statementRound_cut (limit : Nat) (s : State) :
    statementRound limit s.cut = (statementRound limit s).map State.cut State.cut := by
  unfold statementRound
  rw [State.kind_current_cut]
  split
  next => rfl
  next h => exact congrArg Sum.inl (statement_cut limit h)

/-! ## Programs -/

/-- Reads the program that a stream of tokens is, whether or not there are ends among them. -/
def readStream (limit : Nat) (stream : TokenStream) : Outcome :=
  let start : State := ⟨stream, .empty, #[]⟩
  let attempts := 2 * (start.remaining + 1)
  let s := statements limit attempts attempts start
  ⟨s.tree, s.diagnostics.toList⟩

theorem program_eq_readStream (limit : Nat) (ts : List Token) :
    program limit ts = readStream limit (.ofTokens ts) := rfl

/-- The attempts are enough, also where tokens are counted that are never read. -/
theorem readStream_rounds (limit : Nat) (stream : TokenStream) :
    ∃ n s', Rounds (statementRound limit) n ⟨stream, .empty, #[]⟩ s' ∧
      readStream limit stream = ⟨s'.tree, s'.diagnostics.toList⟩ := by
  let start : State := ⟨stream, .empty, #[]⟩
  let attempts := 2 * (start.remaining + 1)
  have hstart : Accounts limit stream.ahead start [] :=
    ⟨⟨Tree.rooted_empty, Tree.descends_empty, .nil, by simp⟩, rfl, rfl, by simp⟩
  have hbound : start.remaining ≤ (List.replicate attempts ()).length := by
    rw [List.length_replicate]
    omega
  obtain ⟨n, _, hrounds⟩ := statements_rounds limit attempts hstart hbound
  rw [List.length_replicate] at hrounds
  exact ⟨n, _, hrounds, rfl⟩

/-- Whether a stream is cut before it is read plays no part. -/
theorem readStream_cut (limit : Nat) (stream : TokenStream) :
    readStream limit stream.cut = readStream limit stream := by
  obtain ⟨_, s, hrounds, hread⟩ := readStream_rounds limit stream
  obtain ⟨_, s', hrounds', hread'⟩ := readStream_rounds limit stream.cut
  have hends : s' = s.cut := hrounds.eq_of_map hrounds' (statementRound_cut limit)
  rw [hread, hread', hends]
  rfl

theorem program_eq_of_ofTokens {ts us : List Token}
    (h : TokenStream.ofTokens ts = TokenStream.ofTokens us) (limit : Nat) :
    program limit ts = program limit us := by
  rw [program_eq_readStream, program_eq_readStream, h]

/-- The first end is the end.  A reader that keeps all tokens, those behind the first end
included, reads the same program as one that is given those in front of it only.  So nothing
behind the first end plays a part, and where no end is told, it stands where the last token
does. -/
theorem program_firstEnd (limit : Nat) :
    (∀ all : List Token, readStream limit (.whole all) = program limit all) ∧
      (∀ (ts us : List Token) (e : Token), (∀ t ∈ ts, t.kind ≠ .eof) → e.kind = .eof →
        program limit (ts ++ [e] ++ us) = program limit (ts ++ [e])) ∧
      ∀ (ts : List Token) (last : Token), ts.getLast? = some last →
        program limit ts = program limit (ts ++ [.endAt last.position]) := by
  refine ⟨?_, ?_, ?_⟩
  · intro all
    rw [← readStream_cut, TokenStream.cut_whole, program_eq_readStream]
  · intro ts us e hts he
    refine program_eq_of_ofTokens ?_ limit
    rw [List.append_assoc, List.singleton_append, TokenStream.ofTokens_append_eof hts he,
      TokenStream.ofTokens_append_eof hts he]
  · intro ts last hlast
    refine program_eq_of_ofTokens ?_ limit
    by_cases hend : last.kind = .eof
    · obtain ⟨front, e, behind, rfl, hfront, he⟩ :=
        TokenStream.exists_eq_append_eof ⟨last, List.mem_of_getLast? hlast, hend⟩
      rw [List.append_assoc, List.cons_append, TokenStream.ofTokens_append_eof hfront he,
        TokenStream.ofTokens_append_eof hfront he]
    · have hopen : ts.getLast?.map Token.kind ≠ some .eof := by
        rw [hlast]
        exact fun h => hend (Option.some.inj h)
      rw [← TokenStream.ofTokens_completed ts, TokenStream.completed, if_neg hopen, hlast]
      rfl

/-- An end stands in the middle of a declaration, with its value and a label behind it.  What is
read is a section without a block, and a declaration that lacks its value. -/
theorem program_firstEnd_brokenOff :
    let ts : List Token := [⟨.label, "s:", ⟨1, 1⟩⟩, ⟨.name, "X", ⟨1, 4⟩⟩, ⟨.equals, "=", ⟨1, 6⟩⟩]
    let e : Token := ⟨.eof, "?", ⟨1, 8⟩⟩
    let us : List Token := [⟨.decConst, "1", ⟨1, 8⟩⟩, ⟨.label, "t:", ⟨2, 1⟩⟩]
    let outcome := program defaultLimit (ts ++ [e])
    (∀ t ∈ ts, t.kind ≠ .eof) ∧
      outcome.tree.items.length = 1 ∧
      outcome.diagnostics.map (fun d => (d.kind, d.position)) = [(.unexpectedToken, ⟨1, 8⟩)] ∧
      readStream defaultLimit (.whole (ts ++ [e] ++ us)) = program defaultLimit (ts ++ [e] ++ us) ∧
      program defaultLimit (ts ++ [e] ++ us) = outcome ∧
      us.getLast? = some ⟨.label, "t:", ⟨2, 1⟩⟩ ∧
      program defaultLimit us = program defaultLimit (us ++ [.endAt ⟨2, 1⟩]) := by
  intro ts e us outcome
  obtain ⟨hwhole, hbehind, hopen⟩ := program_firstEnd defaultLimit
  have hproper : ∀ t ∈ ts, t.kind ≠ .eof := by decide
  have hitems : outcome.tree.items.length = 1 := by decide +kernel
  have hreports : outcome.diagnostics.map (fun d => (d.kind, d.position)) =
      [(.unexpectedToken, ⟨1, 8⟩)] := by decide +kernel
  exact ⟨hproper, hitems, hreports, hwhole (ts ++ [e] ++ us), hbehind ts us e hproper rfl, rfl,
    hopen us ⟨.label, "t:", ⟨2, 1⟩⟩ rfl⟩

end Parser

end Asm6502
