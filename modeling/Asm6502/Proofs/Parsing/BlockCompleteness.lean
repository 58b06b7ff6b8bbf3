import Asm6502.Proofs.Parsing.ExpressionCompleteness
import Asm6502.Proofs.Parsing.Layout
import Asm6502.Proofs.Parsing.Loops

/-!
# Code blocks are read back

The items of a block are read back as these items, if each of them has a line of
its own and something behind the last one ends the block.  The lines matter to
instructions without an operand: their operand would be whatever comes next on the
same line.  The end of the tokens may well stand there.  It is no operand, but to
find this out takes the first level of nesting.

## Main results

* `item_reads_back` — an item in front of another line.
* `block_reads_back`, `bareBlock_reads_back` — a block, and a directive in place of
  one.
-/

namespace Asm6502.Parser

open Syntax

variable {s s' s₀ : State} {limit : Nat} {rest : List Token}

/-! ## Operands and arguments -/

/-- What may follow an item on line `n`: nothing that goes on with its last expression,
and nothing on this line. -/
structure EndsItem (n : Nat) (rest : List Token) : Prop where
  operand : EndsOperand rest
  line : ∀ t ∈ rest.head?, t.line ≠ n

/-- The end of the tokens is no operand. -/
theorem operand_of_nil (hlimit : 1 ≤ limit) (hs : s.stream.ahead = []) :
    Ends (operand limit) s (fun answer s' => answer = none ∧ s' = s) Never := by
  have hstop : IsStop s.current.kind := by
    rw [State.current_of_nil hs]
    exact .inl rfl
  rw [Ends, operand_of_isStop hlimit hstop]
  exact ⟨rfl, rfl⟩

theorem onLineOf_reads_back {token : Token} {o? : Option Operand} (hlimit : 1 ≤ limit)
    (hc : ∀ o ∈ o?, o.expression.Canonical) (hdepth : ∀ o ∈ o?, o.expression.depth < limit)
    (hs : s.stream.ahead = (o?.map Operand.tokens).getD [] ++ rest)
    (hline : ∀ t ∈ (o?.map Operand.tokens).getD [], t.line = token.line)
    (hrest : EndsItem token.line rest) :
    Ends (operandOf.onLineOf limit token) s
      (fun answer s' => s.Reads s' ((o?.map Operand.tokens).getD []) [] ∧
        Operand.ShownIfAny s'.tree o? answer)
      Never := by
  unfold operandOf.onLineOf
  rw [ends_bind, ends_current, ends_ite]
  cases o? with
  | none =>
      refine ⟨fun hsame => ?_, fun _ => ⟨.refl s, rfl⟩⟩
      -- A next token would stand on another line, so it is the end that stands on this one.
      have hnil : s.stream.ahead = [] := by
        cases hahead : s.stream.ahead with
        | nil => rfl
        | cons t ts =>
            rw [State.current_eq_of_ahead hahead] at hsame
            have hs' : t :: ts = rest := hahead.symm.trans hs
            exact absurd hsame (hrest.line t (by rw [← hs']; rfl))
      refine (operand_of_nil hlimit hnil).imp_post ?_
      rintro answer s' ⟨rfl, rfl⟩
      exact ⟨.refl _, rfl⟩
  | some o =>
      have hs' : s.stream.ahead = o.tokens ++ rest := hs
      obtain ⟨t, ts, hts, _⟩ := o.exists_tokens_eq
      have hcurrent : s.current = t := State.current_eq_of_ahead (hs'.trans (by rw [hts]; rfl))
      have hsame : s.current.line = token.line := by
        apply hline
        rw [hcurrent]
        show t ∈ o.tokens
        rw [hts]
        exact List.mem_cons_self
      refine ⟨fun _ => ?_, fun h => absurd hsame h⟩
      refine (operand_reads_back (hc o rfl) (hdepth o rfl) hs' hrest.operand).imp_post ?_
      rintro _ s' ⟨id, rfl, hreads, hshown⟩
      exact ⟨hreads, id, rfl, hshown⟩

theorem operandOf_reads_back {token : Token} {c : OperandClass} {a : Arguments c}
    (hlimit : 1 ≤ limit) (hc : ∀ o ∈ a.operand?, o.expression.Canonical)
    (hdepth : ∀ o ∈ a.operand?, o.expression.depth < limit)
    (hs : s.stream.ahead = a.tokens ++ rest) (hline : ∀ t ∈ a.tokens, t.line = token.line)
    (hrest : EndsItem token.line rest) :
    Ends (operandOf limit token c) s
      (fun answer s' => s.Reads s' a.tokens (argumentReports token a) ∧
        a.ShownAt s'.tree answer)
      Never := by
  cases a with
  | implied => exact ⟨.refl s, rfl⟩
  | accumulator operand => exact onLineOf_reads_back hlimit hc hdepth hs hline hrest
  | memory operand =>
      simp only [operandOf, ends_bind]
      refine (onLineOf_reads_back hlimit hc hdepth hs hline hrest).imp_post ?_
      rintro answer s' ⟨hreads, hshown⟩
      cases operand with
      | none =>
          have hanswer : answer = none := hshown
          rw [hanswer]
          simp only [Option.isNone_none, if_true, ends_bind, ends_diagnose, ends_pure]
          exact ⟨hreads.trans (State.reads_diagnose s' (.noOperand token)), rfl⟩
      | some o =>
          obtain ⟨id, rfl, ho⟩ := hshown
          exact ⟨hreads, id, rfl, ho⟩
  | target t isName =>
      have hcurrent : s.current = t := State.current_eq_of_ahead hs
      simp only [operandOf, ends_bind, ends_expect, ends_add, ends_pure, hcurrent]
      refine ⟨fun _ => ?_, fun h => absurd isName h⟩
      have hpassed := State.reads_advance_of_ahead hs
      have hadd := State.reads_add (s := s.advance) (k := .name t.text) t.line
        (by simp [Node.Kind.children])
      have hreads := hpassed.trans hadd
      exact ⟨hreads, _, rfl, State.node_add ..⟩

/-! ## Items -/

/-- The answer that is the item `i`. -/
def ReadsItem (s : State) (i : Item) (answer : Option NodeId) (s' : State) : Prop :=
  ∃ id, answer = some id ∧ s.Reads s' i.tokens i.reports ∧ i.ShownAt s'.tree id

theorem instruction_reads_back {t : Token} {m : Mnemonic} {isMnemonic : t.kind = .instruction m}
    {a : Arguments m.operandClass} (hlimit : 1 ≤ limit)
    (hc : ∀ o ∈ a.operand?, o.expression.Canonical)
    (hdepth : ∀ o ∈ a.operand?, o.expression.depth < limit)
    (hs : s.stream.ahead = t :: (a.tokens ++ rest)) (hline : ∀ u ∈ a.tokens, u.line = t.line)
    (hrest : EndsItem t.line rest) :
    Ends (instruction limit m) s (ReadsItem s (.instruction t m isMnemonic a)) Never := by
  have hcurrent : s.current = t := State.current_eq_of_ahead hs
  have hpassed := State.reads_advance_of_ahead hs
  unfold instruction
  simp only [ends_bind, ends_current, ends_advance, ends_add, ends_pure, hcurrent]
  refine (operandOf_reads_back hlimit hc hdepth (State.ahead_advance hs) hline hrest).imp_post ?_
  rintro operand s' ⟨hreads, hshown⟩
  exact ⟨_, rfl, instruction_item isMnemonic hpassed hreads hshown⟩

/-- A comma ends the expression in front of it. -/
theorem endsSum_further (more : List Further) (hrest : EndsSum rest) :
    EndsSum (more.flatMap (fun f => f.comma :: f.expression.tokens) ++ rest) := by
  cases more with
  | nil => exact hrest
  | cons f more =>
      intro t ht
      cases ht
      rw [f.isComma]
      rfl

/-- Whoever can go on behind further elements of a data list can go on in front of them. -/
theorem dataRest_reads_back_of (bound : List Token) {done : List NodeId} {first : Expression}
    {further more : List Further} {post : List NodeId → State → Prop}
    {fail : Failure → State → Prop} (h : ReadsData limit s₀ s done.reverse first further)
    (hfits : ∀ f ∈ more, f.expression.Fits limit)
    (hs : s.stream.ahead = more.flatMap (fun f => f.comma :: f.expression.tokens) ++ rest)
    (hrest : EndsSum rest) (hbound : s.stream.ahead.length ≤ bound.length)
    (hpost : ∀ bound' done' s', rest.length ≤ bound'.length → s'.stream.ahead = rest →
      ReadsData limit s₀ s' done'.reverse first (further ++ more) →
        Ends (dataRest limit bound' done') s' post fail) :
    Ends (dataRest limit bound done) s post fail := by
  induction more generalizing bound s done further with
  | nil =>
      have hs' : s.stream.ahead = rest := hs
      rw [List.append_nil] at hpost
      exact hpost bound done s (hs' ▸ hbound) hs' h
  | cons f more ih =>
      have hs' : s.stream.ahead = f.comma :: (f.expression.tokens ++
          (more.flatMap (fun f => f.comma :: f.expression.tokens) ++ rest)) := by
        rw [hs, List.flatMap_cons, List.append_assoc]
        rfl
      have hcurrent : s.current = f.comma := State.current_eq_of_ahead hs'
      have hpassed := State.reads_advance_of_ahead hs'
      have hends := endsSum_further more hrest
      have hf := hfits f List.mem_cons_self
      cases bound with
      | nil =>
          rw [hs'] at hbound
          cases hbound
      | cons b bound =>
          unfold dataRest
          simp only [ends_bind, ends_current, ends_ite, ends_advance, hcurrent]
          refine ⟨fun _ => ?_, fun h => absurd f.isComma h⟩
          refine (expression_reads_back limit limit f.expression s.advance _ hf.canonical
            hf.depth_lt (State.ahead_advance hs') hends).imp ?_ fun _ _ => False.elim
          rintro _ s' ⟨id, rfl, he⟩
          have hmore : ReadsData limit s₀ s' (id :: done).reverse first (further ++ [f]) := by
            rw [List.reverse_cons]
            exact h.snoc rfl (hpassed.trans he.reads) he.shown hf
          have hahead : s'.stream.ahead =
              more.flatMap (fun f => f.comma :: f.expression.tokens) ++ rest :=
            he.reads.ahead_eq_rest (State.ahead_advance hs')
          have hlength : s'.stream.ahead.length ≤ bound.length := by
            rw [hahead]
            rw [hs'] at hbound
            simp only [List.length_cons, List.length_append] at hbound ⊢
            omega
          refine ih bound hmore (fun g hg => hfits g (List.mem_cons_of_mem _ hg)) hahead hlength ?_
          rwa [List.append_assoc, List.singleton_append]

/-- The rest of a data list is read back behind what has been read of it. -/
theorem dataRest_reads_back (bound : List Token) {done : List NodeId} {first : Expression}
    {further more : List Further} (h : ReadsData limit s₀ s done.reverse first further)
    (hfits : ∀ f ∈ more, f.expression.Fits limit)
    (hs : s.stream.ahead = more.flatMap (fun f => f.comma :: f.expression.tokens) ++ rest)
    (hrest : EndsOperand rest) (hbound : s.stream.ahead.length ≤ bound.length) :
    Ends (dataRest limit bound done) s
      (fun ids s' => ReadsData limit s₀ s' ids first (further ++ more)) Never := by
  refine dataRest_reads_back_of bound h hfits hs hrest.1 hbound ?_
  intro bound' done' s' _ hahead hdata
  have hcomma : s'.current.kind ≠ .comma :=
    State.current_of_head? (p := (· ≠ .comma)) (hahead ▸ hrest.2) (by decide)
  cases bound' with
  | nil => exact hdata
  | cons b bound' =>
      unfold dataRest
      simp only [ends_bind, ends_current, ends_ite, ends_pure]
      exact ⟨fun h => absurd h hcomma, fun _ => hdata⟩

theorem dataList_reads_back {first : Expression} {further : List Further}
    (hc : ∀ e ∈ first :: further.map Further.expression, e.Canonical)
    (hdepth : ∀ e ∈ first :: further.map Further.expression, e.depth < limit)
    (hs : s.stream.ahead = dataTokens first further ++ rest) (hrest : EndsOperand rest) :
    Ends (dataList limit) s
      (fun answer s' => ∃ head ids, answer = some head ∧ s'.tree.Lists (some head) ids ∧
        ReadsData limit s s' ids first further)
      Never := by
  have hmem {f : Further} (hf : f ∈ further) :
      f.expression ∈ first :: further.map Further.expression :=
    List.mem_cons_of_mem _ (List.mem_map_of_mem hf)
  have hs' : s.stream.ahead = first.tokens ++
      (further.flatMap (fun f => f.comma :: f.expression.tokens) ++ rest) := by
    rw [hs, dataTokens, List.append_assoc]
  have hends := endsSum_further further hrest.1
  unfold dataList
  rw [ends_bind]
  refine (expression_reads_back limit limit first s _ (hc _ List.mem_cons_self)
    (hdepth _ List.mem_cons_self) hs' hends).imp_post ?_
  rintro _ s' ⟨id, rfl, he⟩
  have hfits : first.Fits limit := ⟨he.canonical, hdepth _ List.mem_cons_self⟩
  have hfirst := ReadsData.first he hfits
  simp only [ends_bind, ends_ahead, ends_addList]
  refine (dataRest_reads_back s'.stream.ahead hfirst
    (fun f hf => ⟨hc _ (hmem hf), hdepth _ (hmem hf)⟩) (he.reads.ahead_eq_rest hs') hrest
    (Nat.le_refl _)).imp_post ?_
  intro ids s'' hdata
  rw [List.nil_append] at hdata
  have hlisted := addList_shown (R := fun t id e => Expression.ShownAt t e id) hdata.shown
    Expression.ShownAt.isInner fun hx hk => hx.keeps hk
  have hall := hdata.reads.trans (reads_addList_of_shown hdata.shown Expression.ShownAt.isInner)
  rw [List.append_nil] at hall
  cases hdata.shown with
  | cons => exact ⟨_, _, rfl, hlisted.1, hall, hlisted.2, hdata.fits⟩

theorem data_reads_back {marker : Token} {width : DataWidth}
    (isMarker : markerWidth? marker.kind = some width) {first : Expression}
    {further : List Further}
    (hc : ∀ e ∈ first :: further.map Further.expression, e.Canonical)
    (hdepth : ∀ e ∈ first :: further.map Further.expression, e.depth < limit)
    (hs : s.stream.ahead = marker :: (dataTokens first further ++ rest))
    (hline : ∀ t ∈ dataTokens first further, t.line = marker.line) (hrest : EndsOperand rest) :
    Ends (data limit width) s
      (ReadsItem s (.data marker width isMarker first further none)) Never := by
  have hcurrent : s.current = marker := State.current_eq_of_ahead hs
  have hpassed := State.reads_advance_of_ahead hs
  have hsame : s.advance.current.line = marker.line := by
    obtain ⟨t, ts, hts, _⟩ := first.exists_tokens_eq
    have hadvance := State.ahead_advance hs
    rw [dataTokens, hts] at hadvance
    rw [State.current_eq_of_ahead hadvance]
    apply hline
    rw [dataTokens, hts]
    exact List.mem_cons_self
  unfold data
  simp only [ends_bind, ends_current, ends_advance, ends_ite, ends_pure, hcurrent]
  refine ⟨fun _ => ?_, fun h => absurd hsame h⟩
  refine (dataList_reads_back hc hdepth (State.ahead_advance hs) hrest).imp_post ?_
  rintro _ s' ⟨head, ids, rfl, hlists, hdata⟩
  simp only [ends_bind, ends_add, ends_pure]
  have hreads : s.advance.Reads s' (dataTokens first further ++ []) [] := by
    rw [List.append_nil]
    exact hdata.reads
  exact ⟨_, rfl, data_item isMarker none hpassed hreads hlists hdata.shown⟩

/-- An item is read back in front of another line. -/
theorem item_reads_back {i : Item} (hlimit : 1 ≤ limit) (hc : i.Canonical)
    (hdepth : ∀ e ∈ i.expressions, e.depth < limit) (hs : s.stream.ahead = i.tokens ++ rest)
    (hline : ∀ t ∈ i.tokens, t.line = i.line) (hrest : EndsItem i.line rest) :
    ∃ item, item? limit s.current.kind = some item ∧ Ends item s (ReadsItem s i) Never := by
  cases i with
  | instruction t m isMnemonic a =>
      have hmem {o : Operand} (ho : o ∈ a.operand?) :
          o.expression ∈ (Item.instruction t m isMnemonic a).expressions := by
        rw [Item.expressions, Option.mem_toList, Option.map_eq_some_iff]
        exact ⟨o, ho, rfl⟩
      have hcurrent : s.current = t := State.current_eq_of_ahead hs
      refine ⟨instruction limit m, by rw [hcurrent, isMnemonic]; rfl, ?_⟩
      exact instruction_reads_back hlimit (fun o ho => hc.expressions _ (hmem ho))
        (fun o ho => hdepth _ (hmem ho)) hs
        (fun u hu => hline u (List.mem_cons_of_mem _ hu)) hrest
  | data marker width isMarker first further trailing =>
      have hnone : trailing = none := by simpa [Item.endsWithComma] using hc.complete
      subst hnone
      have htokens : (Item.data marker width isMarker first further none).tokens =
          marker :: dataTokens first further := by
        simp [Item.tokens, dataTokens]
      rw [htokens] at hs hline
      have hcurrent : s.current = marker := State.current_eq_of_ahead hs
      have hdata := data_reads_back isMarker hc.expressions hdepth hs
        (fun t ht => hline t (List.mem_cons_of_mem _ ht)) hrest.operand
      refine ⟨data limit width, ?_, hdata⟩
      rw [hcurrent]
      cases hk : marker.kind with
      | dataBytes | dataWords =>
          rw [hk] at isMarker
          cases isMarker
          rfl
      | _ =>
          rw [hk] at isMarker
          cases isMarker

/-! ## Blocks -/

/-- A block ends where an entry starts. -/
theorem endsBlock_of_startsEntry (h : StartsEntry s.stream.ahead) : endsBlock s.stream = true := by
  unfold endsBlock startsStatement
  cases hahead : s.stream.ahead with
  | nil =>
      rw [show s.stream.current = .endAt s.stream.finish from State.current_of_nil hahead]
      rfl
  | cons t ts =>
      have hcurrent : s.stream.current = t := State.current_eq_of_ahead hahead
      rw [hahead] at h
      rw [hcurrent]
      rcases h with hlabel | ⟨hname, equals, more, hts, hequals⟩
      · rw [hlabel]
        rfl
      · have hnext : s.stream.advance.current = equals :=
          State.current_eq_of_ahead (s := s.advance) ((State.ahead_advance hahead).trans hts)
        rw [hname, hnext, hequals]
        rfl

theorem endsOperand_cons {t : Token} (hsum : sumOperator? t.kind = none)
    (hcomma : t.kind ≠ .comma) : EndsOperand (t :: rest) := by
  constructor
  · intro u hu
    cases hu
    exact hsum
  · intro u hu
    cases hu
    exact hcomma

theorem endsOperand_of_startsEntry (h : StartsEntry rest) : EndsOperand rest := by
  cases rest with
  | nil => exact ⟨fun t ht => (nomatch ht), fun t ht => (nomatch ht)⟩
  | cons t ts =>
      rcases h with hk | ⟨hk, _⟩
      · exact endsOperand_cons (by rw [hk]; rfl) (by rw [hk]; decide)
      · exact endsOperand_cons (by rw [hk]; rfl) (by rw [hk]; decide)

/-- No item goes on with what stands in front of it. -/
theorem endsOperand_of_item (i : Item) (rest : List Token) : EndsOperand (i.tokens ++ rest) := by
  obtain ⟨t, ts, hts, _, hkind⟩ := i.exists_tokens_eq_cons
  rw [hts]
  rcases hkind with ⟨m, hk⟩ | hk | hk
  · exact endsOperand_cons (by rw [hk]; rfl) (by rw [hk]; simp)
  · exact endsOperand_cons (by rw [hk]; rfl) (by rw [hk]; decide)
  · exact endsOperand_cons (by rw [hk]; rfl) (by rw [hk]; decide)

theorem blockItems_of_endsBlock (bound : List Token) (done : List NodeId)
    (h : endsBlock s.stream = true) : blockItems limit bound done s = (done.reverse, s) := by
  cases bound with
  | nil => rfl
  | cons b bound =>
      unfold blockItems
      rw [if_pos h]

/-- The items of a block, each on its line, are read back up to the next entry. -/
theorem blockItems_reads_back {items : List Item} {lines : List (List Token)}
    (bound : List Token) (done : List NodeId) (hlimit : 1 ≤ limit)
    (hc : ∀ i ∈ items, i.Canonical) (hdepth : ∀ i ∈ items, ∀ e ∈ i.expressions, e.depth < limit)
    (hs : s.stream.ahead = (items.map Item.tokens ++ lines).flatten)
    (hown : OnOwnLines (items.map Item.tokens ++ lines)) (hlines : StartsEntry lines.flatten)
    (hbound : s.stream.ahead.length ≤ bound.length) :
    ∃ ids s', blockItems limit bound done s = (done.reverse ++ ids, s') ∧
      s.Reads s' (items.flatMap Item.tokens) (items.flatMap Item.reports) ∧
      List.Forall₂ (fun id i => i.ShownAt s'.tree id) ids items := by
  induction items generalizing s bound done with
  | nil =>
      have hends : endsBlock s.stream = true := endsBlock_of_startsEntry (by rw [hs]; exact hlines)
      refine ⟨[], s, ?_, .refl s, .nil⟩
      rw [blockItems_of_endsBlock bound done hends, List.append_nil]
  | cons i items ih =>
      obtain ⟨⟨n, hline, hnext⟩, hown'⟩ := hown
      obtain ⟨t, ts, hts, hfirst, _⟩ := i.exists_tokens_eq_cons
      have hn : n = i.line := by
        rw [← hfirst]
        exact (hline t (by rw [hts]; exact List.mem_cons_self)).symm
      subst hn
      have hs' : s.stream.ahead = i.tokens ++ (items.map Item.tokens ++ lines).flatten := hs
      have hends : EndsOperand (items.map Item.tokens ++ lines).flatten := by
        cases items with
        | nil => exact endsOperand_of_startsEntry hlines
        | cons j items => exact endsOperand_of_item j _
      obtain ⟨item, hitem, hrun⟩ := item_reads_back hlimit (hc i List.mem_cons_self)
        (hdepth i List.mem_cons_self) hs' hline ⟨hends, hnext⟩
      cases bound with
      | nil =>
          rw [hs', hts] at hbound
          cases hbound
      | cons b bound =>
          obtain ⟨_, s₁, hanswer, id, rfl, hreads, hshown⟩ := hrun.exists_of_never
          have hahead := hreads.ahead_eq_rest hs'
          have hlength : s₁.stream.ahead.length ≤ bound.length := by
            rw [hahead]
            rw [hs', hts] at hbound
            simp only [List.length_cons, List.length_append] at hbound
            omega
          obtain ⟨ids, s', hblock, hmore, hitems⟩ := ih bound (id :: done)
            (fun j hj => hc j (List.mem_cons_of_mem _ hj))
            (fun j hj => hdepth j (List.mem_cons_of_mem _ hj)) hahead hown' hlength
          refine ⟨id :: ids, s', ?_, hreads.trans hmore,
            .cons (hshown.keeps hmore.grows.keeps) hitems⟩
          have hstep : blockRound limit (done, s) = .inl ((some id).toList ++ done, s₁) :=
            blockRound_of_item (x := (done, s)) hitem hanswer
          rw [blockItems_cons b bound (done, s), hstep]
          show blockItems limit bound (id :: done) s₁ = _
          rw [hblock, List.reverse_cons, List.append_assoc]
          rfl

/-- A state in which the items of a block have been read, and the node of the block. -/
def ReadsBlock (s : State) (items : List Item) (passed : List Token) (head : Option NodeId)
    (s' : State) : Prop :=
  ∃ ids, s.Reads s' passed (items.flatMap Item.reports) ∧ s'.tree.Lists head ids ∧
    List.Forall₂ (fun id i => i.ShownAt s'.tree id) ids items

theorem block_reads_back {items : List Item} {lines : List (List Token)} (hlimit : 1 ≤ limit)
    (hc : ∀ i ∈ items, i.Canonical) (hdepth : ∀ i ∈ items, ∀ e ∈ i.expressions, e.depth < limit)
    (hs : s.stream.ahead = (items.map Item.tokens ++ lines).flatten)
    (hown : OnOwnLines (items.map Item.tokens ++ lines)) (hlines : StartsEntry lines.flatten) :
    ReadsBlock s items (items.flatMap Item.tokens) (block limit s).1 (block limit s).2 := by
  obtain ⟨ids, s', hblock, hreads, hshown⟩ := blockItems_reads_back s.stream.ahead [] hlimit hc
    hdepth hs hown hlines (Nat.le_refl _)
  rw [List.reverse_nil, List.nil_append] at hblock
  have hlisted := addList_shown (R := fun t id i => Item.ShownAt t i id) hshown
    Item.ShownAt.isInner fun hx hk => hx.keeps hk
  have hall := hreads.trans (reads_addList_of_shown hshown Item.ShownAt.isInner)
  rw [List.append_nil, List.append_nil] at hall
  rw [block_eq hblock]
  exact ⟨ids, hall, hlisted.1, hlisted.2⟩

/-- A directive in front of an entry makes an empty block. -/
theorem bareBlock_reads_back {gap : Token} (hgap : gap.kind = .directive)
    (hs : s.stream.ahead = gap :: rest) (hrest : StartsEntry rest) :
    ReadsBlock s [] [gap] (block limit s).1 (block limit s).2 := by
  have hcurrent : s.current = gap := State.current_eq_of_ahead hs
  have hahead : s.advance.stream.ahead = rest := State.ahead_advance hs
  have hconst : ¬ s.advance.current.kind.isConstant = true := by
    refine State.current_of_head? (p := fun k => ¬ k.isConstant = true) ?_ (by decide)
    intro t ht
    rw [hahead] at ht
    cases rest with
    | nil => cases ht
    | cons u us =>
        cases ht
        rcases hrest with hk | ⟨hk, _⟩
        · rw [hk]
          decide
        · rw [hk]
          decide
  have hskip : s.skipDirective = s.advance := if_neg hconst
  have hgoes : ¬ endsBlock s.stream = true := by
    unfold endsBlock
    rw [show s.stream.current.kind = .directive from (congrArg Token.kind hcurrent).trans hgap]
    simp
  have hblock : blockItems limit s.stream.ahead [] s = ([], s.advance) := by
    rw [hs]
    unfold blockItems
    rw [if_neg hgoes, if_pos (by rw [hcurrent, hgap]), hskip]
    exact blockItems_of_endsBlock rest [] (endsBlock_of_startsEntry (by rw [hahead]; exact hrest))
  have hreads := State.reads_advance_of_ahead hs
  rw [block_eq hblock]
  exact ⟨[], hreads.trans (State.reads_addList (by simp)), rfl, .nil⟩

end Asm6502.Parser
