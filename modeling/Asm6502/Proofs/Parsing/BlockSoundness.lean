import Asm6502.Parser.Block
import Asm6502.Proofs.Parsing.Account
import Asm6502.Proofs.Parsing.ExpressionSoundness

/-!
# What the parsers of code blocks answer

An instruction or a data directive is read with exactly its tokens, and reports at
most that something is missing.  A block is read whatever its tokens are; it accounts
for every token that it passes, and shows the items among them in order.

## Main results

* `instruction_ends`, `data_ends` — the answers of the two item parsers, with what an item
  works on starting on its line.
* `block_reads` — a block accounts for the tokens it passes.
-/

namespace Asm6502.Parser

open Syntax

variable {s s' s₀ : State} {limit : Nat}

/-! ## Lists -/

/-- Cells may be added for nodes that show something. -/
theorem reads_addList_of_shown {α : Type} {R : NodeId → α → Prop} {ids : List NodeId}
    {xs : List α} (hshown : List.Forall₂ R ids xs)
    (inner : ∀ {id x}, R id x → s.tree.IsInner id) : s.Reads (s.addList ids).2 [] [] := by
  have hinner := (List.forall₂_and_left (p := s.tree.IsInner) ..).1
    (hshown.imp fun _ _ hx => ⟨inner hx, hx⟩)
  exact State.reads_addList hinner.1

/-- The cells added for nodes that show something lead through these nodes, which go on
showing it. -/
theorem addList_shown {α : Type} {R : Tree → NodeId → α → Prop} {ids : List NodeId} {xs : List α}
    (hshown : List.Forall₂ (R s.tree) ids xs)
    (inner : ∀ {id x}, R s.tree id x → s.tree.IsInner id)
    (keeps : ∀ {t id x}, R s.tree id x → s.tree.Keeps t → R t id x) :
    (s.addList ids).2.tree.Lists (s.addList ids).1 ids ∧
      List.Forall₂ (R (s.addList ids).2.tree) ids xs := by
  have hinner := (List.forall₂_and_left (p := s.tree.IsInner) ..).1
    (hshown.imp fun _ _ hx => ⟨inner hx, hx⟩)
  have hgrows := (State.reads_addList hinner.1).grows
  exact ⟨Tree.lists_addList s.tree hinner.1, hshown.imp fun _ _ hx => keeps hx hgrows.keeps⟩

/-! ## Instructions -/

/-- What is reported about the arguments of the mnemonic `token`. -/
def argumentReports (token : Token) {c : OperandClass} (a : Arguments c) : List Diagnostic :=
  if c = .memory ∧ a.operand? = none then [.noOperand token] else []

/-- The answer of the parser of arguments. -/
def ArgumentsAnswer (limit : Nat) (token : Token) (c : OperandClass) (s : State)
    (answer : Option NodeId) (s' : State) : Prop :=
  ∃ a : Arguments c, s.Reads s' a.tokens (argumentReports token a) ∧
    a.ShownAt s'.tree answer ∧
    ∀ o ∈ a.operand?, o.expression.Fits limit ∧ o.expression.line = token.line

/-- The answer of the parser of operands on the line of `token`. -/
def OnLineAnswer (limit : Nat) (token : Token) (s : State) (answer : Option NodeId)
    (s' : State) : Prop :=
  match answer with
  | none => s' = s
  | some id => ∃ o : Operand, s.Reads s' o.tokens [] ∧ o.ShownAt s'.tree id ∧
      o.expression.Fits limit ∧ o.expression.line = token.line

/-- An operand starts where its parser does. -/
theorem line_of_reads_operand {o : Operand} (h : s.Reads s' o.tokens []) :
    o.expression.line = s.current.line := by
  obtain ⟨t, ts, htokens, hline⟩ := o.exists_tokens_eq
  have hahead := h.ahead_eq
  rw [htokens, List.cons_append] at hahead
  rw [State.current_eq_of_ahead hahead, hline]

theorem onLineOf_ends (limit : Nat) (token : Token) (s : State) :
    Ends (operandOf.onLineOf limit token) s (OnLineAnswer limit token s) (Abandoned s) := by
  unfold operandOf.onLineOf
  rw [ends_bind, ends_current, ends_ite]
  refine ⟨fun hline => (operand_ends limit s).imp_post ?_, fun _ => rfl⟩
  intro answer s' ha
  cases answer with
  | none => exact ha
  | some id =>
      obtain ⟨o, hreads, hshown, hfits⟩ := ha
      exact ⟨o, hreads, hshown, hfits, (line_of_reads_operand hreads).trans hline⟩

theorem operandOf_ends (limit : Nat) (token : Token) (c : OperandClass) (s : State) :
    Ends (operandOf limit token c) s (ArgumentsAnswer limit token c s) (Abandoned s) := by
  cases c with
  | implied => exact ⟨.implied, .refl s, rfl, by simp [Arguments.operand?]⟩
  | memory =>
      simp only [operandOf, ends_bind]
      refine (onLineOf_ends limit token s).imp_post ?_
      intro answer s' ha
      cases answer with
      | none =>
          cases ha
          simp only [Option.isNone_none, if_true, ends_bind, ends_diagnose, ends_pure]
          exact ⟨.memory none, State.reads_diagnose s (.noOperand token), rfl, by
            simp [Arguments.operand?]⟩
      | some id =>
          obtain ⟨o, hreads, hshown, hfits⟩ := ha
          refine ⟨.memory (some o), hreads, ⟨id, rfl, hshown⟩, ?_⟩
          rintro o' ⟨⟩
          exact hfits
  | accumulator =>
      refine (onLineOf_ends limit token s).imp_post ?_
      intro answer s' ha
      cases answer with
      | none =>
          cases ha
          exact ⟨.accumulator none, .refl s, rfl, by simp [Arguments.operand?]⟩
      | some id =>
          obtain ⟨o, hreads, hshown, hfits⟩ := ha
          refine ⟨.accumulator (some o), hreads, ⟨id, rfl, hshown⟩, ?_⟩
          rintro o' ⟨⟩
          exact hfits
  | target =>
      simp only [operandOf, ends_bind, ends_expect, ends_add, ends_pure]
      refine ⟨?_, fun _ => .here (.refl s) .nil⟩
      intro hname
      have hpassed := State.reads_advance (s := s) (by rw [hname]; decide)
      have hadd := State.reads_add (s := s.advance) (k := .name s.current.text) s.current.line
        (by simp [Node.Kind.children])
      have hreads := hpassed.trans hadd
      exact ⟨.target s.current hname, hreads, ⟨_, rfl, State.node_add ..⟩, by
        simp [Arguments.operand?]⟩

/-- The answer of an item parser.  Only a data marker without data yields no node, and
it is reported.  A failure happens behind the first token. -/
def ItemAnswer (limit : Nat) (s : State) (answer : Option NodeId) (s' : State) : Prop :=
  match answer with
  | none => (∃ width, markerWidth? s.current.kind = some width) ∧
      s.Reads s' [s.current] [.noData s.current]
  | some id => ∃ i : Item, s.Reads s' i.tokens i.reports ∧ i.ShownAt s'.tree id ∧
      (∀ e ∈ i.expressions, e.Fits limit) ∧ i.OnLine

/-- A node for a mnemonic and its arguments. -/
theorem instruction_item {t : Token} {m : Mnemonic} {a : Arguments m.operandClass}
    {operand : Option NodeId} {s₁ : State} (isMnemonic : t.kind = .instruction m)
    (hpassed : s.Reads s₁ [t] []) (hreads : s₁.Reads s' a.tokens (argumentReports t a))
    (hshown : a.ShownAt s'.tree operand) :
    let i : Item := .instruction t m isMnemonic a
    s.Reads (s'.add (.instruction m operand) t.line).2 i.tokens i.reports ∧
      i.ShownAt (s'.add (.instruction m operand) t.line).2.tree
        (s'.add (.instruction m operand) t.line).1 := by
  intro i
  have hadd : s'.Reads (s'.add (.instruction m operand) t.line).2 [] [] := by
    refine State.reads_add _ ?_
    intro child hchild
    exact hshown.isInner child (Option.mem_toList.1 hchild)
  constructor
  · have hall := (hpassed.trans hreads).trans hadd
    simpa [i, Item.tokens, Item.reports, argumentReports] using hall
  · exact ⟨operand, State.node_add .., hshown.keeps hadd.grows.keeps⟩

theorem instruction_ends (limit : Nat) {m : Mnemonic} (hm : s.current.kind = .instruction m) :
    Ends (instruction limit m) s (ItemAnswer limit s) (Abandoned s.advance) := by
  have hpassed := State.reads_advance (s := s) (by rw [hm]; simp)
  unfold instruction
  simp only [ends_bind, ends_current, ends_advance, ends_add, ends_pure]
  refine (operandOf_ends limit s.current m.operandClass s.advance).imp_post ?_
  rintro operand s' ⟨a, hreads, hshown, hfits⟩
  obtain ⟨hall, hitem⟩ := instruction_item hm hpassed hreads hshown
  have hboth : ∀ e ∈ (Item.instruction s.current m hm a).expressions,
      e.Fits limit ∧ e.line = s.current.line := by
    intro e he
    rw [Item.expressions, Option.mem_toList, Option.map_eq_some_iff] at he
    obtain ⟨o, ho, rfl⟩ := he
    exact hfits o ho
  exact ⟨_, hall, hitem, fun e he => (hboth e he).1,
    fun e he => (hboth e (List.mem_of_mem_head? he)).2⟩

/-! ## Data -/

/-- The tokens of the expressions behind a data marker. -/
def dataTokens (first : Expression) (further : List Further) : List Token :=
  first.tokens ++ further.flatMap fun f => f.comma :: f.expression.tokens

theorem interior_dataTokens (first : Expression) (further : List Further) :
    Interior (dataTokens first further) :=
  first.interior.append (.flatMap fun f _ => f.interior)

/-- Between the two states, a data list has been read up to an expression, and the
nodes `ids` show its expressions. -/
structure ReadsData (limit : Nat) (s s' : State) (ids : List NodeId) (first : Expression)
    (further : List Further) : Prop where
  reads : s.Reads s' (dataTokens first further) []
  shown : List.Forall₂ (fun id e => e.ShownAt s'.tree id) ids
    (first :: further.map Further.expression)
  fits : ∀ e ∈ first :: further.map Further.expression, e.Fits limit

/-- The first expression of a data list alone. -/
theorem ReadsData.first {e : Expression} {id : NodeId} (he : ReadsExpression s s' e id)
    (hfits : e.Fits limit) : ReadsData limit s s' [id].reverse e [] :=
  ⟨by simpa [dataTokens] using he.reads, .cons he.shown .nil, by simpa using hfits⟩

theorem ReadsData.snoc {ids : List NodeId} {id : NodeId} {first : Expression}
    {further : List Further} {f : Further} {comma : List Token}
    (h : ReadsData limit s₀ s ids first further) (hcomma : comma = [f.comma])
    (hpassed : s.Reads s' (comma ++ f.expression.tokens) [])
    (hshown : f.expression.ShownAt s'.tree id) (hfits : f.expression.Fits limit) :
    ReadsData limit s₀ s' (ids ++ [id]) first (further ++ [f]) where
  reads := by
    have hreads := h.reads.trans hpassed
    subst hcomma
    simpa [dataTokens, List.append_assoc] using hreads
  shown := by
    have hold := h.shown.imp fun _ _ he => Expression.ShownAt.keeps he hpassed.grows.keeps
    rw [List.map_append, ← List.cons_append]
    exact List.rel_append hold (.cons hshown .nil)
  fits := by
    intro e he
    rw [List.map_append, ← List.cons_append, List.mem_append] at he
    rcases he with he | he
    · exact h.fits e he
    · rw [List.map_cons, List.map_nil, List.mem_singleton] at he
      rw [he]
      exact hfits

/-- What the parser of a data list answers, which started in the state `s₀`. -/
def DataAnswer (limit : Nat) (s₀ : State) (ids : List NodeId) (s' : State) : Prop :=
  ∃ first further, ∃ trailing : Option { comma : Token // comma.kind = .comma },
    s₀.Reads s' (dataTokens first further ++ (trailing.map Subtype.val).toList) [] ∧
      List.Forall₂ (fun id e => e.ShownAt s'.tree id) ids
        (first :: further.map Further.expression) ∧
      ∀ e ∈ first :: further.map Further.expression, e.Fits limit

theorem ReadsData.answer {ids : List NodeId} {first : Expression} {further : List Further}
    (h : ReadsData limit s₀ s ids first further) : DataAnswer limit s₀ ids s :=
  ⟨first, further, none, by simpa using h.reads, h.shown, h.fits⟩

theorem dataRest_ends (bound : List Token) {done : List NodeId} {first : Expression}
    {further : List Further} (h : ReadsData limit s₀ s done.reverse first further) :
    Ends (dataRest limit bound done) s (DataAnswer limit s₀) (Abandoned s₀) := by
  induction bound generalizing s done further with
  | nil => exact h.answer
  | cons b bound ih =>
      unfold dataRest
      simp only [ends_bind, ends_current, ends_ite, ends_advance, ends_pure]
      refine ⟨?_, fun _ => h.answer⟩
      intro hcomma
      have hpassed := State.reads_advance (s := s) (by rw [hcomma]; decide)
      refine (expression_ends limit limit s.advance).imp ?_
        fun _ _ => .behind (h.reads.trans hpassed) ((interior_dataTokens first further).append
          (.of_kind hcomma (by decide) (by decide)))
      intro answer s' ha
      cases answer with
      | none =>
          cases ha
          have hreads := h.reads.trans hpassed
          exact ⟨first, further, some ⟨s.current, hcomma⟩, hreads, h.shown, h.fits⟩
      | some id =>
          obtain ⟨e, he, hdepth, _⟩ := ha
          have hmore : ReadsData limit s₀ s' (id :: done).reverse first
              (further ++ [⟨s.current, hcomma, e⟩]) := by
            rw [List.reverse_cons]
            exact h.snoc rfl (hpassed.trans he.reads) he.shown ⟨he.canonical, hdepth⟩
          exact ih hmore

/-- Answering no list, the parser of data lists leaves everything as it was. -/
theorem dataList_ends (limit : Nat) (s : State) :
    Ends (dataList limit) s (fun answer s' =>
        match answer with
        | none => s' = s
        | some head => ∃ ids, s'.tree.Lists (some head) ids ∧ DataAnswer limit s ids s')
      (Abandoned s) := by
  unfold dataList
  rw [ends_bind]
  refine (expression_ends limit limit s).imp_post ?_
  intro answer s' ha
  cases answer with
  | none => exact ha
  | some id =>
      obtain ⟨e, he, hdepth, _⟩ := ha
      simp only [ends_bind, ends_ahead, ends_addList]
      have hfirst := ReadsData.first he (⟨he.canonical, hdepth⟩ : e.Fits limit)
      refine (dataRest_ends s'.stream.ahead hfirst).imp_post ?_
      rintro ids s'' ⟨first, further, trailing, hreads, hshown, hall⟩
      have hlisted := addList_shown (R := fun t id e => Expression.ShownAt t e id) hshown
        Expression.ShownAt.isInner fun hx hk => hx.keeps hk
      have hlist := hreads.trans (reads_addList_of_shown hshown Expression.ShownAt.isInner)
      rw [List.append_nil] at hlist
      cases hshown with
      | cons =>
          exact ⟨_, hlisted.1, first, further, trailing, hlist, hlisted.2, hall⟩

/-- A node for a data marker in front of a list of expressions. -/
theorem data_item {marker : Token} {width : DataWidth} {first : Expression}
    {further : List Further} {head : NodeId} {ids : List NodeId} {s₁ : State}
    (isMarker : markerWidth? marker.kind = some width)
    (trailing : Option { comma : Token // comma.kind = .comma })
    (hpassed : s.Reads s₁ [marker] [])
    (hreads : s₁.Reads s' (dataTokens first further ++ (trailing.map Subtype.val).toList) [])
    (hlists : s'.tree.Lists (some head) ids)
    (hshown : List.Forall₂ (fun id e => e.ShownAt s'.tree id) ids
      (first :: further.map Further.expression)) :
    let i : Item := .data marker width isMarker first further trailing
    s.Reads (s'.add (.data width head) marker.line).2 i.tokens i.reports ∧
      i.ShownAt (s'.add (.data width head) marker.line).2.tree
        (s'.add (.data width head) marker.line).1 := by
  intro i
  have hadd : s'.Reads (s'.add (.data width head) marker.line).2 [] [] :=
    State.reads_add _ (by simpa [Node.Kind.children] using hlists.isInner)
  have hkeeps := hadd.grows.keeps
  have hkept := lists_keeps (R := fun t id e => Expression.ShownAt t e id) hlists hshown hkeeps
    Expression.ShownAt.isInner fun he => he.keeps hkeeps
  constructor
  · have hall := (hpassed.trans hreads).trans hadd
    simpa [i, Item.tokens, Item.reports, dataTokens] using hall
  · exact ⟨head, ids, State.node_add .., hkept.1, hkept.2⟩

/-- Data starts where its parser does. -/
theorem line_of_reads_data {first : Expression} {further : List Further} {more : List Token}
    (h : s.Reads s' (dataTokens first further ++ more) []) : first.line = s.current.line := by
  obtain ⟨t, ts, htokens, hline⟩ := first.exists_tokens_eq
  have hahead := h.ahead_eq
  rw [dataTokens, htokens, List.cons_append, List.cons_append, List.cons_append] at hahead
  rw [State.current_eq_of_ahead hahead, hline]

/-- A marker of data starts an item. -/
theorem item?_of_markerWidth? {k : Token.Kind} {width : DataWidth}
    (h : markerWidth? k = some width) : item? limit k = some (data limit width) := by
  cases k with
  | dataBytes | dataWords =>
      cases h
      rfl
  | _ => cases h

theorem data_ends (limit : Nat) {width : DataWidth}
    (hwidth : markerWidth? s.current.kind = some width) :
    Ends (data limit width) s (ItemAnswer limit s) (Abandoned s.advance) := by
  have hpassed := State.reads_advance (ne_eof_of_eq_some hwidth rfl)
  have hmissing : ItemAnswer limit s none (s.advance.diagnose (.noData s.current)) :=
    ⟨⟨width, hwidth⟩, hpassed.trans (State.reads_diagnose s.advance (.noData s.current))⟩
  unfold data
  simp only [ends_bind, ends_current, ends_advance, ends_ite, ends_pure]
  refine ⟨fun hline => ?_, fun _ => hmissing⟩
  refine (dataList_ends limit s.advance).imp_post ?_
  intro answer s' ha
  cases answer with
  | none =>
      cases ha
      exact hmissing
  | some head =>
      obtain ⟨ids, hlists, first, further, trailing, hreads, hshown, hfits⟩ := ha
      simp only [ends_bind, ends_add, ends_pure]
      obtain ⟨hall, hitem⟩ := data_item hwidth trailing hpassed hreads hlists hshown
      refine ⟨_, hall, hitem, hfits, ?_⟩
      rintro e ⟨⟩
      exact (line_of_reads_data hreads).trans hline

/-! ## Blocks -/

theorem item?_ends {item : Parser (Option NodeId)} (h : item? limit s.current.kind = some item) :
    Ends item s (ItemAnswer limit s) (Abandoned s.advance) := by
  unfold item? at h
  split at h
  next m hm =>
    cases h
    exact instruction_ends limit hm
  next hk =>
    cases h
    exact data_ends limit (by rw [hk]; rfl)
  next hk =>
    cases h
    exact data_ends limit (by rw [hk]; rfl)
  next => cases h

/-- Between the two states, the stretches of a block have been read, and the nodes
`ids` show the items among them. -/
structure ReadsParts (limit : Nat) (s s' : State) (ids : List NodeId)
    (parts : List BlockPart) : Prop where
  reads : s.Reads s' (parts.flatMap BlockPart.tokens) (parts.flatMap BlockPart.reports)
  shown : List.Forall₂ (fun id i => i.ShownAt s'.tree id) ids (parts.filterMap BlockPart.item?)
  fits : ∀ i ∈ parts.filterMap BlockPart.item?, ∀ e ∈ i.expressions, e.Fits limit
  onLine : ∀ i ∈ parts.filterMap BlockPart.item?, i.OnLine

namespace ReadsParts

variable {ids : List NodeId} {parts : List BlockPart} {p : BlockPart}

theorem nil (s : State) : ReadsParts limit s s [] [] where
  reads := .refl s
  shown := .nil
  fits := by simp
  onLine := by simp

/-- A stretch without an item comes in front. -/
theorem cons (hp : p.item? = none) (hread : s₀.Reads s p.tokens p.reports)
    (h : ReadsParts limit s s' ids parts) : ReadsParts limit s₀ s' ids (p :: parts) where
  reads := hread.trans h.reads
  shown := by
    rw [List.filterMap_cons_none hp]
    exact h.shown
  fits := by
    rw [List.filterMap_cons_none hp]
    exact h.fits
  onLine := by
    rw [List.filterMap_cons_none hp]
    exact h.onLine

/-- An item comes in front. -/
theorem cons_item {i : Item} {id : NodeId} (hread : s₀.Reads s i.tokens i.reports)
    (hshown : i.ShownAt s.tree id) (hfits : ∀ e ∈ i.expressions, e.Fits limit)
    (honLine : i.OnLine) (h : ReadsParts limit s s' ids parts) :
    ReadsParts limit s₀ s' (id :: ids) (.item i :: parts) where
  reads := hread.trans h.reads
  shown := .cons (hshown.keeps h.reads.grows.keeps) h.shown
  fits := by
    intro j hj
    rcases List.mem_cons.1 hj with rfl | hj
    · exact hfits
    · exact h.fits j hj
  onLine := by
    intro j hj
    rcases List.mem_cons.1 hj with rfl | hj
    · exact honLine
    · exact h.onLine j hj

end ReadsParts

/-- A failure behind the first token of an item, and what is passed until a statement can
start. -/
theorem reads_recover_of_abandoned {first : Token} {e : Failure} (hfirst : Interior [first])
    (hpassed : s₀.Reads s [first] []) (h : Abandoned s e s') :
    ∃ g : GivenUp, g.failure = e ∧ s₀.Reads (s'.recover e) g.tokens [e.diagnostic] := by
  obtain ⟨passed, hreads, hinterior⟩ := h
  obtain ⟨more, hrecover, hmore⟩ := State.reads_recover s' e
  refine ⟨⟨first, passed ++ more, hfirst.append (hinterior.append hmore), e⟩, rfl, ?_⟩
  exact hpassed.trans (hreads.trans hrecover)

theorem blockItems_reads (limit : Nat) (bound : List Token) (done : List NodeId) (s : State) :
    ∃ found parts, (blockItems limit bound done s).1 = done.reverse ++ found ∧
      ReadsParts limit s (blockItems limit bound done s).2 found parts := by
  induction bound generalizing done s with
  | nil => exact ⟨[], [], (List.append_nil _).symm, .nil s⟩
  | cons b bound ih =>
      unfold blockItems
      split
      next => exact ⟨[], [], (List.append_nil _).symm, .nil s⟩
      next hgoes =>
        have hinterior : Interior [s.current] := by
          refine .cons ?_ ?_ .nil
          all_goals
            intro hk
            apply hgoes
            have hkind : s.stream.current.kind = _ := hk
            simp [endsBlock, startsStatement, hkind]
        have hcurrent := (hinterior s.current List.mem_cons_self).1
        split
        next hdirective =>
          obtain ⟨argument, hreads⟩ := State.reads_skipDirective hdirective
          obtain ⟨found, parts, hfound, hparts⟩ := ih done s.skipDirective
          exact ⟨found, .directive ⟨s.current, hdirective, argument⟩ :: parts, hfound,
            hparts.cons rfl hreads⟩
        next =>
          split
          next =>
            obtain ⟨found, parts, hfound, hparts⟩ := ih done (s.skip .stall)
            exact ⟨found, .stalled s.current hinterior :: parts, hfound,
              hparts.cons rfl (State.reads_skip .stall hcurrent)⟩
          next item hitem =>
            have hends := item?_ends hitem
            unfold Ends at hends
            split
            next answer s' hrun =>
              rw [hrun] at hends
              obtain ⟨found, parts, hfound, hparts⟩ := ih (answer.toList ++ done) s'
              cases answer with
              | none =>
                  obtain ⟨⟨width, hwidth⟩, hreads⟩ := hends
                  exact ⟨found, .bareMarker s.current width hwidth :: parts, hfound,
                    hparts.cons rfl hreads⟩
              | some id =>
                  obtain ⟨i, hreads, hshown, hfits, honLine⟩ := hends
                  refine ⟨id :: found, .item i :: parts, ?_,
                    hparts.cons_item hreads hshown hfits honLine⟩
                  rw [hfound]
                  simp
            next e s' hrun =>
              rw [hrun] at hends
              obtain ⟨g, rfl, hreads⟩ := reads_recover_of_abandoned hinterior
                (State.reads_advance hcurrent) hends
              exact ⟨[], [.givenUp g], (List.append_nil _).symm, (ReadsParts.nil _).cons rfl hreads⟩

theorem block_eq {ids : List NodeId} (h : blockItems limit s.stream.ahead [] s = (ids, s')) :
    block limit s = s'.addList ids := by
  unfold block
  rw [h]

/-- A code block yields the list of its items. -/
theorem block_reads (limit : Nat) (s : State) :
    ∃ ids parts, (block limit s).2.tree.Lists (block limit s).1 ids ∧
      ReadsParts limit s (block limit s).2 ids parts := by
  obtain ⟨ids, parts, hids, hparts⟩ := blockItems_reads limit s.stream.ahead [] s
  rw [List.reverse_nil, List.nil_append] at hids
  have hlisted := addList_shown (R := fun t id i => Item.ShownAt t i id) hparts.shown
    Item.ShownAt.isInner fun hx hk => hx.keeps hk
  have hadd := reads_addList_of_shown hparts.shown Item.ShownAt.isInner
  rw [block_eq (Prod.ext hids rfl)]
  refine ⟨ids, parts, hlisted.1, ?_, hlisted.2, hparts.fits, hparts.onLine⟩
  have hall := hparts.reads.trans hadd
  rwa [List.append_nil, List.append_nil] at hall

end Asm6502.Parser
