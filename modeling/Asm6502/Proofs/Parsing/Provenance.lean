import Asm6502.Proofs.Parsing.Ownership
import Asm6502.Proofs.Parsing.ProgramShape
import Asm6502.Proofs.Parsing.Trace

/-!
# Where the nodes of a tree come from

Lists are built backwards, chains of labels from the inside and expressions from the
bottom, and what fails leaves half-built nodes behind.  In the finished tree the nodes
come in the order of their tokens all the same, each with the text and the line of its
own, and no label is missing.

A phrase and what shows it have a trace, and so has each stretch of an account; put
together they are the trace of the program.

## Main results

* `program_traced` — the tokens of a program and the nodes of its tree line up.
* `program_places` — the nodes come from tokens, in order.
* `program_labels` — each label token has its label.
-/

namespace Asm6502

namespace Syntax

variable {t : Tree} {id : NodeId}

/-! ## Putting traces around nodes -/

/-- The nodes below a node that is known. -/
theorem preorder_of_node {n : Node} (ht : t.Descends) (hnode : t.node id = n)
    (hn : ∀ items, n.kind ≠ .root items) :
    t.preorder id = id :: n.kind.children.flatMap t.preorder := by
  have hkind : t.kind id = n.kind := congrArg Node.kind hnode
  rw [Tree.preorder_eq ht (Tree.isInner_of_kind hkind hn), Tree.children, hkind]

/-- A token, its node, and what the node owns. -/
theorem traced_take {b : Behind} {token : Token} {k : Node.Kind} {ts : List Token}
    {ds : List Diagnostic} (ht : t.Descends) (hnode : t.node id = ⟨k, token.line⟩)
    (hb : b.Admits k) (hkind : k.ComesFrom token ts.head?)
    (hbody : Traced t (k.behind token) ts (k.children.flatMap t.preorder) ds) :
    Traced t b (token :: ts) (t.preorder id) (k.reports token ++ ds) := by
  have hk : t.kind id = k := congrArg Node.kind hnode
  have hroot : ∀ items, k ≠ .root items := by
    rintro items rfl
    exact hkind
  rw [preorder_of_node ht hnode hroot]
  subst hk
  exact .take hb hkind (congrArg Node.line hnode) hbody

/-- The same for a node about which nothing is reported, and behind which anything may
follow. -/
theorem traced_plain {b : Behind} {token : Token} {k : Node.Kind} {ts : List Token}
    {ds : List Diagnostic} (ht : t.Descends) (hnode : t.node id = ⟨k, token.line⟩)
    (hb : b.Admits k) (hkind : k.ComesFrom token ts.head?) (hreports : k.reports token = [])
    (hbehind : k.behind token = .plain)
    (hbody : Traced t .plain ts (k.children.flatMap t.preorder) ds) :
    Traced t b (token :: ts) (t.preorder id) ds := by
  rw [← hbehind] at hbody
  have htake := traced_take ht hnode hb hkind hbody
  rw [hreports, List.nil_append] at htake
  exact htake

/-- A node without a token, and what it owns. -/
theorem traced_lead {b : Behind} {k : Node.Kind} {line : Nat} {child : NodeId}
    {more : List NodeId} {ts : List Token} {ds : List Diagnostic} (ht : t.Descends)
    (hnode : t.node id = ⟨k, line⟩) (hk : k.children = child :: more)
    (hleader : k.leader? = some child) (hline : line = t.line child)
    (hbody : Traced t b ts (k.children.flatMap t.preorder) ds) :
    Traced t b ts (t.preorder id) ds := by
  have hroot : ∀ items, k ≠ .root items := by
    rintro items rfl
    cases hleader
  have hkind : t.kind id = k := congrArg Node.kind hnode
  have hhead : (k.children.flatMap t.preorder).head? = some child := by
    rw [hk, List.flatMap_cons, List.head?_append, Tree.head?_preorder]
    rfl
  rw [preorder_of_node ht hnode hroot]
  subst hkind
  refine .lead hleader ?_ hhead hbody
  rw [Tree.line, hnode]
  exact hline

/-! ## Expressions and operands -/

theorem opening?_of_signWrapper? {k : Token.Kind} {w : Wrapper} (h : signWrapper? k = some w) :
    w.opening? = some k := by
  unfold signWrapper? at h
  split at h
  next => cases h; rfl
  next => cases h; rfl
  next => cases h; rfl
  next => cases h

theorem isMark_of_sumOperator? {k : Token.Kind} {operator : SumOperator}
    (h : Parser.sumOperator? k = some operator) : k.isMark = true := by
  cases k <;> cases h <;> rfl

theorem isMark_of_indexWrapper? {k : Token.Kind} {w : Wrapper}
    (h : Parser.indexWrapper? k = some w) : k.isMark = true := by
  cases k <;> cases h <;> rfl

/-- An expression has to start behind what takes no numeral along. -/
theorem Expression.ShownAt.traced (ht : t.Descends) {e : Expression} (h : e.ShownAt t id) :
    Traced t .plain e.tokens (t.preorder id) [] := by
  have hplain (k : Node.Kind) : Behind.plain.Admits k := Behind.admits_plain k
  have hsettled := Behind.isSettled_plain
  induction e generalizing id with
  | name token isName => exact traced_plain ht h (hplain _) ⟨rfl, isName⟩ rfl rfl (.nil hsettled)
  | const token isConst =>
      exact traced_plain ht h (hplain _) ⟨rfl, isConst⟩ rfl rfl (.nil hsettled)
  | signed sign wrapper isSign body ih =>
      obtain ⟨child, hnode, hbody⟩ := h
      refine traced_plain ht hnode (hplain _) (opening?_of_signWrapper? isSign) rfl rfl ?_
      simpa [Node.Kind.children] using ih hbody
  | parens opening isOpening body closing isClosing ih =>
      obtain ⟨child, hnode, hbody⟩ := h
      have hclosing : closing.kind.isMark = true := by
        rw [isClosing]
        rfl
      refine traced_plain ht hnode (hplain _) (congrArg some isOpening.symm) rfl rfl ?_
      simpa [Node.Kind.children] using (ih hbody).append (Traced.of_isMark hclosing)
  | sum left sign operator isSign right ihLeft ihRight =>
      obtain ⟨l, r, hnode, hleft, hright⟩ := h
      have hmark := isMark_of_sumOperator? isSign
      have hall := (ihLeft hleft).append fun b hb => .pass (.mark hb hmark) (ihRight hright)
      refine traced_lead ht hnode rfl rfl hleft.line_eq.symm ?_
      simpa [Node.Kind.children, tokens] using hall

theorem Operand.ShownAt.traced (ht : t.Descends) {o : Operand} (h : o.ShownAt t id) :
    Traced t .plain o.tokens (t.preorder id) [] := by
  cases o with
  | plain e => exact Expression.ShownAt.traced ht h
  | indexed e comma isComma register wrapper isRegister =>
      obtain ⟨child, hnode, he⟩ := h
      have hcomma : comma.kind.isMark = true := by
        rw [isComma]
        rfl
      have hbehind (b : Behind) (hb : b.IsSettled) : Traced t b [comma, register] [] [] :=
        .pass (.mark hb hcomma)
          (Traced.of_isMark (isMark_of_indexWrapper? isRegister) _ Behind.isSettled_plain)
      refine traced_lead ht hnode rfl ?_ he.line_eq.symm ?_
      · exact if_pos (isIndex_of_indexWrapper? isRegister)
      · simpa [Node.Kind.children, tokens] using (he.traced ht).append hbehind

/-- The nodes of something that need not be there. -/
def preorderIfAny (t : Tree) (id? : Option NodeId) : List NodeId := id?.toList.flatMap t.preorder

theorem preorderIfAny_some (t : Tree) (id : NodeId) : preorderIfAny t (some id) = t.preorder id :=
  List.flatMap_singleton _ _

theorem Arguments.ShownAt.traced (ht : t.Descends) {c : OperandClass} {a : Arguments c}
    {id? : Option NodeId} (h : a.ShownAt t id?) :
    Traced t .plain a.tokens (preorderIfAny t id?) [] := by
  have optional (o? : Option Operand) (h : Operand.ShownIfAny t o? id?) :
      Traced t .plain ((o?.map Operand.tokens).getD []) (preorderIfAny t id?) [] := by
    cases o? with
    | none =>
        rw [show id? = none from h]
        exact .nil Behind.isSettled_plain
    | some o =>
        obtain ⟨id, rfl, ho⟩ := h
        rw [preorderIfAny_some]
        exact ho.traced ht
  cases a with
  | implied => exact optional none h
  | memory operand => exact optional operand h
  | accumulator operand => exact optional operand h
  | target token isName =>
      obtain ⟨id, rfl, hnode⟩ := h
      rw [preorderIfAny_some]
      exact traced_plain ht hnode (Behind.admits_plain _) ⟨rfl, isName⟩ rfl rfl
        (.nil Behind.isSettled_plain)

/-! ## Lists and items -/

/-- The cells of a list lead from part to part; parts that are not picked have no node. -/
theorem traced_lists {α β : Type} {pick : α → Option β} (tokens : α → List Token)
    (reports : α → List Diagnostic) {R : NodeId → β → Prop} {head : Option NodeId}
    {ids : List NodeId} {parts : List α} (ht : t.Descends) (hlists : t.Lists head ids)
    (hshown : List.Forall₂ R ids (parts.filterMap pick))
    (hpicked : ∀ p x id, pick p = some x → R id x → ∀ b : Behind, b.IsSettled →
      Traced t b (tokens p) (t.preorder id) (reports p))
    (hother : ∀ p, pick p = none → ∀ b : Behind, b.IsSettled →
      Traced t b (tokens p) [] (reports p)) (b : Behind) (hb : b.IsSettled) :
    Traced t b (parts.flatMap tokens) (preorderIfAny t head) (parts.flatMap reports) := by
  induction parts generalizing head ids b with
  | nil =>
      cases hshown
      rw [show head = none from hlists]
      exact .nil hb
  | cons p parts ih =>
      rw [List.flatMap_cons, List.flatMap_cons]
      cases hp : pick p with
      | none =>
          rw [List.filterMap_cons_none hp] at hshown
          exact (hother p hp b hb).append (ih hlists hshown)
      | some x =>
          rw [List.filterMap_cons_some hp] at hshown
          cases hshown with
          | @cons id _ ids _ hx hmore =>
              obtain ⟨cell, next, rfl, hnode, hnext⟩ := hlists
              have hall := (hpicked p x id hp hx b hb).append (ih hnext hmore)
              rw [preorderIfAny_some]
              refine traced_lead ht hnode rfl rfl rfl ?_
              simpa [Node.Kind.children, preorderIfAny] using hall

theorem comesFrom_of_markerWidth? {token : Token} {width : DataWidth} {head : NodeId}
    {next : Option Token} (h : markerWidth? token.kind = some width) :
    (Node.Kind.data width head).ComesFrom token next := by
  unfold markerWidth? at h
  split at h
  next hk => cases h; exact hk
  next hk => cases h; exact hk
  next => cases h

/-- An operand is missing where the node of an instruction has none. -/
theorem Arguments.ShownAt.eq_none_iff {c : OperandClass} {a : Arguments c} {id? : Option NodeId}
    (h : a.ShownAt t id?) (hc : c = .memory) : a.operand? = none ↔ id? = none := by
  cases a with
  | memory operand =>
      cases operand with
      | none => exact ⟨fun _ => h, fun _ => rfl⟩
      | some o =>
          obtain ⟨id, rfl, _⟩ := h
          simp [operand?]
  | implied | accumulator | target => cases hc

theorem Item.ShownAt.traced (ht : t.Descends) {i : Item} (h : i.ShownAt t id) (b : Behind)
    (hb : b.IsSettled) : Traced t b i.tokens (t.preorder id) i.reports := by
  cases i with
  | instruction token mnemonic isMnemonic arguments =>
      obtain ⟨operand, hnode, harguments⟩ := h
      have htake := traced_take ht hnode ⟨hb, fun _ => rfl⟩ isMnemonic (harguments.traced ht)
      have hmissing : (mnemonic.operandClass = .memory ∧ arguments.operand? = none) ↔
          (mnemonic.operandClass = .memory ∧ operand = none) :=
        and_congr_right harguments.eq_none_iff
      rw [List.append_nil] at htake
      rw [reports, if_congr hmissing rfl rfl]
      exact htake
  | data marker width isMarker first further trailing =>
      obtain ⟨head, ids, hnode, hlists, hshown⟩ := h
      cases hshown with
      | @cons id₁ _ ids _ hfirst hfurther =>
      obtain ⟨cell, next, ⟨⟩, hcell, hnext⟩ := hlists
      have hcomma {comma : Token} (isComma : comma.kind = .comma) : comma.kind.isMark = true := by
        rw [isComma]
        rfl
      have hpicked : List.Forall₂ (fun id e => Expression.ShownAt t e id) ids
          (further.filterMap fun f => some f.expression) := by
        rw [List.filterMap_eq_map']
        exact hfurther
      have hnone : (further.flatMap fun _ => ([] : List Diagnostic)) = [] := by simp
      have hmore (b : Behind) (hb : b.IsSettled) :
          Traced t b (further.flatMap fun f => f.comma :: f.expression.tokens)
            (preorderIfAny t next) [] := by
        rw [← hnone]
        refine traced_lists _ _ ht hnext hpicked ?_ ?_ b hb
        · rintro f x id ⟨⟩ he b hb
          exact .pass (.mark hb (hcomma f.isComma)) (Expression.ShownAt.traced ht he)
        · intro f hf
          cases hf
      have htrailing (b : Behind) (hb : b.IsSettled) :
          Traced t b (trailing.map Subtype.val).toList [] [] := by
        cases trailing with
        | none => exact .nil hb
        | some comma => exact Traced.of_isMark (hcomma comma.2) b hb
      have hcells : Traced t .plain (first.tokens ++
          further.flatMap fun f => f.comma :: f.expression.tokens) (t.preorder head) [] := by
        refine traced_lead ht hcell rfl rfl rfl ?_
        simpa [Node.Kind.children, preorderIfAny] using
          (Expression.ShownAt.traced ht hfirst).append hmore
      refine traced_plain ht hnode ⟨hb, fun _ => rfl⟩ (comesFrom_of_markerWidth? isMarker) rfl rfl ?_
      simpa [Node.Kind.children, reports] using hcells.append htrailing

/-! ## Sections and declarations -/

theorem LabelsShownAt.traced (ht : t.Descends) {child id? : Option NodeId}
    {labels ts : List Token} {ds : List Diagnostic} (h : LabelsShownAt t child labels id?)
    (hlabels : ∀ token ∈ labels, token.kind = .label)
    (hrest : ∀ b : Behind, b.IsSettled → Traced t b ts (preorderIfAny t child) ds) (b : Behind)
    (hb : b.IsSettled) : Traced t b (labels ++ ts) (preorderIfAny t id?) ds := by
  induction labels generalizing id? b with
  | nil =>
      rw [show id? = child from h]
      exact hrest b hb
  | cons token labels ih =>
      obtain ⟨id, _, next, rfl, hname, hnode, hmore⟩ := h
      have hkind := hlabels token List.mem_cons_self
      have hbody := ih hmore (fun u hu => hlabels u (List.mem_cons_of_mem _ hu)) .plain
        Behind.isSettled_plain
      rw [preorderIfAny_some]
      exact traced_plain ht hnode ⟨hb, fun _ => rfl⟩ ⟨hname, .inl hkind⟩ (if_pos hkind)
        (if_pos hkind) hbody

/-- The first label of a section, from either kind of heading. -/
theorem traced_heading (ht : t.Descends) {heading : Heading} {text : String}
    {next : Option NodeId} {ts : List Token} {ds : List Diagnostic}
    (htext : heading.token.Declares text)
    (hnode : t.node id = ⟨.label text next .unclassified, heading.token.line⟩)
    (hrest : ∀ b : Behind, b.IsSettled → Traced t b ts (preorderIfAny t next) ds) (b : Behind)
    (hb : b.IsSettled) :
    Traced t b (heading.tokens ++ ts) (t.preorder id) (heading.reports ++ ds) := by
  have hplain := hrest .plain Behind.isSettled_plain
  cases heading with
  | label token isLabel =>
      exact traced_plain ht hnode ⟨hb, fun _ => rfl⟩ ⟨htext, .inl isLabel⟩ (if_pos isLabel)
        (if_pos isLabel) hplain
  | detached name colon isName isColon =>
      have hnode' : t.node id = ⟨.label text next .unclassified, name.line⟩ := hnode
      have hother : name.kind ≠ .label := by
        rw [isName]
        decide
      have hfrom : (Node.Kind.label text next .unclassified).ComesFrom name (some colon) :=
        ⟨htext, .inr ⟨isName, congrArg some isColon⟩⟩
      have hbehind : (Node.Kind.label text next .unclassified).behind name =
          .name colon.kind := by
        rw [isColon]
        exact if_neg hother
      have hbody := Traced.pass (.named (.inr isColon)) hplain
      rw [← hbehind] at hbody
      have htake := traced_take (b := b) ht hnode' ⟨hb, fun _ => rfl⟩ (by exact hfrom) hbody
      have hreports : (Node.Kind.label text next .unclassified).reports name =
          [.detachedLabel name] := if_neg hother
      rw [hreports] at htake
      exact htake

theorem Declaration.ShownAt.traced (ht : t.Descends) {d : Declaration} (h : d.ShownAt t id)
    (b : Behind) (hb : b.IsSettled) : Traced t b d.tokens (t.preorder id) [] := by
  obtain ⟨child, hnode, hvalue⟩ := h
  have hfrom : (Node.Kind.decl d.name.text child).ComesFrom d.name (some d.equals) :=
    ⟨rfl, d.isName, congrArg some d.isEquals⟩
  have hpass : Passes (.name .equals) d.equals [] .plain := by
    rw [← d.isEquals]
    exact .named (.inl d.isEquals)
  refine traced_take ht hnode ⟨hb, fun _ => rfl⟩ hfrom (.pass hpass ?_)
  simpa [Node.Kind.children] using hvalue.traced ht

/-! ## Accounts -/

theorem Directive.traced (t : Tree) (d : Directive) (b : Behind) (hb : b.IsSettled) :
    Traced t b d.tokens [] [] := by
  obtain ⟨token, isDirective, argument⟩ := d
  refine .pass (.directive hb isDirective) ?_
  cases argument with
  | none => exact .nil Behind.isSettled_directive
  | some argument => exact Traced.of_passes (.argument argument.2) Behind.isSettled_plain

theorem isError_diagnostic (e : Parser.Failure) : e.diagnostic.isError = true := by
  rw [Diagnostic.isError, Diagnostic.severity, Parser.Failure.kind_diagnostic]
  rcases e.kind_eq with hk | hk
  · rw [hk]
    rfl
  · rw [hk]
    rfl

theorem GivenUp.traced (t : Tree) (g : GivenUp) (b : Behind) (hb : b.IsSettled) :
    Traced t b g.tokens [] [g.failure.diagnostic] :=
  Traced.of_interior g.interior (isError_diagnostic g.failure) b hb

/-- A stretch of a block that is no item. -/
theorem BlockPart.traced_other (t : Tree) {p : BlockPart} (hitem : p.item? = none) (b : Behind)
    (hb : b.IsSettled) : Traced t b p.tokens [] p.reports := by
  cases p with
  | directive d => exact d.traced t b hb
  | bareMarker marker width isMarker =>
      exact .pass (.bareMarker hb isMarker) (.nil Behind.isSettled_plain)
  | stalled token interior => exact Traced.of_interior interior rfl b hb
  | givenUp g => exact g.traced t b hb
  | item i => cases hitem

/-- A stretch that is an entry, and the node that shows it. -/
theorem Statement.traced_entry (ht : t.Descends) {st : Statement} {entry : Entry}
    (hentry : st.entry? = some entry) (h : entry.ShownAt t id) (b : Behind) (hb : b.IsSettled) :
    Traced t b st.tokens (t.preorder id) st.reports := by
  cases st with
  | declaration d =>
      cases hentry
      exact Declaration.ShownAt.traced ht h b hb
  | labelled heading nested areLabels parts =>
      cases hentry
      obtain ⟨head, ids, hlists, hshown, _, _, next, ⟨⟩, hname, hnode, hnested⟩ := h
      have hparts (b : Behind) (hb : b.IsSettled) : Traced t b (parts.flatMap BlockPart.tokens)
          (preorderIfAny t head) (parts.flatMap BlockPart.reports) := by
        refine traced_lists _ _ ht hlists hshown ?_ (fun p => BlockPart.traced_other t) b hb
        intro p i id hp hi
        cases p with
        | item i' =>
            cases hp
            exact Item.ShownAt.traced ht hi
        | directive | bareMarker | stalled | givenUp => cases hp
      rw [tokens, List.append_assoc]
      exact traced_heading ht hname hnode (hnested.traced ht areLabels hparts) b hb
  | directive | givenUp | skipped => cases hentry

/-- A stretch that is no entry. -/
theorem Statement.traced_other (t : Tree) {st : Statement} (hentry : st.entry? = none)
    (b : Behind) (hb : b.IsSettled) : Traced t b st.tokens [] st.reports := by
  cases st with
  | directive d => exact d.traced t b hb
  | givenUp g => exact g.traced t b hb
  | skipped token interior =>
      refine Traced.of_interior interior ?_ b hb
      split
      · rfl
      · rfl
  | declaration | labelled => cases hentry

/-- What an account tells about the tokens is a trace. -/
theorem traced_account (ht : t.Descends) {account : List Statement} {ids : List NodeId}
    (h : List.Forall₂ (fun id e => Entry.ShownAt t e id) ids (account.filterMap Statement.entry?))
    (b : Behind) (hb : b.IsSettled) :
    Traced t b (account.flatMap Statement.tokens) (ids.flatMap t.preorder)
      (account.flatMap Statement.reports) := by
  induction account generalizing ids b with
  | nil =>
      cases h
      exact .nil hb
  | cons st account ih =>
      rw [List.flatMap_cons, List.flatMap_cons]
      cases hentry : st.entry? with
      | none =>
          rw [List.filterMap_cons_none hentry] at h
          exact (Statement.traced_other t hentry b hb).append (ih h)
      | some entry =>
          rw [List.filterMap_cons_some hentry] at h
          cases h with
          | cons hshown hmore =>
              rw [List.flatMap_cons]
              exact (Statement.traced_entry ht hentry hshown b hb).append (ih hmore)

end Syntax

/-! ## Places in front of the first end -/

section TakeWhile

variable {t : Tree} {ts : List Token} {id place : Nat}

theorem getElem?_takeWhile {p : Token → Bool} (h : place < (ts.takeWhile p).length) :
    (ts.takeWhile p)[place]? = ts[place]? := by
  rw [List.getElem?_eq_getElem h]
  exact (List.prefix_iff_getElem?.1 (List.takeWhile_prefix _) place h).symm

theorem labelAt_takeWhile {p : Token → Bool} (h : place < (ts.takeWhile p).length) :
    labelAt (ts.takeWhile p) place = labelAt ts place := by
  rw [labelAt, labelAt, getElem?_takeWhile h]

/-- The tokens behind play no part. -/
theorem StandsAt.of_takeWhile {p : Token → Bool} (h : StandsAt t (ts.takeWhile p) id place) :
    StandsAt t ts id place := by
  have hlt := h.lt_length
  obtain ⟨token, htoken, hkind, hline⟩ := h
  rw [getElem?_takeWhile hlt] at htoken
  refine ⟨token, htoken, hkind.of_next ?_, hline⟩
  intro u hu
  rw [← getElem?_takeWhile (List.getElem?_eq_some_iff.1 hu).1]
  exact hu

end TakeWhile

/-! ## Programs -/

namespace Parser

open Syntax

/-- The tokens of a program and the nodes below the root of its tree line up. -/
theorem program_traced (limit : Nat) (ts : List Token) :
    let outcome := program limit ts
    Traced outcome.tree .plain (ts.takeWhile TokenStream.isProper)
      (outcome.tree.items.flatMap outcome.tree.preorder) outcome.diagnostics := by
  intro outcome
  obtain ⟨_, s', account, _, _, houtcome, haccount, hahead⟩ := program_accounts limit ts
  have houtcome : outcome = ⟨s'.tree, s'.diagnostics.toList⟩ := houtcome
  have htraced := traced_account haccount.shows.descends haccount.shows.shown .plain
    Behind.isSettled_plain
  rw [← haccount.diagnostics_eq] at htraced
  rw [houtcome, haccount.tokens_eq, hahead, List.append_nil]
  exact htraced

/-- The tree of a program is a selection of its tokens that keeps their order.  The walk
lists what the root leads to, each node once.  The nodes in it that come from tokens do
so in order, at places in front of the first end, and have the texts and lines of these
tokens.  Each other node has the line of a node it owns, so that the lines of the walk do
not go down if those of the tokens do not. -/
theorem program_places (limit : Nat) (ts : List Token) :
    let n := (ts.takeWhile TokenStream.isProper).length
    let tree := (program limit ts).tree
    (∀ id, id ∈ tree.walk ↔ tree.Reaches id) ∧ tree.walk.Nodup ∧
      (∃ places : List Nat, places.Pairwise (· < ·) ∧ (∀ place ∈ places, place < n) ∧
        List.Forall₂ (StandsAt tree ts) (tree.walk.filter fun id => (tree.kind id).hasToken)
          places) ∧
      (∀ id ∈ tree.walk, ∀ child, (tree.kind id).leader? = some child →
        tree.line id = tree.line child) ∧
      (((ts.takeWhile TokenStream.isProper).Pairwise fun a b => a.line ≤ b.line) →
        (tree.walk.map tree.line).Pairwise (· ≤ ·)) := by
  intro n tree
  have htraced := program_traced limit ts
  have hunshared := program_unshared limit ts
  have hroot := hunshared.rooted
  have hwalk : tree.walk = 0 :: tree.items.flatMap tree.preorder := tree.walk_eq
  refine ⟨fun _ => hunshared.mem_walk_iff, hunshared.nodup_walk, ?_, ?_, ?_⟩
  · obtain ⟨places, hplaces⟩ := htraced.exists_placed Node.Kind.hasToken
      (fun _ h => h) fun _ h => Node.Kind.hasToken_of_isLabel h
    refine ⟨places, hplaces.increasing, hplaces.lt_length, ?_⟩
    have hzero : ¬ (tree.kind 0).hasToken = true := by
      rw [hroot.kind_eq]
      exact Bool.false_ne_true
    rw [hwalk, List.filter_cons_of_neg (p := fun id => (tree.kind id).hasToken) hzero]
    exact hplaces.stands.imp fun _ _ h => h.of_takeWhile
  · intro id hid child hleader
    rw [hwalk] at hid
    rcases List.mem_cons.1 hid with rfl | hid
    · rw [hroot.kind_eq] at hleader
      cases hleader
    · exact htraced.line_eq id hid child hleader
  · intro hts
    rw [hwalk, List.map_cons]
    refine List.pairwise_cons.2 ⟨?_, htraced.pairwise_line hts⟩
    intro l _
    rw [hroot.line_eq]
    exact Nat.zero_le l

/-- A label whose colon is part of its token, in front of an operand and a declaration.  The label
has the name without the colon, and the list cells are left out. -/
theorem program_places_fused :
    let ts : List Token :=
      [ ⟨.label, "a:", ⟨1, 1⟩⟩, ⟨.instruction .lda, "lda", ⟨2, 3⟩⟩, ⟨.hash, "#", ⟨2, 7⟩⟩
      , ⟨.hexConst, "$1", ⟨2, 8⟩⟩, ⟨.name, "b", ⟨3, 1⟩⟩, ⟨.equals, "=", ⟨3, 3⟩⟩
      , ⟨.name, "a", ⟨3, 5⟩⟩, ⟨.eof, "", ⟨4, 1⟩⟩ ]
    let tree := (program defaultLimit ts).tree
    let kept := tree.walk.filter fun id => (tree.kind id).hasToken
    kept.map tree.node =
        [ ⟨.label "a" (some 4) .unclassified, 1⟩, ⟨.instruction .lda (some 2), 2⟩
        , ⟨.wrap .immediate 1, 2⟩, ⟨.const "$1", 2⟩, ⟨.decl "b" 6, 3⟩, ⟨.name "a", 3⟩ ] ∧
      (∃ places : List Nat, places.Pairwise (· < ·) ∧ (∀ place ∈ places, place < 7) ∧
        List.Forall₂ (StandsAt tree ts) kept places) ∧
      (tree.walk.map tree.line).Pairwise (· ≤ ·) := by
  intro ts tree kept
  obtain ⟨_, _, hplaces, _, hlines⟩ := program_places defaultLimit ts
  exact ⟨by decide +kernel, hplaces, hlines (by decide)⟩

/-- No label is lost, made up, doubled or moved, whatever else is wrong.  The labels that
the root leads to, each listed once, come in order from tokens in front of the first end:
from each label token one of them, and otherwise from names directly in front of a colon,
as many as were reported to be recovered.  The name of a label is the text of its token
without one colon at the end, and its line is that of the token. -/
theorem program_labels (limit : Nat) (ts : List Token) :
    let n := (ts.takeWhile TokenStream.isProper).length
    let outcome := program limit ts
    (∀ id, id ∈ outcome.tree.walk ↔ outcome.tree.Reaches id) ∧ outcome.tree.walk.Nodup ∧
      ∃ places : List Nat, places.Pairwise (· < ·) ∧ (∀ place ∈ places, place < n) ∧
        List.Forall₂ (fun id place => ∃ token name child type, ts[place]? = some token ∧
            token.Declares name ∧
            outcome.tree.node id = ⟨.label name child type, token.line⟩ ∧
            (token.kind = .label ∨
              token.kind = .name ∧ ts[place + 1]?.map Token.kind = some .colon))
          (outcome.tree.walk.filter fun id => (outcome.tree.kind id).isLabel) places ∧
        (∀ place < n, labelAt ts place = true → place ∈ places) ∧
        (places.countP fun place => !labelAt ts place) =
          outcome.diagnostics.countP fun d => d.kind == .recoveredLabel := by
  intro n outcome
  have htraced := program_traced limit ts
  have hunshared := program_unshared limit ts
  have hroot := hunshared.rooted
  have hwalk : outcome.tree.walk = 0 :: outcome.tree.items.flatMap outcome.tree.preorder :=
    outcome.tree.walk_eq
  obtain ⟨places, hplaces⟩ := htraced.exists_placed Node.Kind.isLabel
    (fun _ h => Node.Kind.hasToken_of_isLabel h) fun _ h => h
  refine ⟨fun _ => hunshared.mem_walk_iff, hunshared.nodup_walk, places, hplaces.increasing,
    hplaces.lt_length, ?_, ?_, ?_⟩
  · have hzero : ¬ (outcome.tree.kind 0).isLabel = true := by
      rw [hroot.kind_eq]
      exact Bool.false_ne_true
    rw [hwalk, List.filter_cons_of_neg (p := fun id => (outcome.tree.kind id).isLabel) hzero]
    have hlabels := (List.forall₂_and_left ..).2 ⟨fun _ hid => (List.mem_filter.1 hid).2,
      hplaces.stands⟩
    exact hlabels.imp fun _ _ h => h.2.of_takeWhile.of_isLabel h.1
  · intro place hplace hlabel
    refine hplaces.labels place ?_
    rw [labelAt_takeWhile hplace]
    exact hlabel
  · show _ = recoveries outcome.diagnostics
    rw [← hplaces.others fun _ h => h]
    refine List.countP_congr ?_
    intro place hplace
    rw [labelAt_takeWhile (hplaces.lt_length place hplace)]

/-- Labels in front of an instruction and behind a token that fits nowhere, with the colon as part
of the token, and between them a name with a colon of its own. -/
theorem program_labels_fused :
    let ts : List Token :=
      [ ⟨.label, "a:", ⟨1, 1⟩⟩, ⟨.instruction .rts, "rts", ⟨1, 4⟩⟩, ⟨.name, "b", ⟨2, 1⟩⟩
      , ⟨.colon, ":", ⟨2, 3⟩⟩, ⟨.comma, ",", ⟨2, 5⟩⟩, ⟨.label, "c:", ⟨3, 1⟩⟩
      , ⟨.eof, "", ⟨3, 3⟩⟩ ]
    let tree := (program defaultLimit ts).tree
    let labels := tree.walk.filter fun id => (tree.kind id).isLabel
    labels.map tree.node =
        [ ⟨.label "a" (some 2) .unclassified, 1⟩, ⟨.label "b" none .unclassified, 2⟩
        , ⟨.label "c" none .unclassified, 3⟩ ] ∧
      ∃ places : List Nat, places.Pairwise (· < ·) ∧ places.length = 3 ∧ 0 ∈ places ∧
        5 ∈ places ∧ (places.countP fun place => !labelAt ts place) = 1 := by
  intro ts tree labels
  obtain ⟨_, _, places, hincreasing, _, hlabels, hfused, hothers⟩ :=
    program_labels defaultLimit ts
  refine ⟨by decide +kernel, places, hincreasing, ?_, ?_, ?_, ?_⟩
  · exact hlabels.length_eq.symm.trans (by decide +kernel)
  · exact hfused 0 (by decide) (by decide)
  · exact hfused 5 (by decide) (by decide)
  · exact hothers.trans (by decide +kernel)

end Parser

end Asm6502
