import Asm6502.Proofs.Parsing.ProgramShape
import Asm6502.Proofs.Tree.Nesting

/-!
# The limit on nesting

Expressions nest up to a limit, which is handed down as the number of levels left.  What
has been read keeps to it: fewer signs and parentheses than the limit enclose any name or
constant of an expression.  And nothing else depends on it.  With another limit, all
parsers go the same way until an expression nests too deep for the smaller one, which is
then reported.  A failed expression takes no levels away from those behind it, for the
levels left are an argument and no part of the state.

## Main results

* `program_within` — there is room for all that has been read.
* `Narrows` — reading alike, but for failing where something nests too deep.
* `program_eq_of_le` — without such a report, a larger limit changes nothing.
* `program_nestingLimit` — the limit is exact, and only a limit.
-/

namespace Asm6502

/-! ## Room for what is shown -/

namespace Syntax

variable {t : Tree} {id : NodeId} {n : Nat}

theorem Expression.ShownAt.within {e : Expression} (h : e.ShownAt t id) (hdepth : e.depth < n) :
    t.Within n id := by
  induction e generalizing id n with
  | name token =>
      obtain ⟨n, rfl⟩ := Nat.exists_eq_add_of_lt hdepth
      have hkind : t.kind id = .name token.text := congrArg Node.kind h
      exact .leaf (by rw [hkind]; rfl)
  | const token =>
      obtain ⟨n, rfl⟩ := Nat.exists_eq_add_of_lt hdepth
      have hkind : t.kind id = .const token.text := congrArg Node.kind h
      exact .leaf (by rw [hkind]; rfl)
  | signed sign wrapper isSign body ih =>
      obtain ⟨child, hnode, hbody⟩ := h
      cases n with
      | zero => cases hdepth
      | succ n =>
          exact .enclosing (congrArg Node.kind hnode)
            (isIndex_of_isSign (isSign_of_signWrapper? isSign))
            (ih hbody (Nat.lt_of_succ_lt_succ hdepth))
  | parens opening isOpening body closing isClosing ih =>
      obtain ⟨child, hnode, hbody⟩ := h
      cases n with
      | zero => cases hdepth
      | succ n =>
          exact .enclosing (congrArg Node.kind hnode) rfl (ih hbody (Nat.lt_of_succ_lt_succ hdepth))
  | sum left sign operator isSign right ihLeft ihRight =>
      obtain ⟨l, r, hnode, hleft, hright⟩ := h
      obtain ⟨hl, hr⟩ := Nat.max_lt.1 hdepth
      refine .of_node hnode rfl rfl ?_
      intro child hchild
      rw [Node.Kind.children, List.mem_pair] at hchild
      rcases hchild with rfl | rfl
      · exact ihLeft hleft hl
      · exact ihRight hright hr

theorem Operand.ShownAt.within {o : Operand} (h : o.ShownAt t id)
    (hdepth : o.expression.depth < n) : t.Within n id := by
  cases o with
  | plain e => exact Expression.ShownAt.within h hdepth
  | indexed e comma isComma register wrapper isRegister =>
      obtain ⟨child, hnode, he⟩ := h
      refine .of_node hnode rfl ?_ ?_
      · rw [Node.Kind.encloses, isIndex_of_indexWrapper? isRegister]
        rfl
      · intro only honly
        rw [List.mem_singleton.1 honly]
        exact he.within hdepth

theorem Operand.ShownIfAny.within {o? : Option Operand} {id? : Option NodeId}
    (h : ShownIfAny t o? id?) (hdepth : ∀ o ∈ o?, o.expression.depth < n) :
    ∀ id ∈ id?, t.Within n id := by
  intro id hid
  cases o? with
  | none =>
      rw [show id? = none from h] at hid
      cases hid
  | some o =>
      obtain ⟨id', rfl, ho⟩ := h
      cases hid
      exact ho.within (hdepth o rfl)

/-- Only the target of a branch needs no room. -/
theorem Arguments.ShownAt.within {c : OperandClass} {a : Arguments c} {id? : Option NodeId}
    (h : a.ShownAt t id?) (hdepth : ∀ o ∈ a.operand?, o.expression.depth < n) :
    (∀ id ∈ id?, t.Within n id) ∨
      c = .target ∧ ∃ id text, id? = some id ∧ t.kind id = .name text := by
  cases a with
  | implied =>
      left
      rw [show id? = none from h]
      rintro id ⟨⟩
  | memory => exact .inl (Operand.ShownIfAny.within h hdepth)
  | accumulator => exact .inl (Operand.ShownIfAny.within h hdepth)
  | target token =>
      obtain ⟨id, hid, hnode⟩ := h
      exact .inr ⟨rfl, id, token.text, hid, congrArg Node.kind hnode⟩

/-- There is room for nodes if there is for all that they show. -/
theorem within_of_shown {α : Type} {R : NodeId → α → Prop} {ids : List NodeId} {xs : List α}
    (hshown : List.Forall₂ R ids xs) (hroom : ∀ id, ∀ x ∈ xs, R id x → t.Within n id) :
    ∀ id ∈ ids, t.Within n id := by
  induction hshown with
  | nil =>
      intro id hid
      cases hid
  | cons hx _ ih =>
      intro id hid
      rcases List.mem_cons.1 hid with rfl | hid
      · exact hroom _ _ List.mem_cons_self hx
      · exact ih (fun id x hx => hroom id x (List.mem_cons_of_mem _ hx)) id hid

theorem Item.ShownAt.within {i : Item} (h : i.ShownAt t id)
    (hdepth : ∀ e ∈ i.expressions, e.depth < n) : t.Within n id := by
  cases i with
  | instruction token m isMnemonic arguments =>
      obtain ⟨operand, hnode, harguments⟩ := h
      have hroom := harguments.within fun o ho => hdepth o.expression (by
        rw [Item.expressions, Option.mem_toList, Option.map_eq_some_iff]
        exact ⟨o, ho, rfl⟩)
      rcases hroom with hroom | ⟨hclass, target, text, rfl, hname⟩
      · exact .of_node hnode rfl rfl fun child hchild => hroom child (Option.mem_toList.1 hchild)
      · exact .branch (congrArg Node.kind hnode) hclass hname
  | data marker width isMarker first further trailing =>
      obtain ⟨head, ids, hnode, hlists, hshown⟩ := h
      have hids := within_of_shown hshown fun id e he hid => hid.within (hdepth e he)
      refine .of_node hnode rfl rfl ?_
      intro only honly
      exact .of_lists hlists hids only (congrArg some (List.mem_singleton.1 honly).symm)

theorem LabelsShownAt.within {child : Option NodeId} {labels : List Token} {id? : Option NodeId}
    (h : LabelsShownAt t child labels id?) (hchild : ∀ id ∈ child, t.Within n id) :
    ∀ id ∈ id?, t.Within n id := by
  induction labels generalizing id? with
  | nil =>
      rw [show id? = child from h]
      exact hchild
  | cons token labels ih =>
      obtain ⟨id, _, next, rfl, _, hnode, hmore⟩ := h
      rintro _ ⟨⟩
      exact .of_node hnode rfl rfl fun child hchild => ih hmore child (Option.mem_toList.1 hchild)

theorem Entry.ShownAt.within {entry : Entry} (h : entry.ShownAt t id)
    (hdepth : ∀ e ∈ entry.expressions, e.depth < n) : t.Within n id := by
  cases entry with
  | declaration d =>
      obtain ⟨child, hnode, hvalue⟩ := h
      refine .of_node hnode rfl rfl ?_
      intro only honly
      rw [List.mem_singleton.1 honly]
      exact hvalue.within (hdepth d.value List.mem_cons_self)
  | labelled s =>
      obtain ⟨head, ids, hlists, hshown, hlabels⟩ := h
      have hids := within_of_shown hshown fun id i hi hid =>
        hid.within fun e he => hdepth e (List.mem_flatMap.2 ⟨i, hi, he⟩)
      exact hlabels.within (.of_lists hlists hids) id rfl

end Syntax

namespace Parser

open Syntax

variable {α β : Type} {s s' : State} {limit limit' levels levels' : Nat}
  {E E' : Parser (Option NodeId)}

/-- `p` goes the way of `q`, unless it fails because something nests too deep. -/
def Narrows (p q : Parser α) : Prop :=
  ∀ s, p s = q s ∨ ∃ e s', p s = .error e s' ∧ e.kind = .nestingTooDeep

namespace Narrows

theorem refl (p : Parser α) : Narrows p p := fun _ => .inl rfl

theorem bind {p q : Parser α} {f g : α → Parser β} (h : Narrows p q)
    (hf : ∀ a, Narrows (f a) (g a)) : Narrows (p >>= f) (q >>= g) := by
  intro s
  rcases h s with heq | ⟨e, s', herror, hk⟩
  · show EStateM.bind p f s = EStateM.bind q g s ∨ _
    simp only [EStateM.bind, heq]
    cases hq : q s with
    | error e s' => exact .inl rfl
    | ok a s' =>
        rcases hf a s' with heq' | ⟨e, s'', herror, hk⟩
        · exact .inl heq'
        · refine .inr ⟨e, s'', ?_, hk⟩
          show EStateM.bind p f s = _
          simp only [EStateM.bind, heq, hq, herror]
  · refine .inr ⟨e, s', ?_, hk⟩
    show EStateM.bind p f s = _
    simp only [EStateM.bind, herror]

/-- Behind the same parser. -/
theorem behind (p : Parser α) {f g : α → Parser β} (hf : ∀ a, Narrows (f a) (g a)) :
    Narrows (p >>= f) (p >>= g) := (refl p).bind hf

theorem ite {c : Prop} [Decidable c] {p p' q q' : Parser α} (h : Narrows p p')
    (h' : Narrows q q') : Narrows (if c then p else q) (if c then p' else q') := by
  split
  · exact h
  · exact h'

end Narrows

open Narrows

theorem narrows_required (h : Narrows E E') (after : Token) :
    Narrows (required E after) (required E' after) := by
  unfold required
  refine h.bind ?_
  rintro (_ | id)
  · exact refl _
  · exact refl _

theorem narrows_signed (h : Narrows E E') (w : Wrapper) : Narrows (signed E w) (signed E' w) :=
  behind _ fun sign => behind _ fun _ => (narrows_required h sign).bind fun _ => refl _

theorem narrows_parenthesised (h : Narrows E E') :
    Narrows (parenthesised E) (parenthesised E') :=
  behind _ fun opening => behind _ fun _ => (narrows_required h opening).bind fun _ => refl _

theorem narrows_primary (h : Narrows E E') : Narrows (primary E) (primary E') := by
  refine behind _ fun token => ?_
  cases token.kind with
  | hash => exact narrows_signed h _
  | less => exact narrows_signed h _
  | greater => exact narrows_signed h _
  | parenLeft => exact narrows_parenthesised h
  | _ => exact refl _

theorem narrows_sumRest (h : Narrows E E') (bound : List Token) (left : NodeId) :
    Narrows (sumRest E bound left) (sumRest E' bound left) := by
  induction bound generalizing left with
  | nil => exact refl _
  | cons b bound ih =>
      refine behind _ fun token => ?_
      cases sumOperator? token.kind with
      | none => exact refl _
      | some operator =>
          refine behind _ fun _ => (narrows_required (narrows_primary h) token).bind fun right => ?_
          exact behind _ fun line => behind _ fun whole => ih whole

theorem narrows_sum (h : Narrows E E') : Narrows (sum E) (sum E') := by
  refine (narrows_primary h).bind ?_
  rintro (_ | left)
  · exact refl _
  · exact behind _ fun bound => (narrows_sumRest h bound left).bind fun _ => refl _

/-- With fewer levels left, an expression is read alike or found to nest too deep. -/
theorem narrows_expression (hlevels : levels ≤ levels') :
    Narrows (expression limit levels) (expression limit' levels') := by
  induction levels generalizing levels' with
  | zero => exact fun s => .inr ⟨_, s, rfl, rfl⟩
  | succ levels ih =>
      obtain ⟨levels', rfl⟩ := Nat.exists_eq_add_of_le' (Nat.le_of_add_left_le hlevels)
      exact narrows_sum (ih (Nat.le_of_add_le_add_right hlevels))

theorem narrows_operand (hlimit : limit ≤ limit') : Narrows (operand limit) (operand limit') := by
  refine (narrows_expression hlimit).bind ?_
  rintro (_ | id)
  · exact refl _
  · exact refl _

theorem narrows_onLineOf (hlimit : limit ≤ limit') (token : Token) :
    Narrows (operandOf.onLineOf limit token) (operandOf.onLineOf limit' token) :=
  behind _ fun _ => .ite (narrows_operand hlimit) (refl _)

theorem narrows_operandOf (hlimit : limit ≤ limit') (token : Token) (c : OperandClass) :
    Narrows (operandOf limit token c) (operandOf limit' token c) := by
  cases c with
  | implied => exact refl _
  | memory => exact (narrows_onLineOf hlimit token).bind fun _ => refl _
  | accumulator => exact narrows_onLineOf hlimit token
  | target => exact refl _

theorem narrows_instruction (hlimit : limit ≤ limit') (m : Mnemonic) :
    Narrows (instruction limit m) (instruction limit' m) :=
  behind _ fun token => behind _ fun _ =>
    (narrows_operandOf hlimit token m.operandClass).bind fun _ => refl _

theorem narrows_dataRest (hlimit : limit ≤ limit') (bound : List Token) (done : List NodeId) :
    Narrows (dataRest limit bound done) (dataRest limit' bound done) := by
  induction bound generalizing done with
  | nil => exact refl _
  | cons b bound ih =>
      refine behind _ fun token => .ite (behind _ fun _ => ?_) (refl _)
      refine (narrows_expression hlimit).bind ?_
      rintro (_ | id)
      · exact refl _
      · exact ih (id :: done)

theorem narrows_dataList (hlimit : limit ≤ limit') :
    Narrows (dataList limit) (dataList limit') := by
  refine (narrows_expression hlimit).bind ?_
  rintro (_ | first)
  · exact refl _
  · exact behind _ fun bound => (narrows_dataRest hlimit bound [first]).bind fun _ => refl _

theorem narrows_data (hlimit : limit ≤ limit') (width : DataWidth) :
    Narrows (data limit width) (data limit' width) :=
  behind _ fun _ => behind _ fun _ => behind _ fun _ =>
    .ite ((narrows_dataList hlimit).bind fun _ => refl _) (refl _)

theorem narrows_declaration (hlimit : limit ≤ limit') :
    Narrows (declaration limit) (declaration limit') :=
  behind _ fun _ => behind _ fun _ => behind _ fun equals => behind _ fun _ =>
    (narrows_required (narrows_expression hlimit) equals).bind fun _ => refl _

/-- The same tokens start items, which are read alike or found to nest too deep. -/
theorem narrows_item? (hlimit : limit ≤ limit') (k : Token.Kind) :
    Option.Rel Narrows (item? limit k) (item? limit' k) := by
  cases k with
  | instruction m => exact .some (narrows_instruction hlimit m)
  | dataBytes => exact .some (narrows_data hlimit _)
  | dataWords => exact .some (narrows_data hlimit _)
  | _ => exact .none

/-! ## Statements -/

/-- It has been reported that something nests too deep. -/
def State.TooDeep (s : State) : Prop := ∃ d ∈ s.diagnostics.toList, d.kind = .nestingTooDeep

theorem State.tooDeep_recover {e : Failure} (h : e.kind = .nestingTooDeep) :
    (s.recover e).TooDeep := by
  refine ⟨e.diagnostic, ?_, h⟩
  obtain ⟨passed, hreads, _⟩ := State.reads_recover s e
  rw [hreads.diagnostics_eq]
  exact List.mem_append_right _ List.mem_cons_self

theorem State.TooDeep.reads {passed : List Token} {reported : List Diagnostic} (h : s.TooDeep)
    (hreads : s.Reads s' passed reported) : s'.TooDeep := by
  obtain ⟨d, hd, hk⟩ := h
  rw [State.TooDeep, hreads.diagnostics_eq]
  exact ⟨d, List.mem_append_left _ hd, hk⟩

theorem blockItems_narrows (hlimit : limit ≤ limit') (bound : List Token) (done : List NodeId)
    (s : State) :
    blockItems limit bound done s = blockItems limit' bound done s ∨
      (blockItems limit bound done s).2.TooDeep := by
  induction bound generalizing done s with
  | nil => exact .inl rfl
  | cons b bound ih =>
      unfold blockItems
      split
      next => exact .inl rfl
      next =>
        split
        next => exact ih done s.skipDirective
        next =>
          have hitem := narrows_item? hlimit s.current.kind
          generalize item? limit s.current.kind = item at hitem ⊢
          generalize item? limit' s.current.kind = item' at hitem ⊢
          cases hitem with
          | none => exact ih done (s.skip .stall)
          | @some item item' h =>
              dsimp only
              rcases h s with heq | ⟨e, s', herror, hk⟩
              · rw [heq]
                cases item' s with
                | error e s' => exact .inl rfl
                | ok found s' => exact ih (found.toList ++ done) s'
              · rw [herror]
                exact .inr (State.tooDeep_recover hk)

/-- Where the block is read alike, so is the whole section. -/
theorem labelSection_narrows (hlimit : limit ≤ limit') (token : Token) (s : State) :
    labelSection limit token s = labelSection limit' token s ∨
      (labelSection limit token s).TooDeep := by
  rcases blockItems_narrows hlimit s.pastLabels.stream.ahead [] s.pastLabels with heq | hdeep
  · left
    rw [labelSection_eq, labelSection_eq, block, block, heq]
  · right
    rw [State.TooDeep, (labelSection_elsewhere limit token s).2]
    exact hdeep

theorem statement_narrows (hlimit : limit ≤ limit') (s : State) :
    statement limit s = statement limit' s ∨ (statement limit s).TooDeep := by
  unfold statement
  dsimp only
  split
  next => exact .inl rfl
  next => exact labelSection_narrows hlimit s.current s.advance
  next =>
    split
    next =>
      rcases narrows_declaration hlimit s with heq | ⟨e, s', herror, hk⟩
      · rw [heq]
        exact .inl rfl
      · rw [herror]
        exact .inr (State.tooDeep_recover hk)
    next => exact labelSection_narrows hlimit s.current _
    next => exact .inl rfl
  next => exact .inl rfl

/-! ## Programs -/

theorem statements_tooDeep {ts : List Token} {account : List Statement} (attempts left : Nat)
    (h : Accounts limit ts s account) (hdeep : s.TooDeep) :
    (statements limit attempts left s).TooDeep := by
  induction left generalizing s account with
  | zero =>
      rw [statements]
      split
      · exact hdeep
      · exact hdeep.reads (State.reads_diagnose s _)
  | succ left ih =>
      rw [statements]
      split
      next => exact hdeep
      next hcurrent =>
        obtain ⟨st, h'⟩ := statement_accounts limit h hcurrent
        obtain ⟨d, hd, hk⟩ := hdeep
        exact ih h' ⟨d, h.mem_diagnostics h' hd, hk⟩

/-- Statement after statement is read alike, up to the first one in which something nests
too deep. -/
theorem statements_narrows {ts : List Token} {account : List Statement} (hlimit : limit ≤ limit')
    (attempts left : Nat) (h : Accounts limit ts s account) :
    statements limit attempts left s = statements limit' attempts left s ∨
      (statements limit attempts left s).TooDeep := by
  induction left generalizing s account with
  | zero => exact .inl rfl
  | succ left ih =>
      rw [statements, statements]
      split
      next => exact .inl rfl
      next hcurrent =>
        obtain ⟨st, h'⟩ := statement_accounts limit h hcurrent
        rcases statement_narrows hlimit s with heq | hdeep
        · rw [← heq]
          exact ih h'
        · exact .inr (statements_tooDeep attempts left h' hdeep)

/-- A larger limit changes nothing where nothing nests too deep. -/
theorem program_eq_of_le (hlimit : limit ≤ limit') (ts : List Token)
    (hshallow : ∀ d ∈ (program limit ts).diagnostics, d.kind ≠ .nestingTooDeep) :
    program limit' ts = program limit ts := by
  let attempts := 2 * ((State.start ts).remaining + 1)
  rcases statements_narrows hlimit attempts attempts (Accounts.start ts) with heq | ⟨d, hd, hk⟩
  · have hrun (limit : Nat) : program limit ts =
        ⟨(statements limit attempts attempts (State.start ts)).tree,
          (statements limit attempts attempts (State.start ts)).diagnostics.toList⟩ := rfl
    rw [hrun, hrun, heq]
  · exact absurd hk (hshallow d hd)

/-- There is room for all that has been read. -/
theorem program_within (limit : Nat) (ts : List Token) :
    (program limit ts).tree.Within limit 0 := by
  obtain ⟨_, s', account, _, _, hprogram, haccount, _⟩ := program_accounts limit ts
  rw [hprogram]
  have hroot := haccount.shows.rooted.kind_eq
  refine .other (by rw [hroot]; rfl) (by rw [hroot]; rfl) ?_
  exact within_of_shown haccount.shows.shown fun id entry hentry hid =>
    hid.within fun e he => (haccount.shows.fits entry hentry e he).depth_lt

/-- The limit is exact, and only a limit.  On each way down from the root, fewer signs and
parentheses than the limit enclose a name or a constant, other than the target of a branch.
If nothing nests too deep for one limit, then with any larger one the tree and the
diagnostics are the same.  So what nests too deep is reported: if with a larger limit the
tree has a name or a constant enclosed so deep, then the smaller one is reported to be
exceeded. -/
theorem program_nestingLimit (limit : Nat) (ts : List Token) :
    (∀ n id, (program limit ts).tree.Nested 0 n id →
      ((program limit ts).tree.kind id).isLeaf = true → ¬ (program limit ts).tree.IsTarget id →
        n < limit) ∧
      ∀ limit', limit ≤ limit' →
        ((∀ d ∈ (program limit ts).diagnostics, d.kind ≠ .nestingTooDeep) →
          program limit' ts = program limit ts) ∧
        ∀ n id, (program limit' ts).tree.Nested 0 n id →
          ((program limit' ts).tree.kind id).isLeaf = true →
          ¬ (program limit' ts).tree.IsTarget id → limit ≤ n →
            ∃ d ∈ (program limit ts).diagnostics, d.kind = .nestingTooDeep := by
  have hlt {n : Nat} {id : NodeId} (way : (program limit ts).tree.Nested 0 n id) :=
    (program_within limit ts).nested_lt way
  refine ⟨fun n id way => hlt way, ?_⟩
  intro limit' hlimit
  refine ⟨program_eq_of_le hlimit ts, ?_⟩
  intro n id way hleaf htarget hdeep
  by_contra hnone
  have heq : program limit' ts = program limit ts :=
    program_eq_of_le hlimit ts fun d hd hk => hnone ⟨d, hd, hk⟩
  rw [heq] at way hleaf htarget
  exact absurd (hlt way hleaf htarget) (Nat.not_lt.2 hdeep)

/-- The tree of `A = #<1`. -/
def signTree : Tree :=
  ⟨#[⟨.root [4], 0⟩, ⟨.const "1", 1⟩, ⟨.wrap .loByte 1, 1⟩, ⟨.wrap .immediate 2, 1⟩,
    ⟨.decl "A" 3, 1⟩], #[none, some 2, some 3, some 4, some 0]⟩

theorem nested_signTree : signTree.Nested 0 2 1 := by
  have hdecl : signTree.Nested 0 0 4 := .down .here (by decide)
  have hhash : signTree.Nested 0 0 3 := .down hdecl (by decide)
  have hless : signTree.Nested 0 1 2 := .down hhash (by decide)
  exact .down hless (by decide)

theorem not_isTarget_signTree : ¬ signTree.IsTarget 1 := by
  rintro ⟨owner, m, _, hk, _⟩
  have howner : 1 ∈ signTree.children owner := by
    rw [Tree.children, hk]
    exact List.mem_singleton_self 1
  by_cases hlt : owner < 5
  · have hall : ∀ owner < 5, 1 ∈ signTree.children owner → owner = 2 := by decide
    rw [hall owner hlt howner] at hk
    cases hk
  · rw [Tree.children_eq_nil_of_size_le (Nat.le_of_not_lt hlt)] at howner
    cases howner

/-- Two signs around a constant: a limit of three is enough, and one of two is not. -/
theorem program_nestingLimit_signs :
    let ts : List Token :=
      [ ⟨.name, "A", ⟨1, 1⟩⟩, ⟨.equals, "=", ⟨1, 3⟩⟩, ⟨.hash, "#", ⟨1, 5⟩⟩
      , ⟨.less, "<", ⟨1, 6⟩⟩, ⟨.decConst, "1", ⟨1, 7⟩⟩ ]
    let t := (program 3 ts).tree
    t.Nested 0 2 1 ∧ (t.kind 1).isLeaf = true ∧ ¬ t.IsTarget 1 ∧ 2 < 3 ∧
      (program 3 ts).diagnostics = [] ∧ program 5 ts = program 3 ts ∧
      ∃ d ∈ (program 2 ts).diagnostics, d.kind = .nestingTooDeep := by
  intro ts t
  have ht : t = signTree := by decide +kernel
  have hshallow : (program 3 ts).diagnostics = [] := by decide +kernel
  have way : t.Nested 0 2 1 := ht ▸ nested_signTree
  have hleaf : (t.kind 1).isLeaf = true := by
    rw [ht]
    rfl
  have htarget : ¬ t.IsTarget 1 := ht ▸ not_isTarget_signTree
  obtain ⟨hlt, hlarger⟩ := program_nestingLimit 3 ts
  refine ⟨way, hleaf, htarget, hlt 2 1 way hleaf htarget, hshallow, ?_, ?_⟩
  · refine (hlarger 5 (by decide)).1 ?_
    rw [hshallow]
    rintro d ⟨⟩
  · exact ((program_nestingLimit 2 ts).2 3 (by decide)).2 2 1 way hleaf htarget (by decide)

end Parser

end Asm6502
