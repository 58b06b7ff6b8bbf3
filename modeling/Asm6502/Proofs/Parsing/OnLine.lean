import Asm6502.Proofs.Parsing.BlockCompleteness
import Asm6502.Proofs.Parsing.Provenance
import Asm6502.Proofs.Parsing.ReportOrder
import Asm6502.Proofs.Parsing.Respacing

/-!
# Operands on their line

Lines matter to the parser in one place.  Behind a mnemonic or a data marker it looks at the
line of the next token, and on another line it takes that token for the start of something
new.  The rest of an operand is read without a look at lines, and so is the name behind a
branch.  What is compared is thus the line of a first token; that it is the line of the
operand, of its node and of the cells in front of it follows from how these take over the
lines of their parts.

In the tree of a program each instruction and each data directive can be told the place of
its token.  The places go up from item to item, and what an item works on starts right behind
its place.

A mnemonic or a marker with nothing on its line is dealt with by itself: one token is passed,
and what is missing is reported once, or not at all where an operand may be left out.

## Main results

* `itemsFrom_lists`, `Item.ShownAt.itemsFrom_eq` — which nodes of a tree are items.
* `program_itemized` — the places of the items of a program, in order.
* `AtItem.bare_instruction`, `AtItem.bare_data` — a mnemonic and a marker in front of another line.
* `program_onLine` — operands are on the line of what they belong to.
-/

namespace Asm6502

/-- Whether an operand has to stand on the line of its mnemonic. -/
def OperandClass.staysOnLine : OperandClass → Bool
  | .memory | .accumulator => true
  | .implied | .target => false

/-- Whether a node is an item of a code block. -/
def Node.Kind.isItem : Kind → Bool
  | .data _ _ | .instruction _ _ => true
  | .root _ | .list _ _ | .decl _ _ | .label _ _ _ | .name _ | .const _ | .wrap _ _
  | .sum _ _ _ => false

namespace Syntax

variable {t : Tree} {id : NodeId} {ts us : List Token} {place : Nat}

/-! ## Which nodes are items -/

/-- The items of code blocks at a node and below it, in source order. -/
def itemsFrom (t : Tree) (id : NodeId) : List NodeId :=
  (t.preorder id).filter fun id => (t.kind id).isItem

theorem itemsFrom_of_node {n : Node} (ht : t.Descends) (hnode : t.node id = n)
    (hn : ∀ items, n.kind ≠ .root items) :
    itemsFrom t id =
      (if n.kind.isItem = true then [id] else []) ++ n.kind.children.flatMap (itemsFrom t) := by
  have hkind : t.kind id = n.kind := congrArg Node.kind hnode
  rw [itemsFrom, preorder_of_node ht hnode hn, List.filter_cons, List.filter_flatMap, hkind]
  split
  · rfl
  · rfl

theorem Expression.ShownAt.itemsFrom_eq (ht : t.Descends) {e : Expression}
    (h : e.ShownAt t id) : itemsFrom t id = [] := by
  induction e generalizing id with
  | name | const =>
      rw [itemsFrom_of_node ht h (by simp)]
      rfl
  | signed _ _ _ _ ih | parens _ _ _ _ _ ih =>
      obtain ⟨child, hnode, hbody⟩ := h
      rw [itemsFrom_of_node ht hnode (by simp)]
      simp [Node.Kind.isItem, Node.Kind.children, ih hbody]
  | sum _ _ _ _ _ ihLeft ihRight =>
      obtain ⟨l, r, hnode, hleft, hright⟩ := h
      rw [itemsFrom_of_node ht hnode (by simp)]
      simp [Node.Kind.isItem, Node.Kind.children, ihLeft hleft, ihRight hright]

theorem Operand.ShownAt.itemsFrom_eq (ht : t.Descends) {o : Operand} (h : o.ShownAt t id) :
    itemsFrom t id = [] := by
  cases o with
  | plain e => exact Expression.ShownAt.itemsFrom_eq ht h
  | indexed =>
      obtain ⟨child, hnode, he⟩ := h
      rw [itemsFrom_of_node ht hnode (by simp)]
      simp [Node.Kind.isItem, Node.Kind.children, he.itemsFrom_eq ht]

theorem Arguments.ShownAt.itemsFrom_eq (ht : t.Descends) {c : OperandClass} {a : Arguments c}
    {id? : Option NodeId} (h : a.ShownAt t id?) : id?.toList.flatMap (itemsFrom t) = [] := by
  have optional (o? : Option Operand) (h : Operand.ShownIfAny t o? id?) :
      id?.toList.flatMap (itemsFrom t) = [] := by
    cases o? with
    | none =>
        rw [show id? = none from h]
        rfl
    | some o =>
        obtain ⟨id, rfl, ho⟩ := h
        simp [ho.itemsFrom_eq ht]
  cases a with
  | implied => exact optional none h
  | memory => exact optional _ h
  | accumulator => exact optional _ h
  | target =>
      obtain ⟨id, rfl, hnode⟩ := h
      rw [Option.toList_some, List.flatMap_singleton, itemsFrom_of_node ht hnode (by simp)]
      rfl

/-- The cells of a list are no items themselves. -/
theorem itemsFrom_lists {head : Option NodeId} {ids : List NodeId} (ht : t.Descends)
    (h : t.Lists head ids) : head.toList.flatMap (itemsFrom t) = ids.flatMap (itemsFrom t) := by
  induction ids generalizing head with
  | nil =>
      rw [show head = none from h]
      rfl
  | cons id ids ih =>
      obtain ⟨cell, next, rfl, hnode, hmore⟩ := h
      rw [Option.toList_some, List.flatMap_singleton, itemsFrom_of_node ht hnode (by simp),
        List.flatMap_cons, ← ih hmore]
      rfl

/-- What an item works on holds no further items. -/
theorem Item.ShownAt.itemsFrom_eq (ht : t.Descends) {i : Item} (h : i.ShownAt t id) :
    itemsFrom t id = [id] := by
  cases i with
  | instruction =>
      obtain ⟨operand, hnode, harguments⟩ := h
      rw [itemsFrom_of_node ht hnode (by simp)]
      simp only [Node.Kind.isItem, Node.Kind.children, harguments.itemsFrom_eq ht]
      rfl
  | data =>
      obtain ⟨head, ids, hnode, hlists, hshown⟩ := h
      have hnone := (List.forall₂_and_left (p := fun id => itemsFrom t id = []) ..).1
        (hshown.imp fun _ _ he => ⟨Expression.ShownAt.itemsFrom_eq ht he, he⟩)
      have hhead : itemsFrom t head = [] := by
        have hcells := itemsFrom_lists ht hlists
        rw [List.flatMap_eq_nil_iff.2 hnone.1, Option.toList_some, List.flatMap_singleton] at hcells
        exact hcells
      rw [itemsFrom_of_node ht hnode (by simp)]
      simp [Node.Kind.isItem, Node.Kind.children, hhead]

/-- Labels are no items themselves. -/
theorem LabelsShownAt.itemsFrom_eq (ht : t.Descends) {child id? : Option NodeId}
    {labels : List Token} (h : LabelsShownAt t child labels id?) :
    id?.toList.flatMap (itemsFrom t) = child.toList.flatMap (itemsFrom t) := by
  induction labels generalizing id? with
  | nil => rw [show id? = child from h]
  | cons token more ih =>
      obtain ⟨id, _, next, rfl, _, hnode, hmore⟩ := h
      rw [Option.toList_some, List.flatMap_singleton, itemsFrom_of_node ht hnode (by simp),
        ← ih hmore]
      rfl

/-! ## Items among tokens -/

theorem getElem?_of_prefix_drop {first : Token} {more : List Token}
    (h : first :: more <+: ts.drop place) : ts[place]? = some first := by
  obtain ⟨rest, hrest⟩ := h
  rw [← List.head?_drop, ← hrest]
  rfl

theorem prefix_drop_succ {first : Token} {more : List Token}
    (h : first :: more <+: ts.drop place) : more <+: ts.drop (place + 1) := by
  obtain ⟨rest, hrest⟩ := h
  rw [← List.drop_drop, ← hrest]
  exact List.prefix_append more rest

/-- What is written from `place` on is an item on its line, and node `id` shows it. -/
def ItemAt (t : Tree) (ts : List Token) (id : NodeId) (place : Nat) : Prop :=
  ∃ i : Item, i.ShownAt t id ∧ i.OnLine ∧ i.tokens <+: ts.drop place

/-- The nodes `ids` show items among the tokens, in order. -/
def Itemized (t : Tree) (ts : List Token) (ids : List NodeId) : Prop :=
  ∃ places : List Nat, places.Pairwise (· < ·) ∧ (∀ place ∈ places, place < ts.length) ∧
    List.Forall₂ (ItemAt t ts) ids places

namespace ItemAt

/-- More tokens behind do no harm. -/
theorem append_right (h : ItemAt t ts id place) (us : List Token) :
    ItemAt t (ts ++ us) id place := by
  obtain ⟨i, hshown, honLine, htokens⟩ := h
  refine ⟨i, hshown, honLine, ?_⟩
  rw [List.drop_append]
  exact htokens.trans (List.prefix_append _ _)

/-- More tokens in front move the place. -/
theorem append_left (h : ItemAt t us id place) (ts : List Token) :
    ItemAt t (ts ++ us) id (ts.length + place) := by
  obtain ⟨i, hshown, honLine, htokens⟩ := h
  refine ⟨i, hshown, honLine, ?_⟩
  rw [List.drop_length_add_append]
  exact htokens

end ItemAt

namespace Itemized

variable {ids ids' : List NodeId}

/-- Tokens without items. -/
theorem nil (t : Tree) (ts : List Token) : Itemized t ts [] :=
  ⟨[], .nil, List.forall_mem_nil _, .nil⟩

theorem of_item {i : Item} (hshown : i.ShownAt t id) (honLine : i.OnLine) :
    Itemized t i.tokens [id] := by
  have hpos : 0 < i.tokens.length := by
    obtain ⟨first, more, htokens, _⟩ := i.exists_tokens_eq_cons
    rw [htokens]
    exact Nat.succ_pos _
  refine ⟨[0], List.pairwise_singleton _ _, ?_, .cons ⟨i, hshown, honLine, List.prefix_rfl⟩ .nil⟩
  intro place hplace
  rwa [List.mem_singleton.1 hplace]

theorem append (h : Itemized t ts ids) (h' : Itemized t us ids') :
    Itemized t (ts ++ us) (ids ++ ids') := by
  obtain ⟨places, hlt, hbound, hitems⟩ := h
  obtain ⟨places', hlt', hbound', hitems'⟩ := h'
  refine ⟨places ++ places'.map (ts.length + ·), List.pairwise_append.2 ⟨hlt, ?_, ?_⟩, ?_, ?_⟩
  · exact List.pairwise_map.2 (hlt'.imp fun h => Nat.add_lt_add_left h _)
  · intro place hplace place' hplace'
    obtain ⟨more, _, rfl⟩ := List.mem_map.1 hplace'
    exact Nat.lt_of_lt_of_le (hbound place hplace) (Nat.le_add_right _ _)
  · intro place hplace
    rw [List.length_append]
    rcases List.mem_append.1 hplace with hplace | hplace
    · exact Nat.lt_of_lt_of_le (hbound place hplace) (Nat.le_add_right _ _)
    · obtain ⟨more, hmore, rfl⟩ := List.mem_map.1 hplace
      exact Nat.add_lt_add_left (hbound' more hmore) _
  · refine List.rel_append (hitems.imp fun _ _ h => h.append_right us) ?_
    exact List.forall₂_map_right_iff.2 (hitems'.imp fun _ _ h => h.append_left ts)

/-- Stretches of tokens, some of which show something with items. -/
theorem flatMap {α β : Type} {pick : α → Option β} {tokens : α → List Token}
    {R : NodeId → β → Prop} {parts : List α}
    (hshown : List.Forall₂ R ids (parts.filterMap pick))
    (hpicked : ∀ p x, pick p = some x → x ∈ parts.filterMap pick → ∀ id, R id x →
      Itemized t (tokens p) (itemsFrom t id)) :
    Itemized t (parts.flatMap tokens) (ids.flatMap (itemsFrom t)) := by
  induction parts generalizing ids with
  | nil =>
      cases hshown
      exact nil t []
  | cons p parts ih =>
      rw [List.flatMap_cons]
      cases hp : pick p with
      | none =>
          rw [List.filterMap_cons_none hp] at hshown hpicked
          have hmore := ih hshown fun q x hq hx => hpicked q x hq hx
          exact (nil t (tokens p)).append hmore
      | some x =>
          rw [List.filterMap_cons_some hp] at hshown hpicked
          cases hshown with
          | cons hx hshown =>
              rw [List.flatMap_cons]
              have hmore := ih hshown fun q y hq hy => hpicked q y hq (List.mem_cons_of_mem _ hy)
              exact (hpicked p x hp List.mem_cons_self _ hx).append hmore

end Itemized

/-- The tokens of an entry hold the items below its node. -/
theorem Statement.itemized (ht : t.Descends) {st : Statement} {entry : Entry}
    (hentry : st.entry? = some entry) (h : entry.ShownAt t id)
    (honLine : ∀ i ∈ entry.items, i.OnLine) : Itemized t st.tokens (itemsFrom t id) := by
  cases st with
  | declaration d =>
      cases hentry
      obtain ⟨child, hnode, hvalue⟩ := h
      have hnone : itemsFrom t id = [] := by
        rw [itemsFrom_of_node ht hnode (by simp)]
        simp [Node.Kind.isItem, Node.Kind.children, hvalue.itemsFrom_eq ht]
      rw [hnone]
      exact .nil t _
  | labelled heading nested areLabels parts =>
      cases hentry
      obtain ⟨head, ids, hlists, hshown, hlabels⟩ := h
      have hids : itemsFrom t id = ids.flatMap (itemsFrom t) := by
        rw [← itemsFrom_lists ht hlists, ← hlabels.itemsFrom_eq ht, Option.toList_some,
          List.flatMap_singleton]
      rw [tokens, hids]
      refine (Itemized.nil t _).append (Itemized.flatMap hshown ?_)
      intro p i hp hi id hshown
      rw [hshown.itemsFrom_eq ht]
      cases p with
      | item i' =>
          cases hp
          exact .of_item hshown (honLine i hi)
      | directive | bareMarker | stalled | givenUp => cases hp
  | directive | givenUp | skipped => cases hentry

/-! ## What an item works on -/

/-- An operand is written from `place` on, and node `id` shows it.  The node has the line of
the first token. -/
def StartsAt (t : Tree) (ts : List Token) (id : NodeId) (place : Nat) : Prop :=
  ∃ (o : Operand) (first : Token) (more : List Token), o.ShownAt t id ∧
    o.tokens = first :: more ∧ o.tokens <+: ts.drop place ∧ t.line id = first.line

/-- What the item of node `id` works on starts right behind `place`, on the line of the item.
On another line there is no operand, and no data directive.  The name behind a branch is
free to stand there. -/
structure OnItsLine (t : Tree) (ts : List Token) (id : NodeId) (place : Nat) : Prop where
  operand : ∀ mnemonic operand, t.kind id = .instruction mnemonic (some operand) →
    mnemonic.operandClass.staysOnLine = true →
    t.line id = t.line operand ∧ StartsAt t ts operand (place + 1)
  data : ∀ width head, t.kind id = .data width head →
    ∃ item next, t.kind head = .list item next ∧ t.line id = t.line head ∧
      t.line head = t.line item ∧ StartsAt t ts item (place + 1)
  bare : ∀ token next, ts[place]? = some token → ts[place + 1]? = some next →
    next.line ≠ token.line → ∃ mnemonic operand, t.kind id = .instruction mnemonic operand ∧
      (mnemonic.operandClass.staysOnLine = true → operand = none)

theorem Operand.ShownAt.line_eq {o : Operand} (h : o.ShownAt t id) :
    t.line id = o.expression.line := by
  cases o with
  | plain e => exact Expression.ShownAt.line_eq h
  | indexed =>
      obtain ⟨child, hnode, _⟩ := h
      exact congrArg Node.line hnode

theorem StartsAt.of_tokens {o : Operand} (hshown : o.ShownAt t id)
    (htokens : o.tokens <+: ts.drop place) : StartsAt t ts id place := by
  obtain ⟨first, more, heq, hline⟩ := o.exists_tokens_eq
  exact ⟨o, first, more, hshown, heq, htokens, hshown.line_eq.trans hline.symm⟩

/-- The first token of an operand, by its place. -/
theorem StartsAt.line_of_getElem? {token : Token} (h : StartsAt t ts id place)
    (htoken : ts[place]? = some token) : t.line id = token.line := by
  obtain ⟨o, first, more, _, heq, htokens, hline⟩ := h
  rw [heq] at htokens
  rw [getElem?_of_prefix_drop htokens] at htoken
  cases htoken
  exact hline

/-- The operand of an instruction that has one, with the node that shows it. -/
theorem Arguments.ShownAt.exists_operand {c : OperandClass} {a : Arguments c} {operand : NodeId}
    (h : a.ShownAt t (some operand)) (hc : c.staysOnLine = true) :
    ∃ o, a.operand? = some o ∧ a.tokens = o.tokens ∧ o.ShownAt t operand := by
  have optional (o? : Option Operand) (h : Operand.ShownIfAny t o? (some operand)) :
      ∃ o, o? = some o ∧ (o?.map Operand.tokens).getD [] = o.tokens ∧ o.ShownAt t operand := by
    cases o? with
    | none => cases h
    | some o =>
        obtain ⟨_, ⟨⟩, ho⟩ := h
        exact ⟨o, rfl, rfl, ho⟩
  cases a with
  | memory operand => exact optional operand h
  | accumulator operand => exact optional operand h
  | implied | target => cases hc

theorem ItemAt.standsAt (h : ItemAt t ts id place) : StandsAt t ts id place := by
  obtain ⟨i, hshown, _, htokens⟩ := h
  cases i with
  | instruction token mnemonic isMnemonic arguments =>
      obtain ⟨operand, hnode, _⟩ := hshown
      refine ⟨token, getElem?_of_prefix_drop htokens, ?_, congrArg Node.line hnode⟩
      rw [Tree.kind, hnode]
      exact isMnemonic
  | data marker width isMarker =>
      obtain ⟨head, _, hnode, _⟩ := hshown
      refine ⟨marker, getElem?_of_prefix_drop htokens, ?_, congrArg Node.line hnode⟩
      rw [Tree.kind, hnode]
      exact comesFrom_of_markerWidth? isMarker

theorem ItemAt.isItem (h : ItemAt t ts id place) : (t.kind id).isItem = true := by
  obtain ⟨i, hshown, _⟩ := h
  cases i with
  | instruction =>
      obtain ⟨_, hnode, _⟩ := hshown
      rw [Tree.kind, hnode]
      rfl
  | data =>
      obtain ⟨_, _, hnode, _⟩ := hshown
      rw [Tree.kind, hnode]
      rfl

theorem ItemAt.operand_onLine (h : ItemAt t ts id place) {mnemonic : Mnemonic} {operand : NodeId}
    (hkind : t.kind id = .instruction mnemonic (some operand))
    (hclass : mnemonic.operandClass.staysOnLine = true) :
    t.line id = t.line operand ∧ StartsAt t ts operand (place + 1) := by
  obtain ⟨i, hshown, honLine, htokens⟩ := h
  cases i with
  | data =>
      obtain ⟨_, _, hnode, _⟩ := hshown
      rw [Tree.kind, hnode] at hkind
      cases hkind
  | instruction token mnemonic' isMnemonic arguments =>
      obtain ⟨operand', hnode, harguments⟩ := hshown
      rw [Tree.kind, hnode] at hkind
      cases hkind
      obtain ⟨o, hoperand, harguments, ho⟩ := harguments.exists_operand hclass
      have hline : o.expression.line = token.line := by
        apply honLine
        rw [Item.expressions, hoperand]
        rfl
      have hbehind := prefix_drop_succ htokens
      rw [harguments] at hbehind
      refine ⟨?_, .of_tokens ho hbehind⟩
      rw [ho.line_eq, hline]
      exact congrArg Node.line hnode

theorem ItemAt.data_onLine (h : ItemAt t ts id place) {width : DataWidth} {head : NodeId}
    (hkind : t.kind id = .data width head) :
    ∃ item next, t.kind head = .list item next ∧ t.line id = t.line head ∧
      t.line head = t.line item ∧ StartsAt t ts item (place + 1) := by
  obtain ⟨i, hshown, honLine, htokens⟩ := h
  cases i with
  | instruction =>
      obtain ⟨_, hnode, _⟩ := hshown
      rw [Tree.kind, hnode] at hkind
      cases hkind
  | data marker width' isMarker first further trailing =>
      obtain ⟨head', ids, hnode, hlists, hshown⟩ := hshown
      rw [Tree.kind, hnode] at hkind
      cases hkind
      cases hshown with
      | @cons item _ _ _ hfirst _ =>
          obtain ⟨_, next, ⟨⟩, hcell, _⟩ := hlists
          have hline : first.line = marker.line := honLine first rfl
          have hhead : t.line head = t.line item := by
            rw [Tree.line, hcell]
          have hbehind : first.tokens <+: ts.drop (place + 1) := by
            rw [Item.tokens, List.append_assoc, List.cons_append] at htokens
            exact (List.prefix_append _ _).trans (prefix_drop_succ htokens)
          refine ⟨item, next, congrArg Node.kind hcell, ?_, hhead,
            .of_tokens (o := .plain first) hfirst hbehind⟩
          rw [hhead, hfirst.line_eq, hline]
          exact congrArg Node.line hnode

/-- On another line than its next token, an item is an instruction, with nothing to work on
that would have to stand on its line. -/
theorem ItemAt.bare (h : ItemAt t ts id place) {token next : Token}
    (htoken : ts[place]? = some token) (hnext : ts[place + 1]? = some next)
    (hother : next.line ≠ token.line) :
    ∃ mnemonic operand, t.kind id = .instruction mnemonic operand ∧
      (mnemonic.operandClass.staysOnLine = true → operand = none) := by
  have hline : t.line id = token.line := by
    obtain ⟨token', htoken', _, hline⟩ := h.standsAt
    rw [htoken] at htoken'
    cases htoken'
    exact hline
  -- Whatever starts behind the place would bring its line along.
  have hnot {child : NodeId} (hchild : t.line id = t.line child) :
      ¬ StartsAt t ts child (place + 1) := by
    intro hstarts
    rw [hline, hstarts.line_of_getElem? hnext] at hchild
    exact hother hchild.symm
  cases hkind : t.kind id with
  | instruction mnemonic operand =>
      refine ⟨mnemonic, operand, rfl, ?_⟩
      intro hclass
      cases operand with
      | none => rfl
      | some operand =>
          obtain ⟨hsame, hstarts⟩ := h.operand_onLine hkind hclass
          exact absurd hstarts (hnot hsame)
  | data width head =>
      obtain ⟨item, next', _, hhead, hitem, hstarts⟩ := h.data_onLine hkind
      exact absurd hstarts (hnot (hhead.trans hitem))
  | root | list | decl | label | name | const | wrap | sum =>
      have hitem := h.isItem
      rw [hkind] at hitem
      cases hitem

theorem ItemAt.onItsLine (h : ItemAt t ts id place) : OnItsLine t ts id place where
  operand _ _ := h.operand_onLine
  data _ _ := h.data_onLine
  bare _ _ := h.bare

/-- The items among the tokens of an account are those of the nodes that show it. -/
theorem itemized_account (ht : t.Descends) {account : List Statement} {ids : List NodeId}
    (h : List.Forall₂ (fun id e => Entry.ShownAt t e id) ids (account.filterMap Statement.entry?))
    (honLine : ∀ entry ∈ account.filterMap Statement.entry?, ∀ i ∈ entry.items, i.OnLine) :
    Itemized t (account.flatMap Statement.tokens) (ids.flatMap (itemsFrom t)) :=
  .flatMap h fun _ _ hentry hmem _ hshown =>
    Statement.itemized ht hentry hshown (honLine _ hmem)

end Syntax

namespace Parser

open Syntax

variable {s : State} {limit : Nat}

/-! ## In front of another line -/

theorem onLineOf_bare {token : Token} (hline : s.current.line ≠ token.line) :
    Ends (operandOf.onLineOf limit token) s (fun answer s' => answer = none ∧ s' = s) Never := by
  unfold operandOf.onLineOf
  rw [ends_bind, ends_current, if_neg hline]
  exact ⟨rfl, rfl⟩

theorem operandOf_bare {token : Token} {c : OperandClass} (hclass : c.staysOnLine = true)
    (hline : s.current.line ≠ token.line) :
    Ends (operandOf limit token c) s
      (fun answer s' => answer = none ∧
        s.Reads s' [] (if c = .memory then [.noOperand token] else []))
      Never := by
  cases c with
  | implied | target => cases hclass
  | memory =>
      simp only [operandOf, ends_bind]
      refine (onLineOf_bare hline).imp_post ?_
      rintro _ _ ⟨rfl, rfl⟩
      simp only [Option.isNone_none, if_true, ends_bind, ends_diagnose, ends_pure]
      exact ⟨trivial, State.reads_diagnose _ (.noOperand token)⟩
  | accumulator =>
      refine (onLineOf_bare hline).imp_post ?_
      rintro _ _ ⟨rfl, rfl⟩
      exact ⟨rfl, .refl _⟩

/-- A mnemonic with nothing on its line makes an instruction by itself. -/
theorem instruction_bare (limit : Nat) {m : Mnemonic} (hm : s.current.kind = .instruction m)
    (hclass : m.operandClass.staysOnLine = true)
    (hline : s.advance.current.line ≠ s.current.line) :
    Ends (instruction limit m) s
      (fun answer s' => ∃ id, answer = some id ∧
        s'.tree.node id = ⟨.instruction m none, s.current.line⟩ ∧
        s.Reads s' [s.current]
          (if m.operandClass = .memory then [.noOperand s.current] else []))
      Never := by
  have hpassed := State.reads_advance (s := s) (by rw [hm]; simp)
  unfold instruction
  simp only [ends_bind, ends_current, ends_advance, ends_add, ends_pure]
  refine (operandOf_bare hclass hline).imp_post ?_
  rintro _ s' ⟨rfl, hreads⟩
  have hadd := State.reads_add (s := s') (k := .instruction m none) s.current.line
    (by simp [Node.Kind.children])
  have hall := hpassed.trans (hreads.trans hadd)
  simp only [List.append_nil, List.nil_append] at hall
  exact ⟨_, rfl, State.node_add .., hall⟩

/-- A marker with nothing on its line leaves no node. -/
theorem data_bare (limit : Nat) (width : DataWidth)
    (hline : s.advance.current.line ≠ s.current.line) :
    Ends (data limit width) s
      (fun answer s' => answer = none ∧ s' = s.advance.diagnose (.noData s.current)) Never := by
  unfold data
  rw [ends_bind, ends_current, ends_bind, ends_advance, ends_bind, ends_current, if_neg hline]
  exact ⟨rfl, rfl⟩

/-- A step through a block that passes one token.  The program reports problems of these kinds
about it, at its place: in the midst of all others they stand between what was reported before the
step and what is reported behind it, and if the tokens stand in source order, nothing else is
reported at this place. -/
def ReportsAt (limit : Nat) (ts : List Token) (s s' : State) (kinds : List Diagnostic.Kind) :
    Prop :=
  ∃ reported, s.Reads s' [s.current] reported ∧ reported.map Diagnostic.kind = kinds ∧
    (∀ d ∈ reported, d.position = s.current.position) ∧
    s'.diagnostics.toList <+: (program limit ts).diagnostics ∧
    ((TokenStream.completed ts).Pairwise (fun t u => t.position < u.position) →
      (program limit ts).diagnostics.filter (fun d => d.position == s.current.position) = reported)

theorem ReportsAt.kinds_eq {ts : List Token} {s s' : State} {kinds : List Diagnostic.Kind}
    (h : ReportsAt limit ts s s' kinds)
    (increasing : (TokenStream.completed ts).Pairwise fun t u => t.position < u.position) :
    ((program limit ts).diagnostics.filter fun d => d.position == s.current.position).map
      Diagnostic.kind = kinds := by
  obtain ⟨reported, _, hkinds, _, _, hexact⟩ := h
  rw [hexact increasing, hkinds]

/-- Where the tokens stand in source order, so do those in front of the first end, and this end. -/
theorem places_of_completed {ts : List Token}
    (h : (TokenStream.completed ts).Pairwise fun t u => t.position < u.position) :
    (State.start ts).places.Pairwise (· < ·) := by
  obtain ⟨front, e, behind, hall, hfront, he⟩ :=
    TokenStream.exists_eq_append_eof (TokenStream.exists_eof_completed ts)
  have hstream : (State.start ts).stream = ⟨front, e.position⟩ := by
    show TokenStream.ofTokens ts = _
    rw [← TokenStream.ofTokens_completed, hall, TokenStream.ofTokens_append_eof hfront he]
  have hplaces : (State.start ts).places = (front ++ [e]).map Token.position := by
    rw [State.places, hstream, List.map_append]
    rfl
  rw [hplaces, List.pairwise_map]
  refine h.sublist ?_
  rw [hall]
  exact (List.Sublist.refl front).append (List.singleton_sublist.2 List.mem_cons_self)

theorem AtItem.reportsAt {ts : List Token} {x y : List NodeId × State}
    {reported : List Diagnostic} (h : AtItem limit ts x) (hround : blockRound limit x = .inl y)
    (hreads : x.2.Reads y.2 [x.2.current] reported)
    (hreported : ∀ d ∈ reported, d.position = x.2.current.position) :
    ReportsAt limit ts x.2 y.2 (reported.map Diagnostic.kind) :=
  ⟨reported, hreads, rfl, hreported, (h.next hround).diagnostics_stay, fun increasing =>
    h.filter_position (places_of_completed increasing) hround hreads (List.cons_ne_nil _ _)
      hreported⟩

/-- Among the items of a block, a mnemonic with nothing on its line is one step. -/
theorem AtItem.bare_instruction {ts : List Token} {x : List NodeId × State} {m : Mnemonic}
    (h : AtItem limit ts x) (hm : x.2.current.kind = .instruction m)
    (hclass : m.operandClass.staysOnLine = true)
    (hline : x.2.advance.current.line ≠ x.2.current.line) :
    ∃ id s', AtItem limit ts (id :: x.1, s') ∧
      s'.tree.node id = ⟨.instruction m none, x.2.current.line⟩ ∧
      ReportsAt limit ts x.2 s' (if m.operandClass = .memory then [.missingOperand] else []) := by
  obtain ⟨_, s', hrun, id, rfl, hnode, hreads⟩ :=
    (instruction_bare limit hm hclass hline).exists_of_never
  have hitem : item? limit x.2.current.kind = some (instruction limit m) := by
    rw [hm]
    rfl
  have hround : blockRound limit x = .inl (id :: x.1, s') := blockRound_of_item hitem hrun
  refine ⟨id, s', h.next hround, hnode, ?_⟩
  split at hreads
  next hmemory =>
    rw [if_pos hmemory]
    exact h.reportsAt hround hreads fun d hd => by rw [List.mem_singleton.1 hd]; rfl
  next hother =>
    rw [if_neg hother]
    exact h.reportsAt hround hreads (List.forall_mem_nil _)

/-- So is a marker with nothing on its line, and it leaves no trace in the tree. -/
theorem AtItem.bare_data {ts : List Token} {x : List NodeId × State} {width : DataWidth}
    (h : AtItem limit ts x) (hwidth : markerWidth? x.2.current.kind = some width)
    (hline : x.2.advance.current.line ≠ x.2.current.line) :
    ∃ s', AtItem limit ts (x.1, s') ∧ s'.tree = x.2.tree ∧
      ReportsAt limit ts x.2 s' [.missingOperand] := by
  obtain ⟨_, s', hrun, rfl, hs'⟩ := (data_bare limit width hline).exists_of_never
  have hround : blockRound limit x = .inl (x.1, s') :=
    blockRound_of_item (item?_of_markerWidth? hwidth) hrun
  have hpassed := State.reads_advance (ne_eof_of_eq_some hwidth rfl)
  have hreads := hpassed.trans (State.reads_diagnose x.2.advance (.noData x.2.current))
  rw [← hs'] at hreads
  have htree : s'.tree = x.2.tree := by
    rw [hs']
    rfl
  exact ⟨s', h.next hround, htree,
    h.reportsAt hround hreads fun d hd => by rw [List.mem_singleton.1 hd]; rfl⟩

/-! ## Programs -/

/-- The items of a program and their places, in order. -/
theorem program_itemized (limit : Nat) (ts : List Token) :
    let tree := (program limit ts).tree
    Itemized tree (ts.takeWhile TokenStream.isProper)
      (tree.walk.filter fun id => (tree.kind id).isItem) := by
  intro tree
  obtain ⟨_, s', account, _, _, hprogram, haccount, hahead⟩ := program_accounts limit ts
  have htree : tree = s'.tree := congrArg Outcome.tree hprogram
  have hroot : (s'.tree.kind 0).isItem = false := by
    rw [haccount.shows.rooted.kind_eq]
    rfl
  rw [htree, Tree.walk_eq, List.filter_cons_of_neg (by rw [hroot]; exact Bool.false_ne_true),
    List.filter_flatMap, haccount.tokens_eq, hahead, List.append_nil]
  exact itemized_account haccount.shows.descends haccount.shows.shown haccount.onLine

/-- Each item of a program is on its line, also the last one, behind which stands the end. -/
theorem exists_onItsLine (limit : Nat) (ts : List Token) :
    let tree := (program limit ts).tree
    let us := TokenStream.completed ts
    ∃ places : List Nat, places.Pairwise (· < ·) ∧
      (∀ place ∈ places, place < (ts.takeWhile TokenStream.isProper).length) ∧
      List.Forall₂ (fun id place => StandsAt tree us id place ∧ OnItsLine tree us id place)
        (tree.walk.filter fun id => (tree.kind id).isItem) places := by
  intro tree us
  obtain ⟨places, hlt, hbound, hitems⟩ := program_itemized limit ts
  refine ⟨places, hlt, hbound, hitems.imp ?_⟩
  intro id place hitem
  have hproper : us.takeWhile TokenStream.isProper = ts.takeWhile TokenStream.isProper :=
    congrArg TokenStream.ahead (TokenStream.ofTokens_completed ts)
  have hall := hitem.append_right (us.dropWhile TokenStream.isProper)
  rw [← hproper, List.takeWhile_append_dropWhile] at hall
  exact ⟨hall.standsAt, hall.onItsLine⟩

/-- Operands and data stay on their line, except for the name behind a branch.  The
instructions and data directives that the root leads to, each listed once, stand at places in
front of the first end, in order.  What one of them works on is on its line, starts right
behind its place, and its first token gives the line to the nodes in between.  If the next
token is on another line, there is nothing to work on.

In a code block a mnemonic or a marker with nothing on its line is passed alone, whatever was
reported in front of it.  The one problem that the program reports about it is a missing operand,
there; about a mnemonic whose operand may be left out it reports nothing. -/
theorem program_onLine (limit : Nat) (ts : List Token) :
    let tree := (program limit ts).tree
    let us := TokenStream.completed ts
    (∀ id, id ∈ tree.walk ↔ tree.Reaches id) ∧ tree.walk.Nodup ∧
      (∃ places : List Nat, places.Pairwise (· < ·) ∧
        (∀ place ∈ places, place < (ts.takeWhile TokenStream.isProper).length) ∧
        List.Forall₂ (fun id place => StandsAt tree us id place ∧ OnItsLine tree us id place)
          (tree.walk.filter fun id => (tree.kind id).isItem) places) ∧
      ∀ x, AtItem limit ts x → x.2.advance.current.line ≠ x.2.current.line →
        (∀ m, x.2.current.kind = .instruction m → m.operandClass.staysOnLine = true →
          ∃ id s', AtItem limit ts (id :: x.1, s') ∧
            s'.tree.node id = ⟨.instruction m none, x.2.current.line⟩ ∧
            ReportsAt limit ts x.2 s'
              (if m.operandClass = .memory then [.missingOperand] else [])) ∧
        (∀ width, markerWidth? x.2.current.kind = some width →
          ∃ s', AtItem limit ts (x.1, s') ∧ s'.tree = x.2.tree ∧
            ReportsAt limit ts x.2 s' [.missingOperand]) := by
  intro tree us
  have hunshared := program_unshared limit ts
  exact ⟨fun _ => hunshared.mem_walk_iff, hunshared.nodup_walk, exists_onItsLine limit ts,
    fun x hx hline => ⟨fun m hm hclass => hx.bare_instruction hm hclass hline,
      fun width hwidth => hx.bare_data hwidth hline⟩⟩

/-- An operand that ends on the next line belongs to the mnemonic where it starts.  Of the
items behind it, one has data, and the others have nothing on their lines; two of these lack
something. -/
theorem program_onLine_indexed :
    let ts : List Token :=
      [ ⟨.label, "a:", ⟨1, 1⟩⟩
      , ⟨.instruction .lda, "lda", ⟨2, 3⟩⟩, ⟨.parenLeft, "(", ⟨2, 7⟩⟩, ⟨.name, "p", ⟨2, 8⟩⟩
      , ⟨.parenRight, ")", ⟨3, 1⟩⟩, ⟨.comma, ",", ⟨3, 2⟩⟩, ⟨.yReg, "y", ⟨3, 3⟩⟩
      , ⟨.dataWords, ".dw", ⟨4, 3⟩⟩, ⟨.decConst, "1", ⟨4, 7⟩⟩
      , ⟨.instruction .sta, "sta", ⟨5, 3⟩⟩, ⟨.dataBytes, ".db", ⟨6, 3⟩⟩
      , ⟨.instruction .asl, "asl", ⟨7, 3⟩⟩, ⟨.eof, "", ⟨8, 1⟩⟩ ]
    let tree := (program defaultLimit ts).tree
    let diagnostics := (program defaultLimit ts).diagnostics
    let us := TokenStream.completed ts
    (tree.walk.filter fun id => (tree.kind id).isItem) = [4, 7, 8, 9] ∧
      (∃ place, StandsAt tree us 4 place ∧ tree.line 4 = tree.line 3 ∧
        StartsAt tree us 3 (place + 1)) ∧
      (∃ place item next, StandsAt tree us 7 place ∧ tree.kind 6 = .list item next ∧
        tree.line 7 = tree.line 6 ∧ tree.line 6 = tree.line item ∧
        StartsAt tree us item (place + 1)) ∧
      (diagnostics.filter fun d => d.position == ⟨5, 3⟩).map Diagnostic.kind =
        [.missingOperand] ∧
      (diagnostics.filter fun d => d.position == ⟨6, 3⟩).map Diagnostic.kind =
        [.missingOperand] ∧
      (diagnostics.filter fun d => d.position == ⟨7, 3⟩) = [] ∧
      diagnostics.map (fun d => (d.kind, d.position)) =
        [(.missingOperand, ⟨5, 3⟩), (.missingOperand, ⟨6, 3⟩)] := by
  intro ts tree diagnostics us
  have hitems : (tree.walk.filter fun id => (tree.kind id).isItem) = [4, 7, 8, 9] := by
    decide +kernel
  have hlda : tree.kind 4 = .instruction .lda (some 3) := by decide +kernel
  have hdata : tree.kind 7 = .data .word 6 := by decide +kernel
  have increasing : us.Pairwise fun t u => t.position < u.position := by decide
  obtain ⟨_, _, ⟨places, _, _, hplaces⟩, hbare⟩ := program_onLine defaultLimit ts
  have hplaces : List.Forall₂ (fun id place => StandsAt tree us id place ∧
      OnItsLine tree us id place) [4, 7, 8, 9] places := hitems ▸ hplaces
  -- The steps through the block, up to the instruction on line 7.
  let step (x : List NodeId × State) : List NodeId × State :=
    (blockRound defaultLimit x).elim id id
  let onLine2 : List NodeId × State := ([], (State.start ts).advance.pastLabels)
  let onLine5 := step (step onLine2)
  have at2 : AtItem defaultLimit ts onLine2 := .first (.start _ ts) (.label rfl)
  have at4 : AtItem defaultLimit ts (step onLine2) := at2.next (by decide +kernel)
  have at5 : AtItem defaultLimit ts onLine5 := at4.next (by decide +kernel)
  have at6 : AtItem defaultLimit ts (step onLine5) := at5.next (by decide +kernel)
  have at7 : AtItem defaultLimit ts (step (step onLine5)) := at6.next (by decide +kernel)
  obtain ⟨_, _, _, _, hsta⟩ := (hbare _ at5 (by decide +kernel)).1 .sta (by decide +kernel) rfl
  obtain ⟨_, _, _, hdb⟩ := (hbare _ at6 (by decide +kernel)).2 .byte (by decide +kernel)
  obtain ⟨_, _, _, _, hasl⟩ := (hbare _ at7 (by decide +kernel)).1 .asl (by decide +kernel) rfl
  have hsta := hsta.kinds_eq increasing
  have hdb := hdb.kinds_eq increasing
  have hasl := hasl.kinds_eq increasing
  rw [show onLine5.2.current.position = ⟨5, 3⟩ by decide +kernel] at hsta
  rw [show (step onLine5).2.current.position = ⟨6, 3⟩ by decide +kernel] at hdb
  rw [show (step (step onLine5)).2.current.position = ⟨7, 3⟩ by decide +kernel] at hasl
  cases hplaces with
  | @cons _ first _ _ hfirst hmore =>
    cases hmore with
    | @cons _ second _ _ hsecond _ =>
      obtain ⟨item, next, hitem, hline⟩ := hsecond.2.data .word 6 hdata
      exact ⟨hitems, ⟨first, hfirst.1, hfirst.2.operand .lda 3 hlda rfl⟩,
        ⟨second, item, next, hsecond.1, hitem, hline⟩, hsta, hdb,
        List.map_eq_nil_iff.1 hasl, by decide +kernel⟩

end Parser

end Asm6502
