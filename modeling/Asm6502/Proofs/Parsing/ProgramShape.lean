import Asm6502.Proofs.Parsing.ProgramSoundness
import Asm6502.Proofs.Tree.Shape

/-!
# Every tree has the shape of a program

The tree of a program is used whatever was reported about it, so what may stand
where in it must not depend on the source being right.  It does not: the items of
the root show phrases of the concrete syntax (see `program_selects`), and a node
that shows a phrase has the shape of that phrase.

What the canonical grouping says of a phrase is what the shape of a sum asks: an
expression without an open end has no sign at its end.

## Main results

* `program_isProgram` — the shape of the tree of any list of tokens.
-/

namespace Asm6502

namespace Syntax

variable {t : Tree} {id : NodeId}

/-! ## Expressions -/

theorem isSign_of_signWrapper? {k : Token.Kind} {w : Wrapper} (h : signWrapper? k = some w) :
    w.isSign = true := by
  cases k <;> cases h <;> rfl

theorem isIndex_of_isSign {w : Wrapper} (h : w.isSign = true) : w.isIndex = false := by
  cases w <;> first | rfl | cases h

theorem isIndex_of_indexWrapper? {k : Token.Kind} {w : Wrapper}
    (h : Parser.indexWrapper? k = some w) : w.isIndex = true := by
  cases k <;> cases h <;> rfl

namespace Expression

/-- A sum is shown as a sum. -/
theorem ShownAt.isSum {e : Expression} (h : e.ShownAt t id) (hsum : t.IsSum id) :
    e.isSum = true := by
  obtain ⟨operator, l, r, hk⟩ := hsum
  rw [Tree.kind] at hk
  cases e with
  | sum => rfl
  | name | const =>
      rw [h] at hk
      cases hk
  | signed | parens =>
      obtain ⟨child, hnode, _⟩ := h
      rw [hnode] at hk
      cases hk

/-- What is shown behind a sign has an open end. -/
theorem ShownAt.isOpen {e : Expression} (h : e.ShownAt t id) (hsigned : t.IsSigned id) :
    e.isOpen = true := by
  obtain ⟨wrapper, body, hk, hsign⟩ := hsigned
  rw [Tree.kind] at hk
  cases e with
  | signed => rfl
  | name | const =>
      rw [h] at hk
      cases hk
  | parens =>
      obtain ⟨child, hnode, _⟩ := h
      rw [hnode] at hk
      cases hk
      cases hsign
  | sum =>
      obtain ⟨l, r, hnode, _⟩ := h
      rw [hnode] at hk
      cases hk

/-- So does a sum that ends behind a sign. -/
theorem ShownAt.isOpen_of_sum {e : Expression} {operator : SumOperator} {l r : NodeId}
    (h : e.ShownAt t id) (hk : t.kind id = .sum operator l r) (hsigned : t.IsSigned r) :
    e.isOpen = true := by
  have hsum : e.isSum = true := h.isSum ⟨operator, l, r, hk⟩
  rw [Tree.kind] at hk
  cases e with
  | sum =>
      obtain ⟨l', r', hnode, _, hright⟩ := h
      rw [hnode] at hk
      cases hk
      exact hright.isOpen hsigned
  | name | const | signed | parens => cases hsum

theorem ShownAt.isExpression {e : Expression} (h : e.ShownAt t id) (hc : e.Canonical) :
    t.IsExpression id := by
  induction e generalizing id with
  | name token =>
      have hk : t.kind id = .name token.text := by rw [Tree.kind, h]
      exact .name hk
  | const token =>
      have hk : t.kind id = .const token.text := by rw [Tree.kind, h]
      exact .const hk
  | signed sign wrapper isSign body ih =>
      obtain ⟨child, hnode, hbody⟩ := h
      have hplain := isIndex_of_isSign (isSign_of_signWrapper? isSign)
      exact .wrap (congrArg Node.kind hnode) hplain (ih hbody hc)
  | parens opening isOpening body closing isClosing ih =>
      obtain ⟨child, hnode, hbody⟩ := h
      exact .wrap (congrArg Node.kind hnode) rfl (ih hbody hc)
  | sum left sign operator isSign right ihLeft ihRight =>
      obtain ⟨l, r, hnode, hleft, hright⟩ := h
      obtain ⟨hcl, hcr, hclosed, hgroups⟩ := hc
      refine .sum (congrArg Node.kind hnode) (ihLeft hleft hcl) (ihRight hright hcr) ?_ ?_ ?_
      · intro hsum
        rw [hright.isSum hsum] at hgroups
        cases hgroups
      · intro hsigned
        rw [hleft.isOpen hsigned] at hclosed
        cases hclosed
      · intro operator' l' r' hk hsigned
        rw [hleft.isOpen_of_sum hk hsigned] at hclosed
        cases hclosed

end Expression

/-! ## Items -/

theorem Operand.ShownAt.isOperand {o : Operand} (h : o.ShownAt t id)
    (hc : o.expression.Canonical) : t.IsOperand id := by
  cases o with
  | plain e => exact .inl (Expression.ShownAt.isExpression h hc)
  | indexed e comma isComma register wrapper isRegister =>
      obtain ⟨child, hnode, he⟩ := h
      exact .inr ⟨wrapper, child, congrArg Node.kind hnode, isIndex_of_indexWrapper? isRegister,
        he.isExpression hc⟩

theorem Operand.ShownIfAny.isOperand {o? : Option Operand} {id? : Option NodeId}
    (h : ShownIfAny t o? id?) (hc : ∀ o ∈ o?, o.expression.Canonical) :
    ∀ id, id? = some id → t.IsOperand id := by
  intro id hid
  cases o? with
  | none =>
      rw [hid] at h
      cases h
  | some o =>
      obtain ⟨id', hid', ho⟩ := h
      rw [hid] at hid'
      cases hid'
      exact ho.isOperand (hc o rfl)

theorem Arguments.ShownAt.isArgument {c : OperandClass} {a : Arguments c} {id? : Option NodeId}
    (h : a.ShownAt t id?) (hc : ∀ o ∈ a.operand?, o.expression.Canonical) :
    t.IsArgument c id? := by
  cases a with
  | implied => exact h
  | memory => exact Operand.ShownIfAny.isOperand h hc
  | accumulator => exact Operand.ShownIfAny.isOperand h hc
  | target token =>
      obtain ⟨id, hid, hnode⟩ := h
      exact ⟨id, token.text, hid, congrArg Node.kind hnode⟩

/-- The cells that lead through shown things are a list of what shows them. -/
theorem isListOf_of_lists {α : Type} {R : NodeId → α → Prop} {p : NodeId → Prop}
    {head : NodeId} {ids : List NodeId} {xs : List α} (hlists : t.Lists (some head) ids)
    (hshown : List.Forall₂ R ids xs) (hp : ∀ id, ∀ x ∈ xs, R id x → p id) :
    t.IsListOf p head := by
  induction hshown generalizing head with
  | nil => cases hlists
  | @cons id x ids xs hx _ ih =>
      obtain ⟨cell, next, hhead, hnode, hmore⟩ := hlists
      cases hhead
      have hitem : p id := hp id x List.mem_cons_self hx
      cases next with
      | none => exact .last (congrArg Node.kind hnode) hitem
      | some next =>
          refine .more (congrArg Node.kind hnode) hitem (ih hmore ?_)
          intro id' y hy hR
          exact hp id' y (List.mem_cons_of_mem _ hy) hR

theorem Item.ShownAt.isItem {i : Item} (h : i.ShownAt t id)
    (hc : ∀ e ∈ i.expressions, e.Canonical) : t.IsItem id := by
  cases i with
  | instruction token mnemonic isMnemonic arguments =>
      obtain ⟨operand, hnode, harguments⟩ := h
      refine .inl ⟨mnemonic, operand, congrArg Node.kind hnode, harguments.isArgument ?_⟩
      intro o ho
      apply hc
      rw [Item.expressions, Option.mem_toList, Option.map_eq_some_iff]
      exact ⟨o, ho, rfl⟩
  | data marker width isMarker first further trailing =>
      obtain ⟨head, ids, hnode, hlists, hshown⟩ := h
      refine .inr ⟨width, head, congrArg Node.kind hnode, isListOf_of_lists hlists hshown ?_⟩
      intro id e he hshown'
      exact hshown'.isExpression (hc e he)

/-! ## Entries -/

theorem LabelsShownAt.isLabel {child : Option NodeId} {labels : List Token}
    (h : LabelsShownAt t child labels (some id)) (hne : labels ≠ [])
    (hchild : ∀ head, child = some head → t.IsListOf t.IsItem head) : t.IsLabel id := by
  induction labels generalizing id with
  | nil => exact absurd rfl hne
  | cons token more ih =>
      obtain ⟨id', _, next, hid, _, hnode, hmore⟩ := h
      cases hid
      have hk := congrArg Node.kind hnode
      cases next with
      | none => exact .bare hk
      | some next =>
          cases more with
          | nil => exact .block hk (hchild next hmore.symm)
          | cons => exact .outer hk (ih hmore (by simp))

theorem Section.ShownAt.isLabel {s : Section} (h : s.ShownAt t id)
    (hc : ∀ i ∈ s.items, ∀ e ∈ i.expressions, e.Canonical) : t.IsLabel id := by
  obtain ⟨head, ids, hlists, hshown, hlabels⟩ := h
  refine hlabels.isLabel (by simp) ?_
  rintro head rfl
  refine isListOf_of_lists hlists hshown ?_
  intro id i hi hshown'
  exact hshown'.isItem (hc i hi)

theorem Entry.ShownAt.isLabel_or_isDeclaration {entry : Entry} (h : entry.ShownAt t id)
    (hc : ∀ e ∈ entry.expressions, e.Canonical) : t.IsLabel id ∨ t.IsDeclaration id := by
  cases entry with
  | labelled s =>
      left
      apply Section.ShownAt.isLabel h
      intro i hi e he
      exact hc e (List.mem_flatMap.2 ⟨i, hi, he⟩)
  | declaration d =>
      right
      obtain ⟨child, hnode, hvalue⟩ := h
      exact ⟨d.name.text, child, congrArg Node.kind hnode,
        hvalue.isExpression (hc d.value (by simp [Entry.expressions]))⟩

end Syntax

namespace Parser

open Syntax

/-- Whatever the tokens and the nesting limit are, the tree has the shape of a
program, and the root leads to indexed expressions from instructions only. -/
theorem program_isProgram (limit : Nat) (ts : List Token) :
    (program limit ts).tree.IsProgram ∧
      ∀ owner, (program limit ts).tree.Reaches owner →
        ∀ id ∈ (program limit ts).tree.children owner, (program limit ts).tree.IsIndexed id →
          ∃ m, (program limit ts).tree.kind owner = .instruction m (some id) := by
  obtain ⟨entries, hrooted, hshown, _, hcanonical⟩ := program_selects limit ts
  have hboth := ((List.forall₂_and_left (R := flip _) ..).2 ⟨hcanonical, hshown.flip⟩).flip
  have hitems := (List.forall₂_and_left ..).1
    (hboth.imp fun _ _ h => ⟨Entry.ShownAt.isLabel_or_isDeclaration h.2 h.1, h.2⟩)
  have hprogram : (program limit ts).tree.IsProgram := ⟨hrooted.kind_eq, hitems.1⟩
  refine ⟨hprogram, ?_⟩
  intro owner howner id hid hindexed
  exact Tree.instruction_of_isIndexed hprogram howner hid hindexed

end Parser

end Asm6502
