import Asm6502.Tree.Basic
import Mathlib.Logic.Relation

/-!
# The shape of a syntax tree

Nodes refer to each other by number, so nothing in the type of a tree keeps an
index out of a data list or a label out of an expression.  The predicates below say
which nodes may stand where: from the root over labels, blocks and items down to
expressions.  Each of them speaks of a node with all that it owns.

A number that has not been given out reads as a root (see `Tree.node`).  No
predicate here admits a root, so what they speak of is there.

Two rules concern sums.  They group to the left, so what stands on the right of a
sum is none itself.  And a sign in front of an expression reaches as far as it can,
so an expression behind a sign, alone or at the end of a sum, is never on the left
of another sum.

## Main results

* `isPart_of_reaches` — a tree with the shape of a program has nothing else in it.
* `instruction_of_isIndexed` — only instructions own indexed expressions.
-/

namespace Asm6502

/-- A sign in front. -/
def Wrapper.isSign : Wrapper → Bool
  | .immediate | .loByte | .hiByte => true
  | .indirect | .indexedX | .indexedY => false

/-- An index register behind. -/
def Wrapper.isIndex : Wrapper → Bool
  | .indexedX | .indexedY => true
  | .immediate | .indirect | .loByte | .hiByte => false

namespace Tree

variable {t : Tree} {id child : NodeId}

/-! ## Expressions and operands -/

/-- A sum or a difference. -/
def IsSum (t : Tree) (id : NodeId) : Prop := ∃ operator l r, t.kind id = .sum operator l r

/-- Something behind a sign. -/
def IsSigned (t : Tree) (id : NodeId) : Prop :=
  ∃ wrapper child, t.kind id = .wrap wrapper child ∧ wrapper.isSign = true

/-- Something with an index register behind. -/
def IsIndexed (t : Tree) (id : NodeId) : Prop :=
  ∃ wrapper child, t.kind id = .wrap wrapper child ∧ wrapper.isIndex = true

/-- A node that is an expression. -/
inductive IsExpression (t : Tree) : NodeId → Prop where
  | name {id : NodeId} {text : String} (hk : t.kind id = .name text) : t.IsExpression id
  | const {id : NodeId} {text : String} (hk : t.kind id = .const text) : t.IsExpression id
  | wrap {id child : NodeId} {wrapper : Wrapper} (hk : t.kind id = .wrap wrapper child)
      (plain : wrapper.isIndex = false) (hchild : t.IsExpression child) : t.IsExpression id
  | sum {id l r : NodeId} {operator : SumOperator} (hk : t.kind id = .sum operator l r)
      (hl : t.IsExpression l) (hr : t.IsExpression r)
      (groups : ¬ t.IsSum r)
      (unsigned : ¬ t.IsSigned l)
      (ends : ∀ operator' l' r', t.kind l = .sum operator' l' r' → ¬ t.IsSigned r') :
      t.IsExpression id

/-- A node that is an expression, optionally indexed. -/
def IsOperand (t : Tree) (id : NodeId) : Prop :=
  t.IsExpression id ∨
    ∃ wrapper child, t.kind id = .wrap wrapper child ∧ wrapper.isIndex = true ∧
      t.IsExpression child

/-- What an instruction of the class may own. -/
def IsArgument (t : Tree) : OperandClass → Option NodeId → Prop
  | .implied, operand => operand = none
  | .target, operand => ∃ id text, operand = some id ∧ t.kind id = .name text
  | .memory, operand | .accumulator, operand => ∀ id, operand = some id → t.IsOperand id

/-! ## Lists, items and labels -/

/-- The first cell of a list that has at least one item, and only items with `p`. -/
inductive IsListOf (t : Tree) (p : NodeId → Prop) : NodeId → Prop where
  | last {cell item : NodeId} (hk : t.kind cell = .list item none) (hitem : p item) :
      t.IsListOf p cell
  | more {cell item next : NodeId} (hk : t.kind cell = .list item (some next)) (hitem : p item)
      (hnext : t.IsListOf p next) : t.IsListOf p cell

/-- A node that is an item of a code block. -/
def IsItem (t : Tree) (id : NodeId) : Prop :=
  (∃ m operand, t.kind id = .instruction m operand ∧ t.IsArgument m.operandClass operand) ∨
    ∃ width head, t.kind id = .data width head ∧ t.IsListOf t.IsExpression head

/-- A label in front of nothing, of another label, or of a code block. -/
inductive IsLabel (t : Tree) : NodeId → Prop where
  | bare {id : NodeId} {name : String} (hk : t.kind id = .label name none .unclassified) :
      t.IsLabel id
  | outer {id child : NodeId} {name : String}
      (hk : t.kind id = .label name (some child) .unclassified) (hchild : t.IsLabel child) :
      t.IsLabel id
  | block {id head : NodeId} {name : String}
      (hk : t.kind id = .label name (some head) .unclassified)
      (hhead : t.IsListOf t.IsItem head) : t.IsLabel id

/-- A node that is a declaration. -/
def IsDeclaration (t : Tree) (id : NodeId) : Prop :=
  ∃ name value, t.kind id = .decl name value ∧ t.IsExpression value

/-- A tree of a program: node zero is a root of labels and declarations. -/
structure IsProgram (t : Tree) : Prop where
  kind_eq : t.kind 0 = .root t.items
  items : ∀ id ∈ t.items, t.IsLabel id ∨ t.IsDeclaration id

/-! ## What a tree of a program has in it -/

/-- The nodes that the root leads to, itself included. -/
def Reaches (t : Tree) : NodeId → Prop :=
  Relation.ReflTransGen (fun owner id => id ∈ t.children owner) 0

/-- The parts below the root of a program, other than indexed operands. -/
inductive IsPart (t : Tree) : NodeId → Prop where
  | expression {id : NodeId} (h : t.IsExpression id) : t.IsPart id
  | values {id : NodeId} (h : t.IsListOf t.IsExpression id) : t.IsPart id
  | item {id : NodeId} (h : t.IsItem id) : t.IsPart id
  | block {id : NodeId} (h : t.IsListOf t.IsItem id) : t.IsPart id
  | label {id : NodeId} (h : t.IsLabel id) : t.IsPart id
  | declaration {id : NodeId} (h : t.IsDeclaration id) : t.IsPart id

theorem mem_children {k : Node.Kind} (hk : t.kind id = k) :
    child ∈ t.children id ↔ child ∈ k.children := by
  rw [children, hk]

theorem eq_of_mem_children {k : Node.Kind} {only : NodeId} (hk : t.kind id = k)
    (honly : k.children = [only]) (hchild : child ∈ t.children id) : child = only := by
  rw [mem_children hk, honly] at hchild
  exact List.mem_singleton.1 hchild

theorem IsExpression.of_mem_children (h : t.IsExpression id) (hchild : child ∈ t.children id) :
    t.IsExpression child := by
  cases h with
  | name hk | const hk =>
      rw [mem_children hk] at hchild
      cases hchild
  | wrap hk _ hbody =>
      rw [eq_of_mem_children hk rfl hchild]
      exact hbody
  | sum hk hl hr =>
      rw [mem_children hk] at hchild
      rcases List.mem_cons.1 hchild with rfl | hchild
      · exact hl
      · rw [List.mem_singleton.1 hchild]
        exact hr

theorem IsListOf.of_mem_children {p : NodeId → Prop} (h : t.IsListOf p id)
    (hchild : child ∈ t.children id) : p child ∨ t.IsListOf p child := by
  cases h with
  | last hk hitem =>
      rw [eq_of_mem_children hk rfl hchild]
      exact .inl hitem
  | more hk hitem hnext =>
      rw [mem_children hk] at hchild
      rcases List.mem_cons.1 hchild with rfl | hchild
      · exact .inl hitem
      · rw [List.mem_singleton.1 hchild]
        exact .inr hnext

theorem IsArgument.of_eq_some {c : OperandClass} (h : t.IsArgument c (some child)) :
    t.IsOperand child := by
  cases c with
  | implied => cases h
  | memory => exact h child rfl
  | accumulator => exact h child rfl
  | target =>
      obtain ⟨_, _, heq, hk⟩ := h
      cases heq
      exact .inl (.name hk)

/-- What an item owns is an operand or a list of values. -/
theorem IsItem.of_mem_children (h : t.IsItem id) (hchild : child ∈ t.children id) :
    (∃ m, t.kind id = .instruction m (some child) ∧ t.IsOperand child) ∨
      t.IsListOf t.IsExpression child := by
  rcases h with ⟨m, operand, hk, harg⟩ | ⟨width, head, hk, hhead⟩
  · rw [mem_children hk] at hchild
    obtain rfl := Option.mem_toList.1 hchild
    exact .inl ⟨m, hk, harg.of_eq_some⟩
  · rw [eq_of_mem_children hk rfl hchild]
    exact .inr hhead

theorem IsLabel.of_mem_children (h : t.IsLabel id) (hchild : child ∈ t.children id) :
    t.IsLabel child ∨ t.IsListOf t.IsItem child := by
  cases h with
  | bare hk =>
      rw [mem_children hk] at hchild
      cases hchild
  | outer hk hlabel =>
      rw [eq_of_mem_children hk rfl hchild]
      exact .inl hlabel
  | block hk hhead =>
      rw [eq_of_mem_children hk rfl hchild]
      exact .inr hhead

theorem IsDeclaration.of_mem_children (h : t.IsDeclaration id) (hchild : child ∈ t.children id) :
    t.IsExpression child := by
  obtain ⟨_, _, hk, hvalue⟩ := h
  rw [eq_of_mem_children hk rfl hchild]
  exact hvalue

/-- A part owns parts only, and instructions may own an indexed expression instead. -/
theorem IsPart.of_mem_children (h : t.IsPart id) (hchild : child ∈ t.children id) :
    t.IsPart child ∨ ∃ m, t.kind id = .instruction m (some child) ∧ t.IsOperand child := by
  cases h with
  | expression h => exact .inl (.expression (h.of_mem_children hchild))
  | values h =>
      rcases h.of_mem_children hchild with h | h
      · exact .inl (.expression h)
      · exact .inl (.values h)
  | item h =>
      rcases h.of_mem_children hchild with h | h
      · exact .inr h
      · exact .inl (.values h)
  | block h =>
      rcases h.of_mem_children hchild with h | h
      · exact .inl (.item h)
      · exact .inl (.block h)
  | label h =>
      rcases h.of_mem_children hchild with h | h
      · exact .inl (.label h)
      · exact .inl (.block h)
  | declaration h => exact .inl (.expression (h.of_mem_children hchild))

/-- An indexed expression is none of the parts. -/
theorem IsPart.not_isIndexed (h : t.IsPart id) : ¬ t.IsIndexed id := by
  rintro ⟨wrapper, body, hk, hindex⟩
  have absurd_of {k : Node.Kind} (hk' : t.kind id = k) (hne : k ≠ .wrap wrapper body) : False :=
    hne (hk'.symm.trans hk)
  cases h with
  | expression h =>
      cases h with
      | name hk' => exact absurd_of hk' (by simp)
      | const hk' => exact absurd_of hk' (by simp)
      | sum hk' => exact absurd_of hk' (by simp)
      | wrap hk' hplain =>
          rw [hk] at hk'
          cases hk'
          rw [hindex] at hplain
          cases hplain
  | values h | block h =>
      cases h with
      | last hk' => exact absurd_of hk' (by simp)
      | more hk' => exact absurd_of hk' (by simp)
  | item h =>
      rcases h with ⟨_, _, hk', _⟩ | ⟨_, _, hk', _⟩
      · exact absurd_of hk' (by simp)
      · exact absurd_of hk' (by simp)
  | label h =>
      cases h with
      | bare hk' => exact absurd_of hk' (by simp)
      | outer hk' => exact absurd_of hk' (by simp)
      | block hk' => exact absurd_of hk' (by simp)
  | declaration h =>
      obtain ⟨_, _, hk', _⟩ := h
      exact absurd_of hk' (by simp)

/-- The root of a program, its parts and its operands own parts and operands. -/
theorem isPart_of_mem_children (ht : t.IsProgram) (h : id = 0 ∨ t.IsPart id ∨ t.IsOperand id)
    (hchild : child ∈ t.children id) : t.IsPart child ∨ t.IsOperand child := by
  rcases h with rfl | hpart | hoperand
  · rcases ht.items _ hchild with hlabel | hdeclaration
    · exact .inl (.label hlabel)
    · exact .inl (.declaration hdeclaration)
  · rcases hpart.of_mem_children hchild with hpart' | ⟨_, _, hoperand⟩
    · exact .inl hpart'
    · exact .inr hoperand
  · rcases hoperand with hexpr | ⟨_, _, hk, _, hexpr⟩
    · exact .inl (.expression (hexpr.of_mem_children hchild))
    · rw [eq_of_mem_children hk rfl hchild]
      exact .inl (.expression hexpr)

/-- What the root of a program leads to: itself, parts, and operands. -/
theorem isPart_of_reaches (ht : t.IsProgram) (h : t.Reaches id) :
    id = 0 ∨ t.IsPart id ∨ t.IsOperand id := by
  induction h with
  | refl => exact .inl rfl
  | tail _ hid ih => exact .inr (isPart_of_mem_children ht ih hid)

/-- In the tree of a program, only instructions own indexed expressions. -/
theorem instruction_of_isIndexed (ht : t.IsProgram) (h : t.Reaches id)
    (hchild : child ∈ t.children id) (hindexed : t.IsIndexed child) :
    ∃ m, t.kind id = .instruction m (some child) := by
  rcases isPart_of_reaches ht h with rfl | hpart | hoperand
  · rcases ht.items _ hchild with hlabel | hdeclaration
    · exact absurd hindexed (IsPart.label hlabel).not_isIndexed
    · exact absurd hindexed (IsPart.declaration hdeclaration).not_isIndexed
  · rcases hpart.of_mem_children hchild with hpart' | ⟨m, hm, _⟩
    · exact absurd hindexed hpart'.not_isIndexed
    · exact ⟨m, hm⟩
  · rcases hoperand with hexpr | ⟨_, _, hk, _, hexpr⟩
    · exact absurd hindexed (IsPart.expression (hexpr.of_mem_children hchild)).not_isIndexed
    · rw [eq_of_mem_children hk rfl hchild] at hindexed
      exact absurd hindexed (IsPart.expression hexpr).not_isIndexed

end Tree

end Asm6502
