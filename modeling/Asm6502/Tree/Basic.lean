import Asm6502.Mnemonic

/-!
# Syntax trees

The tree of a source text is kept as an arena: nodes are numbered in the order
in which they were added, and refer to what they own by number. Node zero is the
root, which owns the declarations and labels of the text; its list of items is
the only thing that grows. Every other node is added after what it owns, so it
owns smaller numbers only, and nothing is ever removed: what a reader gives up
half-way stays behind, unreachable from the root.

An ordered list (a code block, a data list) is a chain of list cells, each with
an item and perhaps a next cell.

Besides its kind and its line every node has a parent link, which names the node
that owns it. The links are kept apart from the nodes, for they can always be
recomputed and never decide ownership.

## Main results

* `nodes_add`, `size_add` — adding a node puts it at the end and changes no
  other.
* `children_appendItem` — appending to the root's items.
-/

namespace Asm6502

/-- The number of a node in its tree. -/
abbrev NodeId := Nat

/-- What a label stands for. Reading leaves labels unclassified. -/
inductive LabelType where
  | unclassified | alias | code | data
  deriving DecidableEq, Repr, Inhabited

/-- How a dump shows a label type. -/
def LabelType.name : LabelType → String
  | .unclassified => "none"
  | .alias => "alias"
  | .code => "code"
  | .data => "data"

/-- The width of the values of a data directive. -/
inductive DataWidth where
  /-- Eight bits each. -/
  | byte
  /-- Sixteen bits each. -/
  | word
  deriving DecidableEq, Repr

/-- What may stand around a single expression. -/
inductive Wrapper where
  /-- A number sign in front. -/
  | immediate
  /-- Parentheses around. -/
  | indirect
  /-- The index register `x` behind. -/
  | indexedX
  /-- The index register `y` behind. -/
  | indexedY
  /-- A less sign in front: the low byte of the value. -/
  | loByte
  /-- A greater sign in front: the high byte of the value. -/
  | hiByte
  deriving DecidableEq, Repr

/-- The operators between two expressions. -/
inductive SumOperator where
  | add | subtract
  deriving DecidableEq, Repr

namespace Node

/-- The shape of a node and the numbers of the nodes it owns. -/
inductive Kind where
  /-- The declarations and labels of a text. -/
  | root (items : List NodeId)
  /-- A cell of an ordered list. -/
  | list (item : NodeId) (next : Option NodeId)
  /-- A data directive with the first cell of its expressions. -/
  | data (width : DataWidth) (head : NodeId)
  /-- A name that is set to the value of an expression. -/
  | decl (name : String) (expression : NodeId)
  /-- A label with what it stands in front of: another label, or the first cell
  of a code block. -/
  | label (name : String) (child : Option NodeId) (type : LabelType)
  | name (text : String)
  /-- A numeral as written. -/
  | const (text : String)
  | wrap (wrapper : Wrapper) (child : NodeId)
  | sum (operator : SumOperator) (left right : NodeId)
  | instruction (mnemonic : Mnemonic) (operand : Option NodeId)
  deriving DecidableEq, Repr

namespace Kind

/-- The nodes that a node owns, in source order. -/
def children : Kind → List NodeId
  | .root items => items
  | .list item next => item :: next.toList
  | .data _ head => [head]
  | .decl _ expression => [expression]
  | .label _ child _ => child.toList
  | .name _ | .const _ => []
  | .wrap _ child => [child]
  | .sum _ left right => [left, right]
  | .instruction _ operand => operand.toList

/-- A root with one more item at the end; other kinds have no items. -/
def appendItem (k : Kind) (id : NodeId) : Kind :=
  match k with
  | .root items => .root (items ++ [id])
  | other => other

/-- A label with another type; `none` for what is no label. -/
def classify? (k : Kind) (type : LabelType) : Option Kind :=
  match k with
  | .label text child _ => some (.label text child type)
  | _ => none

@[simp] theorem children_appendItem (items : List NodeId) (id : NodeId) :
    (appendItem (.root items) id).children = items ++ [id] := rfl

/-- The type of a label plays no part in what it owns. -/
theorem children_of_classify? {k k' : Kind} {type : LabelType}
    (h : k.classify? type = some k') : k'.children = k.children := by
  cases k with
  | label text child old => cases h; rfl
  | root | list | data | decl | name | const | wrap | sum | instruction => cases h

end Kind

end Node

/-- A node: its shape, and the line of the source it was read from. -/
structure Node where
  kind : Node.Kind
  line : Nat
  deriving DecidableEq, Repr

/-- A syntax tree. -/
structure Tree where
  nodes : Array Node
  /-- The parent links, one for each node. -/
  parents : Array (Option NodeId)
  deriving DecidableEq, Repr

namespace Tree

/-- The tree that has only a root without items. The root stands in front of the
first line. -/
def empty : Tree := ⟨#[⟨.root [], 0⟩], #[none]⟩

instance : Inhabited Tree := ⟨empty⟩

/-! ## Looking at a tree -/

/-- The number of nodes, those out of reach included. -/
def size (t : Tree) : Nat := t.nodes.size

/-- The node with the given number. A number not given out yet stands for a node
that owns nothing. -/
def node (t : Tree) (id : NodeId) : Node := t.nodes.getD id ⟨.root [], 0⟩

/-- The shape of a node. -/
def kind (t : Tree) (id : NodeId) : Node.Kind := (t.node id).kind

/-- The line a node was read from. -/
def line (t : Tree) (id : NodeId) : Nat := (t.node id).line

/-- The nodes that a node owns, in source order. -/
def children (t : Tree) (id : NodeId) : List NodeId := (t.kind id).children

/-- The parent link of a node. -/
def parent (t : Tree) (id : NodeId) : Option NodeId := t.parents.getD id none

/-- The declarations and labels of the text. -/
def items (t : Tree) : List NodeId := t.children 0

/-- Whether the text has neither declarations nor labels. -/
def isEmpty (t : Tree) : Bool := t.items.isEmpty

/-! ## Building a tree -/

/-- Sets the parent link of a node. -/
def setParent (t : Tree) (id : NodeId) (parent : Option NodeId) : Tree :=
  { t with parents := t.parents.setIfInBounds id parent }

/-- Adds a node behind all others and makes it the parent of what it owns. Answers
its number. -/
def add (t : Tree) (kind : Node.Kind) (line : Nat) : NodeId × Tree :=
  let id := t.nodes.size
  let linked := kind.children.foldl (fun t child => t.setParent child (some id)) t
  (id, ⟨linked.nodes.push ⟨kind, line⟩, linked.parents.push none⟩)

/-- Makes a node the last item of the root. -/
def pushItem (t : Tree) (id : NodeId) : Tree :=
  let owned : Tree :=
    { t with nodes := t.nodes.modify 0 fun n => { n with kind := n.kind.appendItem id } }
  owned.setParent id (some 0)

/-- Adds the cells of an ordered list, from the last to the first, each with the
line of its item. Answers the number of the first cell. -/
def addList (t : Tree) (items : List NodeId) : Option NodeId × Tree :=
  items.foldr
    (fun item (next, t) =>
      let (cell, t) := t.add (.list item next) (t.line item)
      (some cell, t))
    (none, t)

/-- Classifies a label; `none` if the node is no label. -/
def setLabelType? (t : Tree) (id : NodeId) (type : LabelType) : Option Tree :=
  ((t.kind id).classify? type).map fun kind =>
    { t with nodes := t.nodes.modify id fun n => { n with kind := kind } }

/-! ## What building does to the nodes -/

theorem nodes_foldl_setParent (ids : List NodeId) (p : Option NodeId) (t : Tree) :
    (ids.foldl (fun t id => t.setParent id p) t).nodes = t.nodes := by
  induction ids generalizing t with
  | nil => rfl
  | cons id ids ih => exact ih (t.setParent id p)

@[simp] theorem nodes_add (t : Tree) (kind : Node.Kind) (line : Nat) :
    (t.add kind line).2.nodes = t.nodes.push ⟨kind, line⟩ := by
  simp [add, nodes_foldl_setParent]

@[simp] theorem fst_add (t : Tree) (kind : Node.Kind) (line : Nat) :
    (t.add kind line).1 = t.size := rfl

@[simp] theorem size_add (t : Tree) (kind : Node.Kind) (line : Nat) :
    (t.add kind line).2.size = t.size + 1 := by
  simp [size]

end Tree

end Asm6502
