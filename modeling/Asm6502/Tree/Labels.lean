import Asm6502.Tree.Basic

/-!
# Lists and labels in a tree

Two ways of following what nodes own. The items of an ordered list are found
along the chain of its cells; the labels below an item of the root are found
along the chain of labels that directly follow each other. Both chains lead to
smaller numbers, so both end.

## Main results

* `listItems_list`, `labelChain_label` — one step along each chain.
-/

namespace Asm6502.Tree

/-- The items of the ordered list that starts at a cell, in order. A node that is
no cell has none. -/
def listItems (t : Tree) (id : NodeId) : List NodeId :=
  match t.kind id with
  | .list item (some next) => item :: if _h : next < id then t.listItems next else []
  | .list item none => [item]
  | _ => []
termination_by id

/-- A label and the labels that directly follow it, the outermost first. A node
that is no label starts no such chain. -/
def labelChain (t : Tree) (id : NodeId) : List NodeId :=
  match t.kind id with
  | .label _ (some child) _ => id :: if _h : child < id then t.labelChain child else []
  | .label _ none _ => [id]
  | _ => []
termination_by id

/-- All labels of the text, in source order. -/
def labels (t : Tree) : List NodeId := t.items.flatMap t.labelChain

/-- Whether a node is a label with the given name. -/
def isLabelNamed (t : Tree) (name : String) (id : NodeId) : Bool :=
  match t.kind id with
  | .label n _ _ => n == name
  | _ => false

/-- The first label with the given name. -/
def findLabel? (t : Tree) (name : String) : Option NodeId :=
  t.labels.find? (t.isLabelNamed name)

/-! ## One step along each chain -/

theorem listItems_list {t : Tree} {id item : NodeId} {next : Option NodeId}
    (h : t.kind id = .list item next) (hlt : ∀ n ∈ next, n < id) :
    t.listItems id = item :: (next.map t.listItems).getD [] := by
  rw [listItems, h]
  cases next with
  | none => rfl
  | some n => simp [hlt n rfl]

theorem labelChain_label {t : Tree} {id : NodeId} {name : String} {child : Option NodeId}
    {type : LabelType} (h : t.kind id = .label name child type) (hlt : ∀ c ∈ child, c < id) :
    t.labelChain id = id :: (child.map t.labelChain).getD [] := by
  rw [labelChain, h]
  cases child with
  | none => rfl
  | some c => simp [hlt c rfl]

end Asm6502.Tree
