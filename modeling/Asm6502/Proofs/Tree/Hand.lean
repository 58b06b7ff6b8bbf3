import Asm6502.Proofs.Tree.Growth

/-!
# Nodes in hand

A tree is built from the bottom: a node is added when all that it owns is there, and waits
to be put below another one in turn.  The nodes that wait are in hand.  What happens to
them is of three kinds, and a list of cells is built in the same way: the last ones are
given up, they are put below a new node, which is then in hand instead of them, or the
only one becomes an item of the root.

A hand invariant says something about a tree and the nodes in hand that none of this
disturbs.  What is read into a tree keeps every hand invariant, whichever it is.

## Main results

* `HandInvariant.addList` — a hand invariant is kept where a list is built.
-/

namespace Asm6502.Tree

/-- A statement about a tree and the nodes in hand that is kept while the tree is built. -/
structure HandInvariant (P : Tree → List NodeId → Prop) : Prop where
  /-- The last nodes may be given up. -/
  of_append {t : Tree} {ids ids' : List NodeId} : P t (ids ++ ids') → P t ids
  /-- They may be put below a new node. -/
  add {t : Tree} {ids : List NodeId} {k : Node.Kind} (line : Nat) (h : P t (ids ++ k.children))
    (hk : ∀ items, k ≠ .root items) : P (t.add k line).2 (ids ++ [t.size])
  /-- A node that is alone in hand may become an item of the root. -/
  pushItem {t : Tree} {id : NodeId} : P t [id] → P (t.pushItem id) []

/-- The last nodes may be put into a list. -/
theorem HandInvariant.addList {P : Tree → List NodeId → Prop} (hP : HandInvariant P) {t : Tree}
    {ids items : List NodeId} (h : P t (ids ++ items)) :
    P (t.addList items).2 (ids ++ (t.addList items).1.toList) := by
  induction items generalizing ids with
  | nil => exact h
  | cons item items ih =>
      have hrest : P (t.addList items).2 (ids ++ [item] ++ (t.addList items).1.toList) := by
        refine ih ?_
        rw [List.append_assoc]
        exact h
      rw [List.append_assoc] at hrest
      exact hP.add (k := .list item (t.addList items).1) _ hrest (by simp)

end Asm6502.Tree
