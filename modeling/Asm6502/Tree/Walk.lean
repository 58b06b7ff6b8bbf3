import Asm6502.Tree.Basic

/-!
# Walking a tree

A walk visits a node, then what it owns, in source order, each with the level at
which a dump shows it. What a node owns lies one level deeper, with two
exceptions: the items of a root stay on its level, and so does the next cell of
an ordered list.

Walks go down to smaller numbers only, which is how the nodes of a tree are
numbered; so every walk ends. The root is the one node that owns larger numbers,
and a walk over the whole tree starts with its items.

A walk is given twice: `subtree` by recursion on what a node owns, and `foldDown`
by a worklist of the visits still due, which needs no stack however deep or long
the tree is. A node that is owned twice is visited twice.

## Main results

* `foldDown_eq_foldl` — the worklist visits exactly the subtrees of what it
  holds, in order.
-/

namespace Asm6502.Tree

/-- A node to be visited and the level at which it is shown. -/
structure Visit where
  id : NodeId
  level : Nat
  deriving DecidableEq, Repr

/-- What a node owns, each with its level, if the node itself is shown at
`level`. -/
def placed (k : Node.Kind) (level : Nat) : List Visit :=
  match k with
  | .root items => items.map (⟨·, level⟩)
  | .list item next => ⟨item, level + 1⟩ :: next.toList.map (⟨·, level⟩)
  | k => k.children.map (⟨·, level + 1⟩)

/-- The visits that follow directly from a visit. -/
def below (t : Tree) (v : Visit) : List Visit :=
  (placed (t.kind v.id) v.level).filter fun w => w.id < v.id

theorem lt_of_mem_below {t : Tree} {v w : Visit} (h : w ∈ t.below v) : w.id < v.id := by
  simpa using (List.mem_filter.1 h).2

/-- A visit and all that follow from it, in source order. -/
def subtree (t : Tree) (v : Visit) : List Visit :=
  v :: (t.below v).attach.flatMap fun w => subtree t w.1
termination_by v.id
decreasing_by exact lt_of_mem_below w.2

theorem subtree_eq (t : Tree) (v : Visit) :
    t.subtree v = v :: (t.below v).flatMap t.subtree := by
  rw [subtree, List.flatMap_subtype (fun _ _ => rfl), List.unattach_attach]

/-- The number of visits that a worklist stands for. -/
private def due (t : Tree) (work : List Visit) : Nat :=
  (work.flatMap t.subtree).length

private theorem due_below_append (t : Tree) (v : Visit) (work : List Visit) :
    due t (t.below v ++ work) < due t (v :: work) := by
  simp only [due, List.flatMap_append, List.flatMap_cons, subtree_eq t v, List.length_append,
    List.length_cons]
  omega

/-- Folds over the visits of a worklist and all that follow from them, in source
order. -/
def foldDown {β : Type} (t : Tree) (f : β → Visit → β) (acc : β) : List Visit → β
  | [] => acc
  | v :: work => foldDown t f (f acc v) (t.below v ++ work)
termination_by work => due t work
decreasing_by exact due_below_append t v work

theorem foldDown_eq_foldl {β : Type} (t : Tree) (f : β → Visit → β) (acc : β)
    (work : List Visit) : t.foldDown f acc work = (work.flatMap t.subtree).foldl f acc := by
  fun_induction foldDown t f acc work with
  | case1 acc => rfl
  | case2 acc v work ih =>
    rw [ih, List.flatMap_append, List.flatMap_cons, subtree_eq t v, List.cons_append,
      List.foldl_cons]

/-! ## The whole tree -/

/-- The visits a walk over the whole tree starts with. -/
def itemVisits (t : Tree) : List Visit := t.items.map (⟨·, 0⟩)

/-- The visits of everything the root's items lead to, in source order. -/
def visits (t : Tree) : List Visit :=
  (t.foldDown (fun (seen : Array Visit) v => seen.push v) #[] t.itemVisits).toList

theorem visits_eq (t : Tree) : t.visits = t.itemVisits.flatMap t.subtree := by
  rw [visits, foldDown_eq_foldl, List.foldl_push_eq_append]
  simp

/-- The root and everything it leads to, in source order. -/
def walk (t : Tree) : List NodeId := 0 :: t.visits.map Visit.id

end Asm6502.Tree
