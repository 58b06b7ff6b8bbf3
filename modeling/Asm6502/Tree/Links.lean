import Asm6502.Tree.Walk

/-!
# Repairing parent links

Which node owns which is written in the nodes themselves; the parent links only
repeat it. `normalize` walks the tree and sets every link on its way to the node
that owns it, the root having none, and counts the links that were wrong.

Of several owners of one node the last one in source order keeps it.

## Main results

* `nodes_normalize` — nothing but links changes.
-/

namespace Asm6502.Tree

/-- A tree under repair and the number of links repaired so far. -/
structure Repair where
  tree : Tree
  count : Nat

namespace Repair

/-- Sets the parent link of one node, and counts it if it was wrong. -/
def link (r : Repair) (id : NodeId) (parent : Option NodeId) : Repair :=
  if r.tree.parent id = parent then r else ⟨r.tree.setParent id parent, r.count + 1⟩

/-- Sets the parent links of everything that `owner` owns. -/
def adopt (r : Repair) (owner : NodeId) : Repair :=
  (r.tree.children owner).foldl (fun r child => r.link child (some owner)) r

end Repair

/-- Points the parent links at the owners. Answers the repaired tree and the
number of links that were wrong. -/
def normalize (t : Tree) : Repair :=
  let top := Repair.adopt ⟨t, 0⟩ 0
  let all := t.foldDown (fun r v => r.adopt v.id) top t.itemVisits
  all.link 0 none

/-! ## Nothing but links changes -/

namespace Repair

@[simp] theorem nodes_link (r : Repair) (id : NodeId) (parent : Option NodeId) :
    (r.link id parent).tree.nodes = r.tree.nodes := by
  unfold link
  split <;> rfl

@[simp] theorem nodes_adopt (r : Repair) (owner : NodeId) :
    (r.adopt owner).tree.nodes = r.tree.nodes := by
  unfold adopt
  generalize r.tree.children owner = ids
  induction ids generalizing r with
  | nil => rfl
  | cons id ids ih => rw [List.foldl_cons, ih, nodes_link]

end Repair

theorem nodes_normalize (t : Tree) : t.normalize.tree.nodes = t.nodes := by
  have hfold (vs : List Visit) (r : Repair) :
      (vs.foldl (fun r v => r.adopt v.id) r).tree.nodes = r.tree.nodes := by
    induction vs generalizing r with
    | nil => rfl
    | cons v vs ih => rw [List.foldl_cons, ih, Repair.nodes_adopt]
  simp [normalize, foldDown_eq_foldl, hfold]

end Asm6502.Tree
