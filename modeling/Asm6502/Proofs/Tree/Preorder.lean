import Asm6502.Proofs.Tree.Growth
import Asm6502.Proofs.Tree.Shape
import Asm6502.Tree.Walk
import Mathlib.Data.List.Basic

/-!
# Nodes in source order

A walk over a tree lists its nodes in pre-order: an owner in front of what it owns,
and what stands left in front of what stands right.  It is defined by visits, which
carry the level that a dump shows a node at, and it takes no step up to larger numbers,
so that it ends on every tree.  Here the levels are forgotten; and on a tree that
descends no step is left out, so the walk lists what the root leads to.

## Main results

* `preorder_eq` — a node stands in front of all that it owns.
* `mem_walk` — the walk lists exactly the nodes that the root leads to.
-/

namespace Asm6502.Tree

variable {t : Tree} {id : NodeId}

/-! ## Below a node -/

/-- A node and all that it leads to, in source order. -/
def preorder (t : Tree) (id : NodeId) : List NodeId := (t.subtree ⟨id, 0⟩).map Visit.id

theorem map_id_placed (k : Node.Kind) (level : Nat) :
    (placed k level).map Visit.id = k.children := by
  have plain (ids : List NodeId) (level : Nat) :
      (ids.map fun id => (⟨id, level⟩ : Visit)).map Visit.id = ids := by
    rw [List.map_map]
    exact List.map_id _
  cases k with
  | list item next =>
      rw [placed, List.map_cons, plain]
      rfl
  | root | data | decl | label | name | const | wrap | sum | instruction => exact plain _ _

theorem mem_children_of_mem_placed {v w : Visit} (hw : w ∈ placed (t.kind v.id) v.level) :
    w.id ∈ t.children v.id := by
  rw [children, ← map_id_placed _ v.level]
  exact List.mem_map_of_mem hw

theorem map_id_below (t : Tree) (v : Visit) :
    (t.below v).map Visit.id = (t.children v.id).filter fun id => id < v.id := by
  have hfilter : (fun w : Visit => decide (w.id < v.id)) =
      (fun id => decide (id < v.id)) ∘ Visit.id := rfl
  rw [below, hfilter, ← List.filter_map, map_id_placed]
  rfl

/-- The level of a visit plays no part in what is visited below it. -/
theorem map_id_subtree (t : Tree) (v : Visit) : (t.subtree v).map Visit.id = t.preorder v.id := by
  -- The levels of two visits of one node differ all the way down, hence the two levels.
  have main (n : Nat) : ∀ id < n, ∀ l l',
      (t.subtree ⟨id, l⟩).map Visit.id = (t.subtree ⟨id, l'⟩).map Visit.id := by
    induction n with
    | zero =>
        intro id hid
        omega
    | succ n ih =>
        have hbelow (id : NodeId) (hid : id < n + 1) (l : Nat) :
            (t.subtree ⟨id, l⟩).map Visit.id =
              id :: ((t.children id).filter fun child => child < id).flatMap t.preorder := by
          rw [subtree_eq, List.map_cons, List.map_flatMap, ← map_id_below t ⟨id, l⟩,
            List.flatMap_map]
          refine congrArg _ (List.flatMap_congr ?_)
          intro w hw
          have hlt : w.id < id := lt_of_mem_below hw
          exact ih w.id (Nat.lt_of_lt_of_le hlt (Nat.le_of_lt_succ hid)) w.level 0
        intro id hid l l'
        rw [hbelow id hid l, hbelow id hid l']
  exact main (v.id + 1) v.id (Nat.lt_succ_self _) v.level 0

theorem preorder_eq_filter (t : Tree) (id : NodeId) :
    t.preorder id = id :: ((t.children id).filter fun child => child < id).flatMap t.preorder := by
  rw [preorder, subtree_eq, List.map_cons, List.map_flatMap, ← map_id_below t ⟨id, 0⟩,
    List.flatMap_map]
  exact congrArg _ (List.flatMap_congr fun w _ => map_id_subtree t w)

/-- On a tree that descends, a node stands in front of all that it owns. -/
theorem preorder_eq (ht : t.Descends) (hid : t.IsInner id) :
    t.preorder id = id :: (t.children id).flatMap t.preorder := by
  have hall : ∀ child ∈ t.children id, decide (child < id) = true := by
    intro child hchild
    exact decide_eq_true (ht id hid child hchild).1
  rw [preorder_eq_filter, List.filter_eq_self.2 hall]

theorem head?_preorder (t : Tree) (id : NodeId) : (t.preorder id).head? = some id := by
  rw [preorder_eq_filter]
  rfl

/-- The walk is the root and the nodes below its items. -/
theorem walk_eq (t : Tree) : t.walk = 0 :: t.items.flatMap t.preorder := by
  rw [walk, visits_eq, List.map_flatMap, itemVisits, List.flatMap_map]
  exact congrArg _ (List.flatMap_congr fun id _ => map_id_subtree t ⟨id, 0⟩)

/-! ## Only what nodes own matters -/

theorem preorder_congr {t' : Tree} (h : t'.children = t.children) (id : NodeId) :
    t'.preorder id = t.preorder id := by
  induction id using Nat.strongRecOn with
  | ind id ih =>
    rw [preorder_eq_filter, preorder_eq_filter, h]
    refine congrArg _ (List.flatMap_congr ?_)
    intro child hchild
    exact ih child (of_decide_eq_true (List.mem_filter.1 hchild).2)

theorem walk_congr {t' : Tree} (h : t'.children = t.children) : t'.walk = t.walk := by
  rw [walk_eq, walk_eq, items, h]
  exact congrArg _ (List.flatMap_congr fun id _ => preorder_congr h id)

/-! ## What the root leads to -/

/-- A node that is listed is listed with what it owns, if the numbers go down. -/
theorem mem_preorder_of_mem_children {top child : NodeId} (hid : id ∈ t.preorder top)
    (hchild : child ∈ t.children id) (hlt : child < id) : child ∈ t.preorder top := by
  induction top using Nat.strongRecOn with
  | ind top ih =>
    rw [preorder_eq_filter] at hid ⊢
    rcases List.mem_cons.1 hid with rfl | hid
    · have hbelow : child ∈ (t.children id).filter fun child => child < id :=
        List.mem_filter.2 ⟨hchild, decide_eq_true hlt⟩
      refine List.mem_cons_of_mem _ (List.mem_flatMap.2 ⟨child, hbelow, ?_⟩)
      rw [preorder_eq_filter]
      exact List.mem_cons_self
    · obtain ⟨top', htop', hid⟩ := List.mem_flatMap.1 hid
      have hlt' : top' < top := of_decide_eq_true (List.mem_filter.1 htop').2
      exact List.mem_cons_of_mem _ (List.mem_flatMap.2 ⟨top', htop', ih top' hlt' hid⟩)

/-- What is listed below a node is what the node leads to. -/
theorem leads_of_mem_preorder {top : NodeId} (hid : id ∈ t.preorder top) :
    Relation.ReflTransGen (fun owner id => id ∈ t.children owner) top id := by
  induction top using Nat.strongRecOn with
  | ind top ih =>
    rw [preorder_eq_filter] at hid
    rcases List.mem_cons.1 hid with rfl | hid
    · exact .refl
    · obtain ⟨top', htop', hid⟩ := List.mem_flatMap.1 hid
      obtain ⟨hmem, hlt⟩ := List.mem_filter.1 htop'
      exact .head hmem (ih top' (of_decide_eq_true hlt) hid)

theorem reaches_of_mem_preorder {top : NodeId} (htop : t.Reaches top)
    (hid : id ∈ t.preorder top) : t.Reaches id := htop.trans (leads_of_mem_preorder hid)

/-- The walk lists exactly the nodes that the root leads to, if the numbers go down on all
ways from its items. -/
theorem mem_walk_of_lt
    (hlt : ∀ owner, t.Reaches owner → owner ≠ 0 → ∀ child ∈ t.children owner, child < owner) :
    id ∈ t.walk ↔ t.Reaches id := by
  rw [walk_eq]
  constructor
  · intro hid
    rcases List.mem_cons.1 hid with rfl | hid
    · exact .refl
    · obtain ⟨item, hitem, hid⟩ := List.mem_flatMap.1 hid
      exact reaches_of_mem_preorder (.single hitem) hid
  · intro hid
    induction hid with
    | refl => exact List.mem_cons_self
    | @tail owner id howner hchild ih =>
        have hlisted {item : NodeId} (hitem : item ∈ t.items) (hid : id ∈ t.preorder item) :
            id ∈ 0 :: t.items.flatMap t.preorder :=
          List.mem_cons_of_mem _ (List.mem_flatMap.2 ⟨item, hitem, hid⟩)
        by_cases hzero : owner = 0
        · subst hzero
          refine hlisted hchild ?_
          rw [preorder_eq_filter]
          exact List.mem_cons_self
        · have hbelow := List.mem_of_ne_of_mem hzero ih
          obtain ⟨item, hitem, hmem⟩ := List.mem_flatMap.1 hbelow
          exact hlisted hitem
            (mem_preorder_of_mem_children hmem hchild (hlt owner howner hzero id hchild))

/-- On a tree that descends, all ways below the root stay below it. -/
theorem isInner_of_reaches (ht : t.Descends) (hitems : ∀ item ∈ t.items, t.IsInner item)
    (hid : t.Reaches id) : id = 0 ∨ t.IsInner id := by
  induction hid with
  | refl => exact .inl rfl
  | tail _ hchild ih =>
      rcases ih with rfl | hinner
      · exact .inr (hitems _ hchild)
      · exact .inr (ht _ hinner _ hchild).2

/-- The walk over a tree that descends lists exactly the nodes that the root leads to. -/
theorem mem_walk (ht : t.Descends) (hitems : ∀ item ∈ t.items, t.IsInner item) :
    id ∈ t.walk ↔ t.Reaches id := by
  refine mem_walk_of_lt fun owner howner hzero child hchild => ?_
  rcases isInner_of_reaches ht hitems howner with rfl | hinner
  · exact absurd rfl hzero
  · exact (ht owner hinner child hchild).1

end Asm6502.Tree
