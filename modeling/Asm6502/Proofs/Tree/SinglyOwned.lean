import Asm6502.Proofs.Tree.Hand
import Asm6502.Proofs.Tree.Shape
import Asm6502.Tree.Links
import Mathlib.Data.List.Perm.Lattice
import Mathlib.Data.List.Nodup

/-!
# One owner for each node

A parent link is one number, so it can be right only if its node has one owner.  Adding a
node sets the links of all that the node owns and asks for no earlier owner, so a link
could be taken away from an owner that the root still leads to.  That never happens to
nodes in hand: a node in hand has no owner, and once it has one it is no longer in hand.

`SinglyOwned` says so of all nodes of a tree at once.  Those out of reach are included: an
owner that was given up half-way keeps what it owns.  The numbers of all that is owned,
each as often as it is owned, and of the nodes in hand are listed together, and no number
stands twice in that list.

## Main results

* `handInvariant_singlyOwned` — building a tree never takes a node away from its owner.
* `SinglyOwned.isProper` — each node has one place, and its link leads back to the owner.
* `SinglyOwned.normalize_eq` — there is nothing to repair in such a tree.
-/

namespace Asm6502.Tree

variable {t : Tree} {id : NodeId}

/-! ## Parent links under construction -/

theorem parent_setParent (t : Tree) (id j : NodeId) (p : Option NodeId) :
    (t.setParent id p).parent j = if j = id ∧ id < t.parents.size then p else t.parent j := by
  simp only [parent, setParent, Array.getD_eq_getD_getElem?, Array.getElem?_setIfInBounds]
  by_cases hj : id = j
  · subst hj
    by_cases hlt : id < t.parents.size
    · simp [hlt]
    · simp [hlt]
  · simp [hj, Ne.symm hj]

theorem size_parents_setParent (t : Tree) (id : NodeId) (p : Option NodeId) :
    (t.setParent id p).parents.size = t.parents.size := by
  simp [setParent]

theorem foldl_setParent (ids : List NodeId) (p : Option NodeId) (t : Tree) :
    (ids.foldl (fun t id => t.setParent id p) t).parents.size = t.parents.size ∧
      ∀ j, (ids.foldl (fun t id => t.setParent id p) t).parent j =
        if j ∈ ids ∧ j < t.parents.size then p else t.parent j := by
  induction ids generalizing t with
  | nil => simp
  | cons id ids ih =>
      obtain ⟨hsize, hparent⟩ := ih (t.setParent id p)
      rw [size_parents_setParent] at hsize hparent
      refine ⟨hsize, ?_⟩
      intro j
      rw [List.foldl_cons, hparent, parent_setParent]
      by_cases hj : j = id
      · subst hj
        by_cases hlt : j < t.parents.size
        · simp [hlt]
        · simp [hlt]
      · simp [hj]

theorem size_parents_add (t : Tree) (k : Node.Kind) (line : Nat) :
    (t.add k line).2.parents.size = t.parents.size + 1 := by
  rw [add, Array.size_push, (foldl_setParent ..).1]

/-- Adding a node changes the links of what it owns and no other. -/
theorem parent_add (t : Tree) (k : Node.Kind) (line : Nat) (j : NodeId) :
    (t.add k line).2.parent j =
      if j ∈ k.children ∧ j < t.parents.size then some t.size else t.parent j := by
  obtain ⟨hsize, hparent⟩ := foldl_setParent k.children (some t.size) t
  have hpush (a : Array (Option NodeId)) : (a.push none).getD j none = a.getD j none := by
    simp only [Array.getD_eq_getD_getElem?, Array.getElem?_push]
    by_cases hj : j = a.size
    · simp [hj]
    · simp [hj]
  rw [parent, add, hpush]
  exact hparent j

theorem size_parents_pushItem (t : Tree) (id : NodeId) :
    (t.pushItem id).parents.size = t.parents.size := by
  rw [pushItem, size_parents_setParent]

theorem parent_pushItem (t : Tree) (id j : NodeId) :
    (t.pushItem id).parent j = if j = id ∧ id < t.parents.size then some 0 else t.parent j := by
  rw [pushItem, parent_setParent]
  rfl

/-! ## All that is owned -/

/-- The nodes that some node owns, each as often as it is owned. -/
def owned (t : Tree) : List NodeId := (List.range t.size).flatMap t.children

theorem mem_owned {child : NodeId} : child ∈ t.owned ↔ ∃ owner, child ∈ t.children owner := by
  rw [owned, List.mem_flatMap]
  constructor
  · rintro ⟨owner, _, hchild⟩
    exact ⟨owner, hchild⟩
  · rintro ⟨owner, hchild⟩
    refine ⟨owner, List.mem_range.2 ?_, hchild⟩
    by_contra hlt
    rw [children_eq_nil_of_size_le (Nat.le_of_not_lt hlt)] at hchild
    cases hchild

theorem children_add (t : Tree) (k : Node.Kind) (line : Nat) (id : NodeId) :
    (t.add k line).2.children id = if id = t.size then k.children else t.children id := by
  rcases Nat.lt_trichotomy id t.size with hlt | heq | hlt
  · rw [if_neg (Nat.ne_of_lt hlt), children, children, kind, kind, node_add_of_lt hlt]
  · rw [if_pos heq, heq, children, kind, node_add_self]
  · have hle : (t.add k line).2.size ≤ id := by
      rw [size_add]
      exact hlt
    rw [if_neg (Nat.ne_of_gt hlt), children_eq_nil_of_size_le hle,
      children_eq_nil_of_size_le (Nat.le_of_lt hlt)]

theorem children_pushItem_of_ne {item : NodeId} (h : id ≠ 0) :
    (t.pushItem item).children id = t.children id := by
  rw [children, children, kind, kind, node_pushItem_of_ne t item h]

theorem owned_add (t : Tree) (k : Node.Kind) (line : Nat) :
    (t.add k line).2.owned = t.owned ++ k.children := by
  have hold : ∀ id ∈ List.range t.size, (t.add k line).2.children id = t.children id :=
    fun id hid => by rw [children_add, if_neg (Nat.ne_of_lt (List.mem_range.1 hid))]
  rw [owned, size_add, List.range_succ, List.flatMap_append, List.flatMap_singleton,
    children_add, if_pos rfl, List.flatMap_congr hold, owned]

/-- A new item is owned by the root, and nothing else changes hands. -/
theorem owned_pushItem (ht : t.Rooted) (item : NodeId) :
    (t.pushItem item).owned.Perm (item :: t.owned) := by
  obtain ⟨n, hn⟩ := Nat.exists_eq_succ_of_ne_zero (Nat.ne_of_gt ht.size_pos)
  have hrest : ∀ id ∈ (List.range n).map Nat.succ,
      (t.pushItem item).children id = t.children id := by
    intro id hid
    obtain ⟨m, _, rfl⟩ := List.mem_map.1 hid
    exact children_pushItem_of_ne (Nat.succ_ne_zero m)
  have hzero : (t.pushItem item).children 0 = t.children 0 ++ [item] := items_pushItem ht item
  rw [owned, size_pushItem, owned, hn, List.range_succ_eq_map, List.flatMap_cons,
    List.flatMap_cons, hzero, List.flatMap_congr hrest, List.append_assoc]
  exact List.perm_middle

/-! ## One owner -/

/-- A tree whose nodes are owned once at most, those in hand not at all, and all links
lead to the owners. -/
structure SinglyOwned (t : Tree) (ids : List NodeId) : Prop where
  rooted : t.Rooted
  /-- There is a link for each node. -/
  size_parents : t.parents.size = t.size
  bounds : ∀ id ∈ ids ++ t.owned, 0 < id ∧ id < t.size
  nodup : (ids ++ t.owned).Nodup
  linked : ∀ owner, ∀ child ∈ t.children owner, t.parent child = some owner
  descends : ∀ owner, owner ≠ 0 → ∀ child ∈ t.children owner, child < owner
  unlinked : t.parent 0 = none

theorem singlyOwned_empty : empty.SinglyOwned [] where
  rooted := rooted_empty
  size_parents := rfl
  bounds := by decide
  nodup := by decide
  linked owner child hchild := by
    have howned : child ∈ empty.owned := mem_owned.2 ⟨owner, hchild⟩
    cases howned
  descends owner _ child hchild := by
    have howned : child ∈ empty.owned := mem_owned.2 ⟨owner, hchild⟩
    cases howned
  unlinked := rfl

namespace SinglyOwned

variable {ids ids' : List NodeId} {k : Node.Kind}

theorem of_append (h : t.SinglyOwned (ids ++ ids')) : t.SinglyOwned ids where
  rooted := h.rooted
  size_parents := h.size_parents
  bounds id hid := by
    apply h.bounds id
    rw [List.append_assoc]
    rcases List.mem_append.1 hid with hid | hid
    · exact List.mem_append_left _ hid
    · exact List.mem_append_right _ (List.mem_append_right _ hid)
  nodup := by
    refine h.nodup.sublist ?_
    rw [List.append_assoc]
    exact (List.sublist_append_right ids' t.owned).append_left ids
  linked := h.linked
  descends := h.descends
  unlinked := h.unlinked

/-- A node in hand may be put below a new one: no other node loses it. -/
theorem add (h : t.SinglyOwned (ids ++ k.children)) (line : Nat) :
    (t.add k line).2.SinglyOwned (ids ++ [t.size]) := by
  have hperm : (ids ++ [t.size] ++ (t.add k line).2.owned).Perm
      (t.size :: (ids ++ k.children ++ t.owned)) := by
    have hcomm : (t.owned ++ k.children).Perm (k.children ++ t.owned) := List.perm_append_comm
    rw [owned_add, List.append_assoc, List.append_assoc]
    exact List.perm_middle.trans (.cons _ (.append_left _ hcomm))
  have hnew : ∀ child ∈ k.children, 0 < child ∧ child < t.size := by
    intro child hchild
    exact h.bounds child (List.mem_append_left _ (List.mem_append_right _ hchild))
  -- What has an owner is not in hand, so the new node does not own it.
  have hfree : ∀ child ∈ t.owned, child ∉ k.children := by
    intro child howned hchild
    exact (List.nodup_append.1 h.nodup).2.2 child (List.mem_append_right _ hchild) child howned rfl
  refine ⟨rooted_add h.rooted k line, ?_, ?_, ?_, ?_, ?_, ?_⟩
  · rw [size_parents_add, size_add, h.size_parents]
  · intro id hid
    rw [size_add]
    rcases List.mem_cons.1 (hperm.mem_iff.1 hid) with rfl | hid
    · exact ⟨h.rooted.size_pos, Nat.lt_succ_self _⟩
    · obtain ⟨hpos, hlt⟩ := h.bounds id hid
      exact ⟨hpos, Nat.lt_succ_of_lt hlt⟩
  · rw [hperm.nodup_iff]
    refine List.nodup_cons.2 ⟨?_, h.nodup⟩
    intro hmem
    exact Nat.lt_irrefl _ (h.bounds _ hmem).2
  · intro owner child hchild
    rw [children_add] at hchild
    rw [parent_add]
    split at hchild
    next howner =>
      have hlt := (hnew child hchild).2
      rw [if_pos ⟨hchild, h.size_parents ▸ hlt⟩, howner]
    next =>
      have howned : child ∈ t.owned := mem_owned.2 ⟨owner, hchild⟩
      rw [if_neg fun hmem => hfree child howned hmem.1]
      exact h.linked owner child hchild
  · intro owner hne child hchild
    rw [children_add] at hchild
    split at hchild
    next howner =>
      rw [howner]
      exact (hnew child hchild).2
    next => exact h.descends owner hne child hchild
  · rw [parent_add, if_neg fun hmem => Nat.lt_irrefl 0 (hnew 0 hmem.1).1]
    exact h.unlinked

/-- A node in hand may become an item. -/
theorem pushItem (h : t.SinglyOwned [id]) : (t.pushItem id).SinglyOwned [] := by
  have hperm := owned_pushItem h.rooted id
  have hid := h.bounds id List.mem_cons_self
  have hfree : id ∉ t.owned := (List.nodup_cons.1 h.nodup).1
  have hold {owner child : NodeId} (hchild : child ∈ (t.pushItem id).children owner) :
      child ∈ t.children owner ∨ owner = 0 ∧ child = id := by
    by_cases howner : owner = 0
    · subst howner
      have hchild' : child ∈ t.items ++ [id] := items_pushItem h.rooted id ▸ hchild
      rcases List.mem_append.1 hchild' with hchild' | hchild'
      · exact .inl hchild'
      · exact .inr ⟨rfl, List.mem_singleton.1 hchild'⟩
    · rw [children_pushItem_of_ne howner] at hchild
      exact .inl hchild
  refine ⟨rooted_pushItem h.rooted id, ?_, ?_, ?_, ?_, ?_, ?_⟩
  · rw [size_parents_pushItem, size_pushItem, h.size_parents]
  · intro j hj
    rw [size_pushItem]
    exact h.bounds j (hperm.mem_iff.1 hj)
  · exact hperm.nodup_iff.2 h.nodup
  · intro owner child hchild
    rw [parent_pushItem]
    rcases hold hchild with hchild | ⟨rfl, rfl⟩
    · have howned : child ∈ t.owned := mem_owned.2 ⟨owner, hchild⟩
      have hne : child ≠ id := fun heq => hfree (heq ▸ howned)
      rw [if_neg fun heq => hne heq.1]
      exact h.linked owner child hchild
    · rw [if_pos ⟨rfl, h.size_parents ▸ hid.2⟩]
  · intro owner hne child hchild
    rcases hold hchild with hchild | ⟨rfl, rfl⟩
    · exact h.descends owner hne child hchild
    · exact absurd rfl hne
  · rw [parent_pushItem, if_neg fun heq => Nat.ne_of_lt hid.1 heq.1]
    exact h.unlinked

end SinglyOwned

/-- No node is ever taken away from its owner while a tree is built. -/
theorem handInvariant_singlyOwned : HandInvariant SinglyOwned where
  of_append := SinglyOwned.of_append
  add line h _ := h.add line
  pushItem := SinglyOwned.pushItem

/-! ## Proper trees -/

/-- Below the root every node has one place, which its link tells, and the root has none. -/
structure IsProper (t : Tree) : Prop where
  /-- One node has it below itself, once, and is its parent. -/
  owner : ∀ id, t.Reaches id → id ≠ 0 →
    ∃ owner, t.Reaches owner ∧ (t.children owner).count id = 1 ∧ t.parent id = some owner ∧
      ∀ other, id ∈ t.children other → other = owner
  root : t.parent 0 = none ∧ ∀ owner, 0 ∉ t.children owner
  descends : ∀ owner, owner ≠ 0 → ∀ child ∈ t.children owner, child < owner

namespace SinglyOwned

variable {ids : List NodeId}

theorem nodup_children (h : t.SinglyOwned ids) (owner : NodeId) : (t.children owner).Nodup := by
  by_cases hlt : owner < t.size
  · have howned := (List.nodup_append.1 h.nodup).2.1
    exact (List.nodup_flatMap.1 howned).1 owner (List.mem_range.2 hlt)
  · rw [children_eq_nil_of_size_le (Nat.le_of_not_lt hlt)]
    exact .nil

theorem isProper (h : t.SinglyOwned ids) : t.IsProper where
  owner id hid hne := by
    cases hid with
    | refl => exact absurd rfl hne
    | @tail owner _ howner hchild =>
        have hlink := h.linked owner id hchild
        refine ⟨owner, howner, List.count_eq_one_of_mem (h.nodup_children owner) hchild, hlink, ?_⟩
        intro other hother
        rw [h.linked other id hother] at hlink
        exact Option.some.inj hlink
  root := by
    refine ⟨h.unlinked, ?_⟩
    intro owner hchild
    exact Nat.lt_irrefl 0 (h.bounds 0 (List.mem_append_right _ (mem_owned.2 ⟨owner, hchild⟩))).1
  descends := h.descends

/-- The links of such a tree are all right. -/
theorem normalize_eq (h : t.SinglyOwned ids) : t.normalize = ⟨t, 0⟩ := by
  have hadopt (owner : NodeId) : Repair.adopt ⟨t, 0⟩ owner = ⟨t, 0⟩ := by
    have hlinked := h.linked owner
    unfold Repair.adopt
    dsimp only
    generalize t.children owner = children at hlinked
    induction children with
    | nil => rfl
    | cons child children ih =>
        have hlink : Repair.link ⟨t, 0⟩ child (some owner) = ⟨t, 0⟩ :=
          if_pos (hlinked child List.mem_cons_self)
        rw [List.foldl_cons, hlink]
        exact ih fun id hid => hlinked id (List.mem_cons_of_mem _ hid)
  have hfold (vs : List Visit) :
      vs.foldl (fun (r : Repair) v => r.adopt v.id) ⟨t, 0⟩ = ⟨t, 0⟩ := by
    induction vs with
    | nil => rfl
    | cons v vs ih => rw [List.foldl_cons, hadopt, ih]
  have hroot : Repair.link ⟨t, 0⟩ 0 none = ⟨t, 0⟩ := if_pos h.unlinked
  rw [normalize, foldDown_eq_foldl, hadopt, hfold, hroot]

end SinglyOwned

end Asm6502.Tree
