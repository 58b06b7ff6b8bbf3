import Asm6502.Tree.Basic

/-!
# How a tree under construction grows

While a program is read, its tree changes in two ways only: nodes are added
behind all others, and items are appended to the root.  Neither touches a node
that is no root, so whatever has been said about a part of the tree below the
root stays true.  `Grows` is the first way, and `Keeps` is what both have in
common.

A root is the one kind whose content may change.  A number that has not been
given out reads as an empty root (see `Tree.node`), so "no root" also says that
the number has been given out.

A node is added behind what it owns, so below the root the numbers go down from
owner to owned: the tree descends.  Walks over it rest on that.

## Main results

* `grows_add`, `grows_addList` — adding nodes only adds.
* `Grows.descends`, `descends_pushItem` — a tree under construction descends.
* `keeps_pushItem`, `items_pushItem` — a new item changes nothing below the root.
* `lists_addList` — the cells added for a list lead through its items in order.
-/

namespace Asm6502.Tree

variable {t t' t'' : Tree} {id : NodeId}

/-- The number belongs to a node that is no root. -/
def IsInner (t : Tree) (id : NodeId) : Prop := ∀ items, t.kind id ≠ .root items

theorem isInner_of_kind {k : Node.Kind} (h : t.kind id = k) (hk : ∀ items, k ≠ .root items) :
    t.IsInner id := by
  intro items hroot
  exact hk items (h.symm.trans hroot)

theorem node_eq_of_size_le (h : t.size ≤ id) : t.node id = ⟨.root [], 0⟩ := by
  rw [node, Array.getD, dif_neg]
  exact Nat.not_lt.2 h

theorem IsInner.lt_size (h : t.IsInner id) : id < t.size := by
  by_cases hlt : id < t.size
  · exact hlt
  · have hnode := node_eq_of_size_le (Nat.le_of_not_lt hlt)
    exact absurd (by rw [kind, hnode]) (h [])

/-! ## Adding nodes -/

/-- The tree `t'` is `t` with nodes added behind all others, each of them behind what
it owns. -/
structure Grows (t t' : Tree) : Prop where
  size_le : t.size ≤ t'.size
  node_eq : ∀ id < t.size, t'.node id = t.node id
  owns : ∀ id, t.size ≤ id → ∀ child ∈ t'.children id, child < id ∧ t'.IsInner child

theorem children_eq_nil_of_size_le (h : t.size ≤ id) : t.children id = [] := by
  rw [children, kind, node_eq_of_size_le h]
  rfl

theorem isInner_of_node_eq (hnode : t'.node id = t.node id) (h : t.IsInner id) :
    t'.IsInner id := by
  intro items
  rw [kind, hnode]
  exact h items

namespace Grows

theorem refl (t : Tree) : t.Grows t where
  size_le := Nat.le_refl _
  node_eq _ _ := rfl
  owns id hid child hchild := by
    rw [children_eq_nil_of_size_le hid] at hchild
    cases hchild

theorem isInner (h : t.Grows t') (hid : t.IsInner id) : t'.IsInner id :=
  isInner_of_node_eq (h.node_eq id hid.lt_size) hid

theorem trans (h : t.Grows t') (h' : t'.Grows t'') : t.Grows t'' where
  size_le := Nat.le_trans h.size_le h'.size_le
  node_eq id hid := by
    rw [h'.node_eq id (Nat.lt_of_lt_of_le hid h.size_le), h.node_eq id hid]
  owns id hid child hchild := by
    by_cases hid' : id < t'.size
    · rw [children, kind, h'.node_eq id hid'] at hchild
      have hold := h.owns id hid child hchild
      exact ⟨hold.1, h'.isInner hold.2⟩
    · exact h'.owns id (Nat.le_of_not_lt hid') child hchild

end Grows

theorem node_add_of_lt {k : Node.Kind} {line : Nat} (h : id < t.size) :
    (t.add k line).2.node id = t.node id := by
  have hsize : id < t.nodes.size := h
  have hpush : id < (t.nodes.push ⟨k, line⟩).size := by
    rw [Array.size_push]
    exact Nat.lt_succ_of_lt h
  rw [node, node, nodes_add, Array.getD, Array.getD, dif_pos hpush, dif_pos hsize]
  exact Array.getElem_push_lt h

theorem node_add_self (t : Tree) (k : Node.Kind) (line : Nat) :
    (t.add k line).2.node t.size = ⟨k, line⟩ := by
  have hpush : t.size < (t.nodes.push ⟨k, line⟩).size := by
    rw [Array.size_push]
    exact Nat.lt_succ_self _
  rw [node, nodes_add, Array.getD, dif_pos hpush]
  exact Array.getElem_push_eq

theorem grows_add {k : Node.Kind} (line : Nat) (hk : ∀ child ∈ k.children, t.IsInner child) :
    t.Grows (t.add k line).2 where
  size_le := by
    rw [size_add]
    exact Nat.le_succ _
  node_eq _ hid := node_add_of_lt hid
  owns id hid child hchild := by
    by_cases hself : id = t.size
    · subst hself
      rw [children, kind, node_add_self] at hchild
      have hlt := (hk child hchild).lt_size
      exact ⟨hlt, isInner_of_node_eq (node_add_of_lt hlt) (hk child hchild)⟩
    · have hsize : (t.add k line).2.size ≤ id := by
        rw [size_add]
        omega
      rw [children_eq_nil_of_size_le hsize] at hchild
      cases hchild

/-- The first cell added for a list is no root. -/
theorem isInner_of_fst_addList {items : List NodeId} (h : (t.addList items).1 = some id) :
    (t.addList items).2.IsInner id := by
  cases items with
  | nil => cases h
  | cons item items =>
      cases h
      exact isInner_of_kind (congrArg Node.kind (node_add_self _ _ _)) (by simp)

theorem grows_addList {items : List NodeId} (hitems : ∀ item ∈ items, t.IsInner item) :
    t.Grows (t.addList items).2 := by
  induction items with
  | nil => exact .refl t
  | cons item items ih =>
      have hrest := ih fun i hi => hitems i (List.mem_cons_of_mem _ hi)
      refine hrest.trans (grows_add _ ?_)
      intro child hchild
      rcases List.mem_cons.1 hchild with rfl | hchild
      · exact hrest.isInner (hitems _ List.mem_cons_self)
      · exact isInner_of_fst_addList (Option.mem_toList.1 hchild)

/-! ## What stays true -/

/-- Every node of `t` that is no root is found unchanged in `t'`. -/
def Keeps (t t' : Tree) : Prop := ∀ id, t.IsInner id → t'.node id = t.node id

namespace Keeps

theorem trans (h : t.Keeps t') (h' : t'.Keeps t'') : t.Keeps t'' := by
  intro id hid
  have hnode := h id hid
  rw [h' id (isInner_of_node_eq hnode hid), hnode]

/-- The form in which a tree is looked at: by the node of a known kind. -/
theorem node_eq (h : t.Keeps t') {n : Node} (hn : t.node id = n)
    (hk : ∀ items, n.kind ≠ .root items) : t'.node id = n := by
  have hid : t.IsInner id := by
    intro items
    rw [kind, hn]
    exact hk items
  rw [h id hid, hn]

theorem line_eq (h : t.Keeps t') (hid : t.IsInner id) : t'.line id = t.line id := by
  rw [line, line, h id hid]

end Keeps

theorem Grows.keeps (h : t.Grows t') : t.Keeps t' := fun id hid => h.node_eq id hid.lt_size

/-! ## The root -/

/-- Node zero is there, and it is a root, in front of the first line. -/
structure Rooted (t : Tree) : Prop where
  size_pos : 0 < t.size
  kind_eq : t.kind 0 = .root t.items
  line_eq : t.line 0 = 0

theorem rooted_empty : empty.Rooted := ⟨Nat.zero_lt_one, rfl, rfl⟩

theorem Grows.items_eq (h : t.Grows t') (ht : t.Rooted) : t'.items = t.items := by
  rw [items, items, children, children, kind, kind, h.node_eq 0 ht.size_pos]

theorem Grows.rooted (h : t.Grows t') (ht : t.Rooted) : t'.Rooted where
  size_pos := Nat.lt_of_lt_of_le ht.size_pos h.size_le
  kind_eq := by
    rw [h.items_eq ht, kind, h.node_eq 0 ht.size_pos]
    exact ht.kind_eq
  line_eq := by
    rw [line, h.node_eq 0 ht.size_pos]
    exact ht.line_eq

theorem items_add (ht : t.Rooted) (k : Node.Kind) (line : Nat) :
    (t.add k line).2.items = t.items := by
  rw [items, items, children, children, kind, kind, node_add_of_lt ht.size_pos]

theorem rooted_add (ht : t.Rooted) (k : Node.Kind) (line : Nat) : (t.add k line).2.Rooted where
  size_pos := by
    rw [size_add]
    exact Nat.succ_pos _
  kind_eq := by
    rw [items_add ht, kind, node_add_of_lt ht.size_pos]
    exact ht.kind_eq
  line_eq := by
    rw [Tree.line, node_add_of_lt ht.size_pos]
    exact ht.line_eq

theorem size_pushItem (t : Tree) (id : NodeId) : (t.pushItem id).size = t.size := by
  simp [pushItem, setParent, size]

theorem node_pushItem_of_ne (t : Tree) (item : NodeId) (h : id ≠ 0) :
    (t.pushItem item).node id = t.node id := by
  simp only [pushItem, setParent, node, Array.getD, Array.size_modify, Array.getInternal_eq_getElem,
    Array.getElem_modify, h.symm, if_false]

theorem kind_pushItem_zero (ht : 0 < t.size) (item : NodeId) :
    (t.pushItem item).kind 0 = (t.kind 0).appendItem item := by
  have hsize : 0 < t.nodes.size := ht
  simp [pushItem, setParent, kind, node, Array.getD, hsize, Array.getElem_modify]

theorem line_pushItem (t : Tree) (item id : NodeId) : (t.pushItem item).line id = t.line id := by
  by_cases hid : id < t.nodes.size
  · simp only [pushItem, setParent, line, node, Array.getD, Array.size_modify, hid, dif_pos,
      Array.getInternal_eq_getElem, Array.getElem_modify]
    split
    · rfl
    · rfl
  · simp [pushItem, setParent, line, node, Array.getD, hid]

theorem items_pushItem (ht : t.Rooted) (item : NodeId) :
    (t.pushItem item).items = t.items ++ [item] := by
  rw [items, children, kind_pushItem_zero ht.size_pos, ht.kind_eq]
  rfl

theorem rooted_pushItem (ht : t.Rooted) (item : NodeId) : (t.pushItem item).Rooted where
  size_pos := by
    rw [size_pushItem]
    exact ht.size_pos
  kind_eq := by
    rw [items_pushItem ht, kind_pushItem_zero ht.size_pos, ht.kind_eq]
    rfl
  line_eq := by
    rw [line_pushItem]
    exact ht.line_eq

theorem Rooted.ne_zero_of_isInner (ht : t.Rooted) (hid : t.IsInner id) : id ≠ 0 := by
  rintro rfl
  exact hid _ ht.kind_eq

theorem keeps_pushItem (ht : t.Rooted) (item : NodeId) : t.Keeps (t.pushItem item) := by
  intro id hid
  exact node_pushItem_of_ne t item (ht.ne_zero_of_isInner hid)

/-! ## Numbers go down -/

/-- Below the root, every node is numbered behind what it owns, and no node owns the
root. -/
def Descends (t : Tree) : Prop :=
  ∀ id, t.IsInner id → ∀ child ∈ t.children id, child < id ∧ t.IsInner child

theorem descends_empty : empty.Descends := by
  intro id hid
  have hlt := hid.lt_size
  have hzero : id = 0 := Nat.lt_one_iff.1 hlt
  subst hzero
  exact absurd rfl (hid [])

theorem Grows.descends (h : t.Grows t') (ht : t.Descends) : t'.Descends := by
  intro id hid child hchild
  by_cases hlt : id < t.size
  · have hnode := h.node_eq id hlt
    rw [children, kind, hnode] at hchild
    have hold := ht id (isInner_of_node_eq hnode.symm hid) child hchild
    exact ⟨hold.1, h.isInner hold.2⟩
  · exact h.owns id (Nat.le_of_not_lt hlt) child hchild

theorem descends_pushItem (hroot : t.Rooted) (ht : t.Descends) (item : NodeId) :
    (t.pushItem item).Descends := by
  intro id hid child hchild
  have hne : id ≠ 0 := (rooted_pushItem hroot item).ne_zero_of_isInner hid
  have hnode := node_pushItem_of_ne t item hne
  rw [children, kind, hnode] at hchild
  have hold := ht id (isInner_of_node_eq hnode.symm hid) child hchild
  exact ⟨hold.1, isInner_of_node_eq (keeps_pushItem hroot item child hold.2) hold.2⟩

/-! ## Ordered lists -/

/-- The cells from `head` on lead through the given items in order, and each has the
line of its item. -/
def Lists (t : Tree) : Option NodeId → List NodeId → Prop
  | head, [] => head = none
  | head, item :: items =>
    ∃ cell next, head = some cell ∧ t.node cell = ⟨.list item next, t.line item⟩ ∧
      t.Lists next items

/-- The first cell of a list is no root. -/
theorem Lists.isInner {head : NodeId} {items : List NodeId} (h : t.Lists (some head) items) :
    t.IsInner head := by
  cases items with
  | nil => cases h
  | cons item items =>
      obtain ⟨cell, next, hhead, hnode, _⟩ := h
      cases hhead
      exact isInner_of_kind (congrArg Node.kind hnode) (by simp)

theorem Lists.keeps {head : Option NodeId} {items : List NodeId} (h : t.Lists head items)
    (hk : t.Keeps t') (hitems : ∀ item ∈ items, t.IsInner item) : t'.Lists head items := by
  induction items generalizing head with
  | nil => exact h
  | cons item items ih =>
      obtain ⟨cell, next, hhead, hnode, hmore⟩ := h
      have hline := hk.line_eq (hitems item List.mem_cons_self)
      refine ⟨cell, next, hhead, ?_, ih hmore fun i hi => hitems i (List.mem_cons_of_mem _ hi)⟩
      rw [hline]
      exact hk.node_eq hnode (by simp)

theorem lists_addList (t : Tree) {items : List NodeId} (hitems : ∀ item ∈ items, t.IsInner item) :
    (t.addList items).2.Lists (t.addList items).1 items := by
  induction items with
  | nil => rfl
  | cons item items ih =>
      have hrest : ∀ i ∈ items, t.IsInner i := fun i hi => hitems i (List.mem_cons_of_mem _ hi)
      let t' := (t.addList items).2
      let next := (t.addList items).1
      have hgrows : t.Grows t' := grows_addList hrest
      have hcell : t'.Keeps (t'.add (.list item next) (t'.line item)).2 :=
        fun _ hid => node_add_of_lt hid.lt_size
      have hline : (t'.add (.list item next) (t'.line item)).2.line item = t'.line item :=
        hcell.line_eq (hgrows.isInner (hitems item List.mem_cons_self))
      have hmore := (ih hrest).keeps hcell fun i hi => hgrows.isInner (hrest i hi)
      refine ⟨t'.size, next, rfl, ?_, hmore⟩
      show (t'.add (.list item next) (t'.line item)).2.node t'.size =
        ⟨.list item next, (t'.add (.list item next) (t'.line item)).2.line item⟩
      rw [hline]
      exact node_add_self _ _ _

end Asm6502.Tree
