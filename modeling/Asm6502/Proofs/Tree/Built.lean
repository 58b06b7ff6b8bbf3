import Asm6502.Proofs.Tree.Preorder
import Asm6502.Tree.Links

/-!
# What the operations on trees build

A tree is built from the empty one by adding nodes, appending items to the root,
classifying labels and repairing links.  A new node may own whatever has been given a
number, the root included: nothing forbids owning a node twice or owning the root.  But
only the root gets new children later, so every other node has a higher number than what
it owns.

If the root does not lead back to itself, all ways from its items go down, and the walk
takes each of their steps.

## Main results

* `Built.numbered` — children have smaller numbers, but for those of the root.
* `Numbered.mem_walk`, `Numbered.below_eq` — the walk leaves no step out.
-/

namespace Asm6502.Tree

variable {t t' : Tree} {id child : NodeId}

/-- The trees that the operations build, if they are given numbers of nodes only. -/
inductive Built : Tree → Prop where
  | empty : Built .empty
  | add {t : Tree} {k : Node.Kind} {line : Nat} (ht : Built t)
      (hk : ∀ child ∈ k.children, child < t.size) : Built (t.add k line).2
  | pushItem {t : Tree} {id : NodeId} (ht : Built t) (hid : id < t.size) : Built (t.pushItem id)
  | setLabelType {t t' : Tree} {id : NodeId} {type : LabelType} (ht : Built t)
      (h : t.setLabelType? id type = some t') : Built t'
  | normalize {t : Tree} (ht : Built t) : Built t.normalize.tree

/-- Lists are built by adding their cells. -/
theorem Built.addList (ht : t.Built) {items : List NodeId}
    (hitems : ∀ item ∈ items, item < t.size) :
    (t.addList items).2.Built ∧ t.size ≤ (t.addList items).2.size ∧
      ∀ head ∈ (t.addList items).1, head < (t.addList items).2.size := by
  induction items with
  | nil =>
      refine ⟨ht, Nat.le_refl _, ?_⟩
      rintro head ⟨⟩
  | cons item items ih =>
      obtain ⟨hbuilt, hsize, hhead⟩ := ih fun i hi => hitems i (List.mem_cons_of_mem _ hi)
      refine ⟨.add hbuilt ?_, ?_, ?_⟩
      · intro child hchild
        rcases List.mem_cons.1 hchild with rfl | hchild
        · exact Nat.lt_of_lt_of_le (hitems _ List.mem_cons_self) hsize
        · exact hhead child (Option.mem_toList.1 hchild)
      · have hnew : (t.addList (item :: items)).2.size = (t.addList items).2.size + 1 :=
          size_add _ _ _
        omega
      · rintro head ⟨⟩
        exact Nat.lt_of_lt_of_eq (Nat.lt_succ_self _) (size_add _ _ _).symm

/-! ## Numbers -/

/-- Node zero is a root, and every other node has a higher number than what it owns. -/
structure Numbered (t : Tree) : Prop where
  rooted : t.Rooted
  lt : ∀ id ≠ 0, ∀ child ∈ t.children id, child < id

/-- What is classified is a label. -/
theorem kind_of_setLabelType? {type : LabelType} (h : t.setLabelType? id type = some t') :
    ∃ name below old, t.kind id = .label name below old := by
  obtain ⟨k, hk, _⟩ := Option.map_eq_some_iff.1 h
  cases hkind : t.kind id with
  | label name below old => exact ⟨name, below, old, rfl⟩
  | root | list | data | decl | name | const | wrap | sum | instruction =>
      rw [hkind] at hk
      cases hk

/-- Classifying a label changes nothing but its type. -/
theorem node_of_setLabelType? {type : LabelType} (h : t.setLabelType? id type = some t')
    (other : NodeId) : t'.line other = t.line other ∧ t'.children other = t.children other ∧
      (other ≠ id → t'.node other = t.node other) := by
  obtain ⟨k, hk, rfl⟩ := Option.map_eq_some_iff.1 h
  by_cases hother : other < t.nodes.size
  · by_cases hid : id = other
    · subst hid
      refine ⟨?_, ?_, fun hne => absurd rfl hne⟩
      · simp [line, node, Array.getD, hother, Array.getElem_modify]
      · have hkind : (Tree.mk (t.nodes.modify id fun n => { n with kind := k }) t.parents).kind id =
            k := by
          simp [kind, node, Array.getD, hother, Array.getElem_modify]
        rw [children, hkind, Node.Kind.children_of_classify? hk]
        rfl
    · have hnode :
          (Tree.mk (t.nodes.modify id fun n => { n with kind := k }) t.parents).node other =
            t.node other := by
        simp [node, Array.getD, hother, Array.getElem_modify, hid]
      rw [line, line, children, children, kind, kind, hnode]
      exact ⟨rfl, rfl, fun _ => rfl⟩
  · have hnode : (Tree.mk (t.nodes.modify id fun n => { n with kind := k }) t.parents).node other =
        t.node other := by
      simp [node, Array.getD, hother]
    rw [line, line, children, children, kind, kind, hnode]
    exact ⟨rfl, rfl, fun _ => rfl⟩

theorem size_of_setLabelType? {type : LabelType} (h : t.setLabelType? id type = some t') :
    t'.size = t.size := by
  obtain ⟨k, hk, rfl⟩ := Option.map_eq_some_iff.1 h
  exact Array.size_modify

theorem numbered_empty : empty.Numbered where
  rooted := rooted_empty
  lt id hid child hchild := by
    have hsize : empty.size ≤ id := Nat.one_le_iff_ne_zero.2 hid
    rw [children_eq_nil_of_size_le hsize] at hchild
    cases hchild

theorem Numbered.add (h : t.Numbered) {k : Node.Kind} (line : Nat)
    (hk : ∀ child ∈ k.children, child < t.size) : (t.add k line).2.Numbered where
  rooted := rooted_add h.rooted k line
  lt id hid child hchild := by
    rcases Nat.lt_trichotomy id t.size with hlt | rfl | hgt
    · rw [children, kind, node_add_of_lt hlt] at hchild
      exact h.lt id hid child hchild
    · rw [children, kind, node_add_self] at hchild
      exact hk child hchild
    · have hsize : (t.add k line).2.size ≤ id := by
        rw [size_add]
        exact hgt
      rw [children_eq_nil_of_size_le hsize] at hchild
      cases hchild

theorem Numbered.pushItem (h : t.Numbered) (item : NodeId) : (t.pushItem item).Numbered where
  rooted := rooted_pushItem h.rooted item
  lt id hid child hchild := by
    rw [children, kind, node_pushItem_of_ne t item hid] at hchild
    exact h.lt id hid child hchild

theorem Numbered.setLabelType (h : t.Numbered) {type : LabelType}
    (ht' : t.setLabelType? id type = some t') : t'.Numbered where
  rooted := by
    have hzero : 0 ≠ id := by
      rintro rfl
      obtain ⟨name, below, old, hkind⟩ := kind_of_setLabelType? ht'
      rw [h.rooted.kind_eq] at hkind
      cases hkind
    have hnode := (node_of_setLabelType? ht' 0).2.2 hzero
    refine ⟨?_, ?_, ?_⟩
    · rw [size_of_setLabelType? ht']
      exact h.rooted.size_pos
    · rw [items, children, kind, hnode]
      exact h.rooted.kind_eq
    · rw [line, hnode]
      exact h.rooted.line_eq
  lt other hother child hchild := by
    rw [(node_of_setLabelType? ht' other).2.1] at hchild
    exact h.lt other hother child hchild

theorem Numbered.normalize (h : t.Numbered) : t.normalize.tree.Numbered := by
  have hnode (id : NodeId) : t.normalize.tree.node id = t.node id := by
    rw [node, nodes_normalize]
    rfl
  refine ⟨⟨?_, ?_, ?_⟩, ?_⟩
  · rw [size, nodes_normalize]
    exact h.rooted.size_pos
  · rw [items, children, kind, hnode]
    exact h.rooted.kind_eq
  · rw [line, hnode]
    exact h.rooted.line_eq
  · intro id hid child hchild
    rw [children, kind, hnode] at hchild
    exact h.lt id hid child hchild

/-- Children have smaller numbers, but for those of the root. -/
theorem Built.numbered (h : t.Built) : t.Numbered := by
  induction h with
  | empty => exact numbered_empty
  | add _ hk ih => exact ih.add _ hk
  | pushItem _ _ ih => exact ih.pushItem _
  | setLabelType _ h ih => exact ih.setLabelType h
  | normalize _ ih => exact ih.normalize

/-! ## Trees whose root has no owner -/

/-- A root that no node owns does not lead back to itself. -/
theorem not_leads_back (h : ∀ owner < t.size, 0 ∉ t.children owner) :
    ¬ Relation.TransGen (fun owner id => id ∈ t.children owner) 0 0 := by
  intro hleads
  obtain ⟨owner, _, howner⟩ := Relation.TransGen.tail'_iff.1 hleads
  by_cases hlt : owner < t.size
  · exact h owner hlt howner
  · rw [children_eq_nil_of_size_le (Nat.le_of_not_lt hlt)] at howner
    cases howner

namespace Numbered

/-- The walk lists exactly what the root leads to. -/
theorem mem_walk (h : t.Numbered) : id ∈ t.walk ↔ t.Reaches id :=
  mem_walk_of_lt fun owner _ hzero => h.lt owner hzero

/-- Below its items the root does not come again, unless it leads back to itself. -/
theorem ne_zero_of_mem_visits
    (hroot : ¬ Relation.TransGen (fun owner id => id ∈ t.children owner) 0 0) {v : Visit}
    (hv : v ∈ t.visits) : v.id ≠ 0 := by
  rw [visits_eq] at hv
  obtain ⟨top, htop, hv⟩ := List.mem_flatMap.1 hv
  obtain ⟨item, hitem, rfl⟩ := List.mem_map.1 htop
  have hmem : v.id ∈ t.preorder item := List.mem_map_of_mem hv
  intro hzero
  rw [hzero] at hmem
  exact hroot (.head' hitem (leads_of_mem_preorder hmem))

/-- The walk takes every step from a node to what it owns. -/
theorem below_eq (h : t.Numbered) {v : Visit} (hv : v.id ≠ 0) :
    t.below v = placed (t.kind v.id) v.level :=
  List.filter_eq_self.2 fun w hw =>
    decide_eq_true (h.lt v.id hv w.id (mem_children_of_mem_placed hw))

end Numbered

end Asm6502.Tree
