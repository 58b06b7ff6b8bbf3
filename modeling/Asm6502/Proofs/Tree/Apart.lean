import Asm6502.Proofs.Tree.Hand
import Asm6502.Proofs.Tree.Preorder

/-!
# Nodes that share nothing

Nothing in a tree of numbered nodes keeps two of them from owning the same third one, and
a walk over such a tree would visit that node twice.  Trees are built from the bottom,
though, and what is put below a new node is not used again.  To say this, look at the
nodes still to be put below others: they are apart if they lead to different nodes, and
each of them leads to each node in one way only.  Then this holds of a new node above some
of them too.

## Main results

* `Apart.add`, `handInvariant_apart` — new nodes are apart from those that are left.
* `Unshared.nodup_walk` — a walk over a tree that is built that way visits each node once.
-/

namespace Asm6502.Tree

variable {t t' : Tree} {id : NodeId}

theorem isInner_of_mem_preorder (ht : t.Descends) {top : NodeId} (htop : t.IsInner top)
    (hid : id ∈ t.preorder top) : t.IsInner id := by
  induction top using Nat.strongRecOn with
  | ind top ih =>
    rw [preorder_eq ht htop] at hid
    rcases List.mem_cons.1 hid with rfl | hid
    · exact htop
    · obtain ⟨child, hchild, hid⟩ := List.mem_flatMap.1 hid
      obtain ⟨hlt, hinner⟩ := ht top htop child hchild
      exact ih child hlt hinner hid

/-- What a node leads to stays as it is while a tree is built. -/
theorem preorder_eq_of_keeps (ht : t.Descends) (hkeeps : t.Keeps t') (hid : t.IsInner id) :
    t'.preorder id = t.preorder id := by
  induction id using Nat.strongRecOn with
  | ind id ih =>
    rw [preorder_eq_filter, preorder_eq_filter, children, children, kind, kind, hkeeps id hid]
    refine congrArg _ (List.flatMap_congr ?_)
    intro child hchild
    obtain ⟨hmem, hlt⟩ := List.mem_filter.1 hchild
    exact ih child (of_decide_eq_true hlt) (ht id hid child hmem).2

/-- The nodes, and all that they lead to, are different nodes below the root. -/
structure Apart (t : Tree) (ids : List NodeId) : Prop where
  descends : t.Descends
  isInner : ∀ id ∈ ids, t.IsInner id
  nodup : (ids.flatMap t.preorder).Nodup

theorem apart_nil (ht : t.Descends) : t.Apart [] := ⟨ht, by simp, .nil⟩

namespace Apart

variable {ids ids' items : List NodeId} {k : Node.Kind}

theorem flatMap_preorder_eq (h : t.Apart ids) (hkeeps : t.Keeps t') :
    ids.flatMap t'.preorder = ids.flatMap t.preorder :=
  List.flatMap_congr fun id hid => preorder_eq_of_keeps h.descends hkeeps (h.isInner id hid)

theorem lt_size (h : t.Apart ids) (hid : id ∈ ids.flatMap t.preorder) : id < t.size := by
  obtain ⟨top, htop, hid⟩ := List.mem_flatMap.1 hid
  exact (isInner_of_mem_preorder h.descends (h.isInner top htop) hid).lt_size

/-- Nodes may be given up. -/
theorem of_append (h : t.Apart (ids ++ ids')) : t.Apart ids where
  descends := h.descends
  isInner id hid := h.isInner id (List.mem_append_left _ hid)
  nodup := by
    have hnodup := h.nodup
    rw [List.flatMap_append] at hnodup
    exact (List.nodup_append.1 hnodup).1

/-- A node may be added above the last ones. -/
theorem add (h : t.Apart (ids ++ k.children)) (hk : ∀ items, k ≠ .root items) (line : Nat) :
    (t.add k line).2.Apart (ids ++ [t.size]) := by
  have hchildren : ∀ child ∈ k.children, t.IsInner child := by
    intro child hchild
    exact h.isInner child (List.mem_append_right _ hchild)
  have hgrows := grows_add line hchildren
  have hkind : (t.add k line).2.kind t.size = k := congrArg Node.kind (node_add_self t k line)
  have hnew : (t.add k line).2.IsInner t.size := isInner_of_kind hkind hk
  have hkept := h.flatMap_preorder_eq hgrows.keeps
  refine ⟨hgrows.descends h.descends, ?_, ?_⟩
  · intro id hid
    rcases List.mem_append.1 hid with hid | hid
    · exact hgrows.isInner (h.isInner id (List.mem_append_left _ hid))
    · rw [List.mem_singleton.1 hid]
      exact hnew
  · have hpreorder : (t.add k line).2.preorder t.size =
        t.size :: k.children.flatMap (t.add k line).2.preorder := by
      rw [preorder_eq (hgrows.descends h.descends) hnew, children, hkind]
    rw [List.flatMap_append, List.flatMap_singleton, hpreorder, List.perm_middle.nodup_iff,
      ← List.flatMap_append, hkept]
    refine List.nodup_cons.2 ⟨?_, h.nodup⟩
    intro hmem
    exact Nat.lt_irrefl _ (h.lt_size hmem)

end Apart

/-! ## Whole trees -/

/-- A tree whose items share nothing, so that no node has two places in it. -/
structure Unshared (t : Tree) : Prop where
  rooted : t.Rooted
  apart : t.Apart t.items

/-- The items of the root and the nodes in hand are apart as long as a tree is built. -/
theorem handInvariant_apart : HandInvariant fun t ids => t.Rooted ∧ t.Apart (t.items ++ ids) where
  of_append := by
    rintro t ids ids' ⟨hroot, h⟩
    rw [← List.append_assoc] at h
    exact ⟨hroot, h.of_append⟩
  add := by
    rintro t ids k line ⟨hroot, h⟩ hk
    rw [← List.append_assoc] at h
    have hadd := h.add hk line
    rw [List.append_assoc] at hadd
    refine ⟨rooted_add hroot k line, ?_⟩
    rw [items_add hroot]
    exact hadd
  pushItem := by
    rintro t id ⟨hroot, h⟩
    have hkeeps := keeps_pushItem hroot id
    refine ⟨rooted_pushItem hroot id, ?_⟩
    rw [items_pushItem hroot, List.append_nil]
    refine ⟨descends_pushItem hroot h.descends id, ?_, ?_⟩
    · intro id' hid'
      exact isInner_of_node_eq (hkeeps id' (h.isInner id' hid')) (h.isInner id' hid')
    · rw [h.flatMap_preorder_eq hkeeps]
      exact h.nodup

namespace Unshared

/-- A walk visits what the root leads to. -/
theorem mem_walk_iff (h : t.Unshared) : id ∈ t.walk ↔ t.Reaches id :=
  mem_walk h.apart.descends h.apart.isInner

/-- It visits each node once. -/
theorem nodup_walk (h : t.Unshared) : t.walk.Nodup := by
  rw [walk_eq]
  refine List.nodup_cons.2 ⟨?_, h.apart.nodup⟩
  intro hzero
  obtain ⟨item, hitem, hzero⟩ := List.mem_flatMap.1 hzero
  have hinner := isInner_of_mem_preorder h.apart.descends (h.apart.isInner item hitem) hzero
  exact h.rooted.ne_zero_of_isInner hinner rfl

end Unshared

end Asm6502.Tree
