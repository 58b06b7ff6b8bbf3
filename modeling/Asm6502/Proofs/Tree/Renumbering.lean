import Asm6502.Proofs.Tree.Headings
import Asm6502.Proofs.Tree.Relinking
import Mathlib.Data.List.Forall2
import Mathlib.Data.Set.Function

/-!
# Twins

Nodes of two trees are twins if they say the same: their kinds are the same but for numbers,
an instruction was read from the same line, and what they own are twins in turn, pair by
pair.  From which lines other nodes were read plays no part.

If the roots are twins, so are any two nodes to which the same steps lead from the roots.  The
trees may still differ in what they share, for one tree may own a node twice where the other
has two of them.  Where nothing is shared, exactly one node of the other tree stands beside
each node, and the trees have the same nodes under different numbers.

## Main results

* `Beside.twins` — nodes in the same place are twins.
* `Beside.unique` — where nothing is shared, a node stands beside one other only.
* `exists_renumbers` — then the trees differ in numbers only.
-/

namespace Asm6502.Tree

variable {t t' : Tree} {id id' : NodeId}

/-- Nodes of two trees that say the same. -/
inductive Twins (t t' : Tree) : NodeId → NodeId → Prop where
  | node {id id' : NodeId} (bare : (t.kind id).bare = (t'.kind id').bare)
      (shown : (t.node id).shownLine? = (t'.node id').shownLine?)
      (below : List.Forall₂ (Twins t t') (t.children id) (t'.children id')) : Twins t t' id id'

/-! ## The same place -/

/-- Nodes of two trees in the same place: the same steps lead to them from the roots. -/
inductive Beside (t t' : Tree) : NodeId → NodeId → Prop where
  | root : Beside t t' 0 0
  | step {owner owner' child child' : NodeId} {k : Nat} (howner : Beside t t' owner owner')
      (hchild : (t.children owner)[k]? = some child)
      (hchild' : (t'.children owner')[k]? = some child') : Beside t t' child child'

theorem Beside.flip (h : t.Beside t' id id') : t'.Beside t id' id := by
  induction h with
  | root => exact .root
  | step _ hchild hchild' ih => exact .step ih hchild' hchild

theorem Beside.reaches (h : t.Beside t' id id') : t.Reaches id := by
  induction h with
  | root => exact .refl
  | step _ hchild _ ih => exact ih.tail (List.mem_of_getElem? hchild)

/-- If the roots are twins, so are all nodes in the same place. -/
theorem Beside.twins (hroot : t.Twins t' 0 0) (h : t.Beside t' id id') : t.Twins t' id id' := by
  induction h with
  | root => exact hroot
  | step _ hchild hchild' ih =>
      obtain ⟨_, _, hbelow⟩ := ih
      obtain ⟨hk, rfl⟩ := List.getElem?_eq_some_iff.1 hchild
      obtain ⟨hk', rfl⟩ := List.getElem?_eq_some_iff.1 hchild'
      exact hbelow.get hk hk'

/-- If nodes in the same place own the same number of nodes, some node stands beside each. -/
theorem exists_beside
    (hlength : ∀ id id', t.Beside t' id id' → (t.children id).length = (t'.children id').length)
    (hid : t.Reaches id) : ∃ id', t.Beside t' id id' := by
  induction hid with
  | refl => exact ⟨0, .root⟩
  | tail _ hchild ih =>
      obtain ⟨owner', howner⟩ := ih
      obtain ⟨k, hk, rfl⟩ := List.mem_iff_getElem.1 hchild
      have hk' : k < (t'.children owner').length := hlength _ _ howner ▸ hk
      exact ⟨_, .step howner (List.getElem?_eq_getElem hk) (List.getElem?_eq_getElem hk')⟩

/-! ## Nothing shared -/

/-- No node is owned twice, by two nodes that the root leads to or by one. -/
structure OnePlace (t : Tree) : Prop where
  oneOwner : t.OneOwner
  nodup : ∀ owner, t.Reaches owner → (t.children owner).Nodup

/-- Nothing is shared where all that is owned, out of reach or not, is owned once. -/
theorem onePlace_of_nodup (h : t.owned.Nodup) : t.OnePlace := by
  obtain ⟨hnodup, hdisjoint⟩ := List.nodup_flatMap.1 h
  have hlt {owner child : NodeId} (hchild : child ∈ t.children owner) :
      owner ∈ List.range t.size := by
    by_contra hle
    rw [List.mem_range, Nat.not_lt] at hle
    rw [children_eq_nil_of_size_le hle] at hchild
    cases hchild
  refine ⟨?_, ?_⟩
  · intro id owner owner' _ _ hid hid'
    by_contra hne
    have hsymm : Std.Symm (Function.onFun List.Disjoint t.children) := ⟨fun _ _ h => h.symm⟩
    exact hdisjoint.forall (hlt hid) (hlt hid') hne hid hid'
  · intro owner _
    by_cases howner : owner < t.size
    · exact hnodup owner (List.mem_range.2 howner)
    · rw [children_eq_nil_of_size_le (Nat.le_of_not_lt howner)]
      exact .nil

/-- Where nothing is shared, a node stands beside one other only. -/
theorem Beside.unique (hroot : ¬ t.LeadsTo 0) (hone : t.OnePlace) {a b : NodeId}
    (ha : t.Beside t' id a) (hb : t.Beside t' id b) : a = b := by
  have hbelow {owner child : NodeId} {k : Nat} (howner : t.Reaches owner)
      (hchild : (t.children owner)[k]? = some child) : child ≠ 0 :=
    ne_zero_of_mem_children hroot howner (List.mem_of_getElem? hchild)
  induction ha generalizing b with
  | root =>
      cases hb with
      | root => rfl
      | step howner hchild => exact absurd rfl (hbelow howner.reaches hchild)
  | @step owner owner' child child' k howner hchild hchild' ih =>
      cases hb with
      | root => exact absurd rfl (hbelow howner.reaches hchild)
      | @step other other' _ _ j hother hagain hagain' =>
          obtain rfl : owner = other := hone.oneOwner child owner other howner.reaches
            hother.reaches (List.mem_of_getElem? hchild) (List.mem_of_getElem? hagain)
          obtain ⟨hk, _⟩ := List.getElem?_eq_some_iff.1 hchild
          obtain rfl : k = j := (List.getElem?_inj hk (hone.nodup owner howner.reaches)).1
            (hchild.trans hagain.symm)
          obtain rfl := ih hother
          exact Option.some.inj (hchild'.symm.trans hagain')

/-! ## Other numbers -/

/-- The tree `t'` has the nodes of `t` under other numbers, as far as the roots lead. -/
structure Renumbers (t t' : Tree) (f : NodeId → NodeId) : Prop where
  root : f 0 = 0
  bijOn : Set.BijOn f {id | t.Reaches id} {id | t'.Reaches id}
  kind_eq : ∀ id, t.Reaches id → t'.kind (f id) = (t.kind id).renumber f
  /-- Instructions were read from the same lines. -/
  shown_eq : ∀ id, t.Reaches id → (t'.node (f id)).shownLine? = (t.node id).shownLine?

/-- Where nothing is shared, trees whose roots are twins differ in numbers only. -/
theorem exists_renumbers (htwins : t.Twins t' 0 0) (hroot : ¬ t.LeadsTo 0)
    (hroot' : ¬ t'.LeadsTo 0) (hone : t.OnePlace) (hone' : t'.OnePlace) :
    ∃ f, t.Renumbers t' f := by
  have hlength (id id' : NodeId) (h : t.Beside t' id id') :
      (t.children id).length = (t'.children id').length := by
    obtain ⟨_, _, hbelow⟩ := h.twins htwins
    exact hbelow.length_eq
  have hbeside (id : NodeId) (hid : t.Reaches id) : ∃ id', t.Beside t' id id' :=
    exists_beside hlength hid
  choose! f hf using hbeside
  refine ⟨f, ⟨(hf 0 .refl).unique hroot hone .root, ⟨?_, ?_, ?_⟩, ?_, ?_⟩⟩
  · intro id hid
    exact (hf id hid).flip.reaches
  · intro a ha b hb heq
    have hflip := (hf a ha).flip
    rw [heq] at hflip
    exact hflip.unique hroot' hone' (hf b hb).flip
  · intro id' hid'
    obtain ⟨id, hid⟩ := exists_beside (fun a b h => (hlength b a h.flip).symm) hid'
    exact ⟨id, hid.flip.reaches, (hf id hid.flip.reaches).unique hroot hone hid.flip⟩
  · intro id hid
    obtain ⟨hbare, _, _⟩ := (hf id hid).twins htwins
    refine Node.Kind.eq_of_bare ?_ ?_
    · rw [Node.Kind.bare_renumber, hbare]
    · rw [Node.Kind.children_renumber]
      refine List.ext_getElem ?_ ?_
      · rw [List.length_map]
        exact (hlength _ _ (hf id hid)).symm
      · intro k hk' hk
        rw [List.length_map] at hk
        rw [List.getElem_map]
        have hchild : t.Reaches (t.children id)[k] := hid.tail (List.getElem_mem hk)
        have hplace : t.Beside t' (t.children id)[k] (t'.children (f id))[k] :=
          .step (hf id hid) (List.getElem?_eq_getElem hk) (List.getElem?_eq_getElem hk')
        exact hplace.unique hroot hone (hf _ hchild)
  · intro id hid
    obtain ⟨_, hshown, _⟩ := (hf id hid).twins htwins
    exact hshown.symm

end Asm6502.Tree
