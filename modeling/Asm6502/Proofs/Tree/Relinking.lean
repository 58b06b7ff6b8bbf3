import Asm6502.Proofs.Tree.Session
import Asm6502.Proofs.Tree.Writer
import Mathlib.Data.Set.Card

/-!
# Repairing arbitrary links

A repair pays no attention to the links that it finds, except for counting those that are
wrong.  It sets links one after another, in an order that the nodes alone decide: for each
owner, in source order, the links of all that it owns, and in the end that of the root.  A
node with several owners has its link set several times, and the last time counts.

So whatever the links were before, two repairs of the same nodes agree on every link that
they set; and a link that no owner sets stays as it was.  This is why a second repair
changes nothing, although it sets the links of shared nodes back and forth again, and counts
some of them.  It counts nothing if no node is shared.

The repair of a whole tree is also a loop with a stack of the nodes whose links are right
and whose children are still due.  On a tree whose root leads back to itself the stack would
never be empty.

## Main results

* `normalize_eq_follow` — a repair sets links one after another.
* `parent_follow_congr` — the links before play no part where a link is set.
* `count_follow` — of links that agree with each other, the wrong ones are counted once.
* `Mending.iterate_step` — the loop adopts the children of all nodes of the walk.
* `normalize_repairs` — what a repair does to links that were set arbitrarily.
-/

namespace Asm6502.Tree

variable {t t' : Tree} {id : NodeId}

/-- A link to be set: a node and what its link shall lead to. -/
structure Link where
  child : NodeId
  owner : Option NodeId

/-! ## Setting links one after another -/

namespace Repair

variable {r r' : Repair} {l : Link} {links : List Link}

/-- Sets links one after another, and counts those that were wrong when it was their turn. -/
def follow (r : Repair) (links : List Link) : Repair :=
  links.foldl (fun r l => r.link l.child l.owner) r

theorem follow_cons (r : Repair) (l : Link) (links : List Link) :
    r.follow (l :: links) = (r.link l.child l.owner).follow links := rfl

theorem follow_append (r : Repair) (links links' : List Link) :
    r.follow (links ++ links') = (r.follow links).follow links' := List.foldl_append

theorem size_parents_link (r : Repair) (id : NodeId) (p : Option NodeId) :
    (r.link id p).tree.parents.size = r.tree.parents.size := by
  unfold link
  split
  next => rfl
  next => exact size_parents_setParent ..

/-- Whether a link was right or wrong, then it is right, and no other link has changed. -/
theorem parent_link (r : Repair) (id j : NodeId) (p : Option NodeId) :
    (r.link id p).tree.parent j =
      if j = id ∧ id < r.tree.parents.size then p else r.tree.parent j := by
  unfold link
  split
  next hright =>
    split
    next hj => rw [hj.1, hright]
    next => rfl
  next => exact parent_setParent ..

theorem parent_link_self (h : id < r.tree.parents.size) (p : Option NodeId) :
    (r.link id p).tree.parent id = p := by
  rw [parent_link, if_pos ⟨rfl, h⟩]

theorem parent_link_of_ne {j : NodeId} (h : j ≠ id) (p : Option NodeId) :
    (r.link id p).tree.parent j = r.tree.parent j := by
  rw [parent_link, if_neg fun hj => h hj.1]

theorem nodes_follow (r : Repair) (links : List Link) :
    (r.follow links).tree.nodes = r.tree.nodes := by
  induction links generalizing r with
  | nil => rfl
  | cons l links ih => rw [follow_cons, ih, nodes_link]

theorem size_parents_follow (r : Repair) (links : List Link) :
    (r.follow links).tree.parents.size = r.tree.parents.size := by
  induction links generalizing r with
  | nil => rfl
  | cons l links ih => rw [follow_cons, ih, size_parents_link]

/-- A link that is not set stays as it was. -/
theorem parent_follow_of_ne (h : ∀ l ∈ links, l.child ≠ id) :
    (r.follow links).tree.parent id = r.tree.parent id := by
  induction links generalizing r with
  | nil => rfl
  | cons l links ih =>
      have hne : id ≠ l.child := (h l List.mem_cons_self).symm
      rw [follow_cons, ih fun l hl => h l (List.mem_cons_of_mem _ hl), parent_link_of_ne hne]

/-- A link that is set does not depend on what it was before. -/
theorem parent_follow_congr (hsize : r.tree.parents.size = r'.tree.parents.size)
    (hid : id < r.tree.parents.size)
    (h : (∃ l ∈ links, l.child = id) ∨ r.tree.parent id = r'.tree.parent id) :
    (r.follow links).tree.parent id = (r'.follow links).tree.parent id := by
  induction links generalizing r r' with
  | nil =>
      rcases h with ⟨_, hl, _⟩ | h
      · cases hl
      · exact h
  | cons l links ih =>
      rw [follow_cons, follow_cons]
      refine ih ?_ ?_ ?_
      · rw [size_parents_link, size_parents_link, hsize]
      · rwa [size_parents_link]
      · by_cases hl : l.child = id
        · right
          subst hl
          rw [parent_link_self hid, parent_link_self (hsize ▸ hid)]
        · rcases h with ⟨l', hl', hchild⟩ | h
          · rcases List.mem_cons.1 hl' with rfl | hl'
            · exact absurd hchild hl
            · exact .inl ⟨l', hl', hchild⟩
          · right
            rw [parent_link_of_ne (Ne.symm hl), parent_link_of_ne (Ne.symm hl), h]

/-- A link that is set leads in the end where one of the settings wants it to lead. -/
theorem exists_parent_follow (hid : id < r.tree.parents.size) (h : ∃ l ∈ links, l.child = id) :
    ∃ l ∈ links, l.child = id ∧ (r.follow links).tree.parent id = l.owner := by
  induction links generalizing r with
  | nil =>
      obtain ⟨_, hl, _⟩ := h
      cases hl
  | cons l links ih =>
      rw [follow_cons]
      by_cases hlater : ∃ l' ∈ links, l'.child = id
      · have hsize : id < (r.link l.child l.owner).tree.parents.size := by
          rwa [size_parents_link]
        obtain ⟨l', hl', hset⟩ := ih hsize hlater
        exact ⟨l', List.mem_cons_of_mem _ hl', hset⟩
      · have hchild : l.child = id := by
          obtain ⟨l', hl', hchild⟩ := h
          rcases List.mem_cons.1 hl' with rfl | hl'
          · exact hchild
          · exact absurd ⟨l', hl', hchild⟩ hlater
        refine ⟨l, List.mem_cons_self, hchild, ?_⟩
        rw [parent_follow_of_ne fun l' hl' heq => hlater ⟨l', hl', heq⟩]
        subst hchild
        exact parent_link_self hid l.owner

/-! ## Counting -/

/-- The nodes whose links are to be set, but are wrong. -/
def wrong (r : Repair) (links : List Link) : Set NodeId :=
  {id | ∃ l ∈ links, l.child = id ∧ r.tree.parent id ≠ l.owner}

theorem finite_wrong (r : Repair) (links : List Link) : (r.wrong links).Finite := by
  refine (List.finite_toSet (links.map Link.child)).subset ?_
  rintro id ⟨l, hl, rfl, _⟩
  exact List.mem_map_of_mem hl

/-- If all settings of a link agree, then it is counted once if it was wrong, and not at all
if it was right. -/
theorem count_follow (hbounds : ∀ l ∈ links, l.child < r.tree.parents.size)
    (hagree : ∀ l ∈ links, ∀ l' ∈ links, l.child = l'.child → l.owner = l'.owner) :
    (r.follow links).count = r.count + (r.wrong links).ncard := by
  induction links generalizing r with
  | nil =>
      have hempty : r.wrong [] = ∅ := by simp [wrong]
      rw [hempty, Set.ncard_empty]
      rfl
  | cons l links ih =>
      have hl : l.child < r.tree.parents.size := hbounds l List.mem_cons_self
      have hrest : ∀ l' ∈ links, l'.child = l.child → l'.owner = l.owner := fun l' hl' =>
        hagree l' (List.mem_cons_of_mem _ hl') l List.mem_cons_self
      have hmore := ih (r := r.link l.child l.owner)
        (fun l' hl' => by
          rw [size_parents_link]
          exact hbounds l' (List.mem_cons_of_mem _ hl'))
        (fun l₁ h₁ l₂ h₂ => hagree l₁ (List.mem_cons_of_mem _ h₁) l₂ (List.mem_cons_of_mem _ h₂))
      rw [follow_cons, hmore]
      by_cases hright : r.tree.parent l.child = l.owner
      · have hsame : r.link l.child l.owner = r := if_pos hright
        have hwrong : r.wrong (l :: links) = r.wrong links := by
          ext id
          constructor
          · rintro ⟨l', hl', rfl, hne⟩
            rcases List.mem_cons.1 hl' with rfl | hl'
            · exact absurd hright hne
            · exact ⟨l', hl', rfl, hne⟩
          · rintro ⟨l', hl', rfl, hne⟩
            exact ⟨l', List.mem_cons_of_mem _ hl', rfl, hne⟩
        rw [hsame, hwrong]
      · have hcount : (r.link l.child l.owner).count = r.count + 1 := by
          rw [link, if_neg hright]
        -- Once set, the link stays right, so it is not counted again.
        have hset : l.child ∉ (r.link l.child l.owner).wrong links := by
          rintro ⟨l', hl', hchild, hne⟩
          rw [parent_link_self hl] at hne
          exact hne (hrest l' hl' hchild).symm
        have hwrong : r.wrong (l :: links) =
            insert l.child ((r.link l.child l.owner).wrong links) := by
          ext id
          by_cases hid : id = l.child
          · subst hid
            simp only [Set.mem_insert_iff, true_or, iff_true]
            exact ⟨l, List.mem_cons_self, rfl, hright⟩
          · simp only [wrong, Set.mem_insert_iff, hid, false_or, Set.mem_ofPred_eq,
              parent_link_of_ne hid, List.exists_mem_cons_iff, Ne.symm hid, false_and]
        rw [hwrong, Set.ncard_insert_of_notMem hset (finite_wrong _ _), hcount]
        omega

end Repair

/-! ## The links of a tree -/

/-- The links that an owner sets. -/
def linksOf (t : Tree) (owner : NodeId) : List Link := (t.children owner).map (⟨·, some owner⟩)

/-- The links that a repair sets, in order. -/
def links (t : Tree) : List Link := t.walk.flatMap t.linksOf ++ [⟨0, none⟩]

theorem children_eq_of_nodes_eq (h : t'.nodes = t.nodes) : t'.children = t.children := by
  funext id
  rw [children, kind, node, h]
  rfl

theorem adopt_eq_follow {r : Repair} (h : r.tree.nodes = t.nodes) (owner : NodeId) :
    r.adopt owner = r.follow (t.linksOf owner) := by
  rw [Repair.adopt, children_eq_of_nodes_eq h, Repair.follow, linksOf, List.foldl_map]

theorem foldl_adopt_eq_follow {r : Repair} (h : r.tree.nodes = t.nodes) (owners : List NodeId) :
    owners.foldl Repair.adopt r = r.follow (owners.flatMap t.linksOf) := by
  induction owners generalizing r with
  | nil => rfl
  | cons owner owners ih =>
      have hnodes : (r.follow (t.linksOf owner)).tree.nodes = t.nodes := by
        rw [Repair.nodes_follow, h]
      rw [List.foldl_cons, adopt_eq_follow h, ih hnodes, List.flatMap_cons, Repair.follow_append]

/-- A repair adopts for each node of the walk what it owns, and in the end frees the root. -/
theorem normalize_eq_foldl (t : Tree) :
    t.normalize = (t.walk.foldl Repair.adopt ⟨t, 0⟩).link 0 none := by
  rw [normalize, foldDown_eq_foldl, walk, List.foldl_cons, List.foldl_map, visits_eq]

theorem normalize_eq_follow (t : Tree) : t.normalize = Repair.follow ⟨t, 0⟩ t.links := by
  rw [normalize_eq_foldl, foldl_adopt_eq_follow rfl, links, Repair.follow_append]
  rfl

theorem mem_links {l : Link} : l ∈ t.links ↔
    (∃ owner ∈ t.walk, l.child ∈ t.children owner ∧ l.owner = some owner) ∨ l = ⟨0, none⟩ := by
  rw [links, List.mem_append, List.mem_singleton, List.mem_flatMap]
  refine or_congr_left ⟨?_, ?_⟩
  · rintro ⟨owner, howner, hl⟩
    obtain ⟨child, hchild, rfl⟩ := List.mem_map.1 hl
    exact ⟨owner, howner, hchild, rfl⟩
  · rintro ⟨owner, howner, hchild, heq⟩
    exact ⟨owner, howner, List.mem_map.2 ⟨l.child, hchild, by rw [← heq]⟩⟩

/-! ## Nodes alone decide -/

theorem walk_eq_of_nodes_eq (h : t'.nodes = t.nodes) : t'.walk = t.walk :=
  walk_congr (children_eq_of_nodes_eq h)

theorem links_eq_of_nodes_eq (h : t'.nodes = t.nodes) : t'.links = t.links := by
  rw [links, links, walk_eq_of_nodes_eq h]
  refine congrArg (· ++ _) (List.flatMap_congr ?_)
  intro owner _
  rw [linksOf, linksOf, children_eq_of_nodes_eq h]

/-- Two repairs of the same nodes differ at most where no link is set; so the second of two
repairs in a row changes nothing. -/
theorem normalize_normalize (t : Tree) : t.normalize.tree.normalize.tree = t.normalize.tree := by
  let v := t.normalize.tree
  have hnodes : v.nodes = t.nodes := nodes_normalize t
  have hsize : v.parents.size = t.parents.size := by
    rw [show v = _ from congrArg Repair.tree (normalize_eq_follow t), Repair.size_parents_follow]
  have hsize' : v.normalize.tree.parents.size = v.parents.size := by
    rw [normalize_eq_follow, Repair.size_parents_follow]
  have hparent (id : NodeId) (hid : id < v.parents.size) :
      v.normalize.tree.parent id = v.parent id := by
    rw [normalize_eq_follow, links_eq_of_nodes_eq hnodes]
    by_cases hset : ∃ l ∈ t.links, l.child = id
    · rw [show v.parent id = _ from congrArg (·.tree.parent id) (normalize_eq_follow t)]
      exact Repair.parent_follow_congr hsize hid (.inl hset)
    · exact Repair.parent_follow_of_ne fun l hl hchild => hset ⟨l, hl, hchild⟩
  have hparents : v.normalize.tree.parents = v.parents := by
    refine Array.ext hsize' ?_
    intro id hid hid'
    have heq := hparent id hid'
    rwa [parent, parent, Array.getD, Array.getD, dif_pos hid, dif_pos hid'] at heq
  show v.normalize.tree = v
  calc v.normalize.tree
      = ⟨v.normalize.tree.nodes, v.normalize.tree.parents⟩ := rfl
    _ = ⟨v.nodes, v.parents⟩ := by rw [nodes_normalize, hparents]
    _ = v := rfl

/-! ## The loop -/

/-- A stack of nodes whose children are still due, and what has been repaired. -/
structure Mending where
  due : List NodeId
  repair : Repair

/-- One round: the node on top adopts its children, and they come on top of the stack. -/
def Mending.step (m : Mending) : Mending :=
  match m.due with
  | [] => m
  | id :: rest => ⟨m.repair.tree.children id ++ rest, m.repair.adopt id⟩

/-- Below a root that does not lead back to itself, the walk leaves no child out. -/
theorem preorder_of_leadsTo (ht : t.Numbered) (hroot : ¬ t.LeadsTo 0) (hid : t.LeadsTo id) :
    t.preorder id = id :: (t.children id).flatMap t.preorder := by
  have hall : ∀ child ∈ t.children id, decide (child < id) = true := by
    intro child hchild
    exact decide_eq_true (ht.lt id (hid.ne_zero hroot) child hchild)
  rw [preorder_eq_filter, List.filter_eq_self.2 hall]

/-- A stack is emptied in as many rounds as the walks below its nodes are long. -/
theorem Mending.iterate_step (ht : t.Numbered) (hroot : ¬ t.LeadsTo 0) (ids : List NodeId)
    (hids : ∀ id ∈ ids, t.LeadsTo id) {r : Repair} (hr : r.tree.nodes = t.nodes) :
    Mending.step^[(ids.flatMap t.preorder).length] ⟨ids, r⟩ =
      ⟨[], (ids.flatMap t.preorder).foldl Repair.adopt r⟩ := by
  induction hn : (ids.flatMap t.preorder).length generalizing ids r with
  | zero =>
      cases ids with
      | nil => rfl
      | cons id ids =>
          rw [List.flatMap_cons, preorder_eq_filter] at hn
          cases hn
  | succ n ih =>
      cases ids with
      | nil => cases hn
      | cons id ids =>
          have hid : t.LeadsTo id := hids id List.mem_cons_self
          have hwalk : (id :: ids).flatMap t.preorder =
              id :: (t.children id ++ ids).flatMap t.preorder := by
            rw [List.flatMap_cons, preorder_of_leadsTo ht hroot hid, List.cons_append,
              List.flatMap_append]
          have hbelow : ∀ j ∈ t.children id ++ ids, t.LeadsTo j := by
            intro j hj
            rcases List.mem_append.1 hj with hj | hj
            · exact hid.tail hj
            · exact hids j (List.mem_cons_of_mem _ hj)
          have hnodes : (r.adopt id).tree.nodes = t.nodes := by
            rw [Repair.nodes_adopt, hr]
          rw [hwalk, List.length_cons] at hn
          have hstep : Mending.step ⟨id :: ids, r⟩ = ⟨t.children id ++ ids, r.adopt id⟩ := by
            rw [← children_eq_of_nodes_eq hr]
            rfl
          rw [Function.iterate_succ_apply, hstep, ih _ hbelow hnodes (Nat.succ.inj hn), hwalk,
            List.foldl_cons]

/-- The loop that starts with the root on its stack ends, and all that is left to do then is
to free the root. -/
theorem Mending.iterate_step_walk (ht : t.Numbered) (hroot : ¬ t.LeadsTo 0) :
    Mending.step^[t.walk.length] ⟨[0], ⟨t, 0⟩⟩ = ⟨[], t.walk.foldl Repair.adopt ⟨t, 0⟩⟩ := by
  have hitems : ∀ item ∈ t.items, t.LeadsTo item := fun item hitem => .single hitem
  have hnodes : (Repair.adopt ⟨t, 0⟩ 0).tree.nodes = t.nodes := Repair.nodes_adopt _ _
  have hstep : Mending.step ⟨[0], ⟨t, 0⟩⟩ = ⟨t.items, Repair.adopt ⟨t, 0⟩ 0⟩ := by
    rw [Mending.step]
    exact congrArg (Mending.mk · _) (List.append_nil _)
  rw [walk_eq, List.length_cons, Function.iterate_succ_apply, hstep,
    iterate_step ht hroot t.items hitems hnodes, List.foldl_cons]

/-! ## Repaired trees -/

/-- What is owned by a node that the root leads to is not the root. -/
theorem ne_zero_of_mem_children (hroot : ¬ t.LeadsTo 0) {owner child : NodeId}
    (howner : t.Reaches owner) (hchild : child ∈ t.children owner) : child ≠ 0 := by
  rintro rfl
  exact hroot (Relation.TransGen.tail' howner hchild)

theorem parent_zero_normalize (hsize : 0 < t.parents.size) : t.normalize.tree.parent 0 = none := by
  rw [normalize_eq_foldl]
  refine Repair.parent_link_self ?_ none
  rwa [foldl_adopt_eq_follow rfl, Repair.size_parents_follow]

/-- In the end, every node below the root has a link that leads to one of its owners. -/
theorem exists_owner_normalize (ht : t.Numbered)
    (hbounds : ∀ owner, ∀ child ∈ t.children owner, child < t.parents.size)
    (hid : t.Reaches id) (hne : id ≠ 0) :
    ∃ owner, t.Reaches owner ∧ id ∈ t.children owner ∧
      t.normalize.tree.parent id = some owner := by
  cases hid with
  | refl => exact absurd rfl hne
  | @tail owner _ howner hchild =>
      have hset : ∃ l ∈ t.links, l.child = id :=
        ⟨⟨id, some owner⟩, mem_links.2 (.inl ⟨owner, ht.mem_walk.2 howner, hchild, rfl⟩), rfl⟩
      rw [normalize_eq_follow]
      obtain ⟨l, hl, rfl, hparent⟩ :=
        Repair.exists_parent_follow (r := ⟨t, 0⟩) (hbounds owner id hchild) hset
      rcases mem_links.1 hl with ⟨owner', howner', hchild', heq⟩ | rfl
      · exact ⟨owner', ht.mem_walk.1 howner', hchild', hparent.trans heq⟩
      · exact absurd rfl hne

/-- Links of nodes that the root does not lead to stay as they were. -/
theorem parent_normalize_of_not_reaches (ht : t.Numbered) (hid : ¬ t.Reaches id) :
    t.normalize.tree.parent id = t.parent id := by
  rw [normalize_eq_follow]
  refine Repair.parent_follow_of_ne ?_
  rintro l hl rfl
  rcases mem_links.1 hl with ⟨owner, howner, hchild, _⟩ | rfl
  · exact hid ((ht.mem_walk.1 howner).tail hchild)
  · exact hid .refl

/-- No node has two different owners that the root leads to. -/
def OneOwner (t : Tree) : Prop :=
  ∀ id owner owner', t.Reaches owner → t.Reaches owner' → id ∈ t.children owner →
    id ∈ t.children owner' → owner = owner'

/-- The nodes below the root whose links do not lead to their owners. -/
def misled (t : Tree) : Set NodeId :=
  {id | id ≠ 0 ∧ t.Reaches id ∧
    ∃ owner, t.Reaches owner ∧ id ∈ t.children owner ∧ t.parent id ≠ some owner}

/-- Besides the wrong links below the root, that of the root is counted if there is one. -/
theorem wrong_links (ht : t.Numbered) (hroot : ¬ t.LeadsTo 0) :
    Repair.wrong ⟨t, 0⟩ t.links = if t.parent 0 = none then t.misled else insert 0 t.misled := by
  ext id
  have hwrong : id ∈ Repair.wrong ⟨t, 0⟩ t.links ↔
      id ∈ t.misled ∨ id = 0 ∧ t.parent 0 ≠ none := by
    constructor
    · rintro ⟨l, hl, rfl, hne⟩
      rcases mem_links.1 hl with ⟨owner, howner, hchild, heq⟩ | rfl
      · have hreaches := ht.mem_walk.1 howner
        exact .inl ⟨ne_zero_of_mem_children hroot hreaches hchild, hreaches.tail hchild, owner,
          hreaches, hchild, heq ▸ hne⟩
      · exact .inr ⟨rfl, hne⟩
    · rintro (⟨_, _, owner, howner, hchild, hne⟩ | ⟨rfl, hne⟩)
      · exact ⟨⟨id, some owner⟩, mem_links.2 (.inl ⟨owner, ht.mem_walk.2 howner, hchild, rfl⟩),
          rfl, hne⟩
      · exact ⟨⟨0, none⟩, mem_links.2 (.inr rfl), rfl, hne⟩
  rw [hwrong]
  split
  next hnone => simp [hnone]
  next hsome => simp [hsome, or_comm]

/-- If no node is shared, each wrong link is counted once. -/
theorem count_normalize (ht : t.Numbered) (hroot : ¬ t.LeadsTo 0)
    (hsize : 0 < t.parents.size)
    (hbounds : ∀ owner, ∀ child ∈ t.children owner, child < t.parents.size)
    (hone : t.OneOwner) :
    t.normalize.count = t.misled.ncard + if t.parent 0 = none then 0 else 1 := by
  have hagree : ∀ l ∈ t.links, ∀ l' ∈ t.links, l.child = l'.child → l.owner = l'.owner := by
    intro l hl l' hl' hchild
    rcases mem_links.1 hl with ⟨owner, howner, hmem, heq⟩ | rfl <;>
      rcases mem_links.1 hl' with ⟨owner', howner', hmem', heq'⟩ | rfl
    · have hreaches := ht.mem_walk.1 howner
      have hreaches' := ht.mem_walk.1 howner'
      rw [heq, heq', hone l.child owner owner' hreaches hreaches' hmem (hchild ▸ hmem')]
    · exact absurd hchild (ne_zero_of_mem_children hroot (ht.mem_walk.1 howner) hmem)
    · exact absurd hchild.symm (ne_zero_of_mem_children hroot (ht.mem_walk.1 howner') hmem')
    · rfl
  have hlinks : ∀ l ∈ t.links, l.child < t.parents.size := by
    intro l hl
    rcases mem_links.1 hl with ⟨owner, _, hmem, _⟩ | rfl
    · exact hbounds owner l.child hmem
    · exact hsize
  have hfinite : t.misled.Finite := by
    refine (Repair.finite_wrong ⟨t, 0⟩ t.links).subset ?_
    rw [wrong_links ht hroot]
    split
    next => exact Set.Subset.rfl
    next => exact Set.subset_insert _ _
  rw [normalize_eq_follow, Repair.count_follow (r := ⟨t, 0⟩) hlinks hagree, wrong_links ht hroot,
    Nat.zero_add]
  split
  next => rfl
  next => exact Set.ncard_insert_of_notMem (fun hzero => hzero.1 rfl) hfinite

/-- Where each node has one owner at most, a repaired tree has no wrong links. -/
theorem misled_normalize (ht : t.Numbered)
    (hbounds : ∀ owner, ∀ child ∈ t.children owner, child < t.parents.size)
    (hone : t.OneOwner) : t.normalize.tree.misled = ∅ := by
  have hchildren := children_eq_of_nodes_eq (nodes_normalize t)
  have hreaches (id : NodeId) : t.normalize.tree.Reaches id ↔ t.Reaches id := by
    rw [Reaches, Reaches, hchildren]
  refine Set.eq_empty_of_forall_notMem ?_
  rintro id ⟨hne, hid, owner, howner, hchild, hwrong⟩
  rw [hreaches] at hid howner
  rw [hchildren] at hchild
  obtain ⟨owner', howner', hchild', hparent⟩ := exists_owner_normalize ht hbounds hid hne
  rw [hparent, hone id owner owner' howner howner' hchild hchild'] at hwrong
  exact hwrong rfl

/-- What a repair does to a tree that has been built and whose links have then been set
arbitrarily, one for each node.  The loop ends, nothing but links changes, every node that
the root leads to gets a link to one of its owners there, the root gets none, and all other
links stay.  A second repair changes nothing.  Where each node has one such owner at most,
the answer is the number of wrong links, and it is zero the second time. -/
theorem normalize_repairs (ht : t.Built)
    (hroot : ¬ Relation.TransGen (fun owner id => id ∈ t.children owner) 0 0)
    {given : Array (Option NodeId)} (hgiven : given.size = t.size) :
    let u : Tree := { t with parents := given }
    let v := u.normalize.tree
    (∃ r, Mending.step^[u.walk.length] ⟨[0], ⟨u, 0⟩⟩ = ⟨[], r⟩ ∧ r.link 0 none = u.normalize) ∧
      v.nodes = t.nodes ∧ v.parents.size = t.size ∧
      v.parent 0 = none ∧
      (∀ id ≠ 0, t.Reaches id →
        ∃ owner, t.Reaches owner ∧ id ∈ t.children owner ∧ v.parent id = some owner) ∧
      (∀ id, ¬ t.Reaches id → v.parent id = u.parent id) ∧
      v.normalize.tree = v ∧
      (t.OneOwner →
        u.normalize.count = u.misled.ncard + (if u.parent 0 = none then 0 else 1) ∧
          v.normalize.count = 0) := by
  intro u v
  have hu : u.Numbered := ⟨⟨ht.numbered.rooted.size_pos, ht.numbered.rooted.kind_eq,
    ht.numbered.rooted.line_eq⟩, ht.numbered.lt⟩
  have hsize : 0 < u.parents.size := hgiven ▸ ht.numbered.rooted.size_pos
  have hbounds : ∀ owner, ∀ child ∈ u.children owner, child < u.parents.size :=
    fun owner child hchild => hgiven ▸ ht.linked.bounds owner child hchild
  have hnodes : v.nodes = t.nodes := nodes_normalize u
  have hparents : v.parents.size = u.parents.size := by
    rw [show v = _ from congrArg Repair.tree (normalize_eq_follow u), Repair.size_parents_follow]
  have hfree : v.parent 0 = none := parent_zero_normalize hsize
  refine ⟨?_, hnodes, ?_, hfree, ?_, ?_, normalize_normalize u, ?_⟩
  · exact ⟨_, Mending.iterate_step_walk hu hroot, (normalize_eq_foldl u).symm⟩
  · rw [hparents, hgiven]
  · intro id hne hid
    exact exists_owner_normalize hu hbounds hid hne
  · intro id hid
    exact parent_normalize_of_not_reaches hu hid
  · intro hone
    refine ⟨count_normalize hu hroot hsize hbounds hone, ?_⟩
    have hchildren : v.children = u.children := children_eq_of_nodes_eq hnodes
    have hroot' : ¬ v.LeadsTo 0 := by
      rw [LeadsTo, hchildren]
      exact hroot
    have hone' : v.OneOwner := by
      rw [OneOwner, Reaches, hchildren]
      exact hone
    have hbounds' : ∀ owner, ∀ child ∈ v.children owner, child < v.parents.size := by
      rw [hchildren, hparents]
      exact hbounds
    rw [count_normalize hu.normalize hroot' (hparents ▸ hsize) hbounds' hone',
      misled_normalize hu hbounds hone, Set.ncard_empty, if_pos hfree]

/-- A declaration of the sum of a constant with itself, and a name that nothing owns. -/
def doubledTree : Tree :=
  let t := (empty.add (.const "1") 1).2
  let t := ((t.add (.sum .add 1 1) 1).2.add (.decl "b" 2) 1).2
  (t.add (.name "c") 2).2.pushItem 3

/-- The constant is owned twice, but by one owner, so its link is counted once.  The link of
the root and that of the sum are wrong too; that of the name is, but is left alone. -/
theorem normalize_repairs_doubledTree :
    let t := doubledTree
    let u : Tree := { t with parents := #[some 1, none, some 2, some 0, some 9] }
    let v := u.normalize.tree
    t.Built ∧ ¬ Relation.TransGen (fun owner id => id ∈ t.children owner) 0 0 ∧
      u.parents.size = t.size ∧ t.OneOwner ∧
      v.parents = #[none, some 2, some 3, some 0, some 9] ∧ u.normalize.count = 3 ∧
      (∃ r, Mending.step^[u.walk.length] ⟨[0], ⟨u, 0⟩⟩ = ⟨[], r⟩ ∧
        r.link 0 none = u.normalize) ∧
      v.nodes = t.nodes ∧ v.parents.size = t.size ∧
      v.parent 0 = none ∧
      (∀ id ≠ 0, t.Reaches id →
        ∃ owner, t.Reaches owner ∧ id ∈ t.children owner ∧ v.parent id = some owner) ∧
      (∀ id, ¬ t.Reaches id → v.parent id = u.parent id) ∧
      v.normalize.tree = v ∧
      (t.OneOwner →
        u.normalize.count = u.misled.ncard + (if u.parent 0 = none then 0 else 1) ∧
          v.normalize.count = 0) := by
  intro t u v
  have hbuilt : t.Built := by
    refine .pushItem (.add (.add (.add (.add .empty ?_) ?_) ?_) ?_) ?_ <;> decide
  have hroot : ¬ Relation.TransGen (fun owner id => id ∈ t.children owner) 0 0 :=
    not_leads_back (by decide)
  have hone : t.OneOwner := by
    have hall : ∀ owner < 5, ∀ owner' < 5, ∀ id ∈ t.children owner,
        id ∈ t.children owner' → owner = owner' := by decide
    have hlt {owner id : NodeId} (hid : id ∈ t.children owner) : owner < 5 := by
      by_contra hle
      rw [children_eq_nil_of_size_le (Nat.le_of_not_lt hle)] at hid
      cases hid
    intro id owner owner' _ _ hid hid'
    exact hall owner (hlt hid) owner' (hlt hid') id hid hid'
  exact ⟨hbuilt, hroot, rfl, hone, by decide +kernel, by decide +kernel,
    normalize_repairs hbuilt hroot (by decide)⟩

end Asm6502.Tree
