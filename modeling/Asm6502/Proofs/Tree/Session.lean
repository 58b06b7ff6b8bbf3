import Asm6502.Proofs.Tree.Built
import Asm6502.Proofs.Tree.SinglyOwned
import Mathlib.Algebra.GroupWithZero.Nat

/-!
# Operations on a tree, one after another

A tree is never taken apart.  Five operations work on it, in any order: nodes and lists are
added, items are appended to the root, labels are classified and links are repaired.  A
session is a run of such operations, each of which names only nodes that are there.

Nothing keeps a session from putting a node below several others.  Its link then tells the
latest owner, or after a repair the last one in source order, so it need not be the owner
that a reader has in mind; but it is an owner, and a node without a link has none.

What the nodes hold is said for one operation first.  An operation changes the kind of a
node in two cases only, and these are simple enough to be followed through a whole session.

## Main results

* `Built.linked` — links lead to owners, and only nodes without an owner have none.
* `Session.kind_eq` — what a session does to a node that is there at its start.
* `session_arena` — both, for sessions that start with the empty tree.
-/

namespace Asm6502.Tree

variable {t t' : Tree} {id child : NodeId}

/-! ## Links and owners -/

/-- Every link but that of the root leads to an owner, and every node with an owner but the
root has a link. -/
structure Linked (t : Tree) : Prop where
  numbered : t.Numbered
  /-- There is a link for each node. -/
  size_parents : t.parents.size = t.size
  bounds : ∀ owner, ∀ child ∈ t.children owner, child < t.size
  owns : ∀ id ≠ 0, ∀ owner, t.parent id = some owner → id ∈ t.children owner
  parent_ne : ∀ id ≠ 0, ∀ owner, id ∈ t.children owner → t.parent id ≠ none

theorem linked_empty : empty.Linked where
  numbered := numbered_empty
  size_parents := rfl
  bounds owner child hchild := by
    have howned : child ∈ empty.owned := mem_owned.2 ⟨owner, hchild⟩
    cases howned
  owns id hid owner howner := by
    have hnone : empty.parent id = none := by
      simp [parent, empty, Array.getD, hid]
    rw [hnone] at howner
    cases howner
  parent_ne id _ owner hid := by
    have howned : id ∈ empty.owned := mem_owned.2 ⟨owner, hid⟩
    cases howned

namespace Linked

theorem parent_eq_none_iff (h : t.Linked) (hid : id ≠ 0) :
    t.parent id = none ↔ ∀ owner, id ∉ t.children owner := by
  constructor
  · intro hnone owner howner
    exact h.parent_ne id hid owner howner hnone
  · intro hfree
    cases hparent : t.parent id with
    | none => rfl
    | some owner => exact absurd (h.owns id hid owner hparent) (hfree owner)

/-- A new node becomes the parent of all that it owns, and other links stay. -/
theorem add (h : t.Linked) {k : Node.Kind} (line : Nat)
    (hk : ∀ child ∈ k.children, child < t.size) : (t.add k line).2.Linked where
  numbered := h.numbered.add line hk
  size_parents := by
    rw [size_parents_add, size_add, h.size_parents]
  bounds owner child hchild := by
    rw [size_add]
    rw [children_add] at hchild
    split at hchild
    next => exact Nat.lt_succ_of_lt (hk child hchild)
    next => exact Nat.lt_succ_of_lt (h.bounds owner child hchild)
  owns id hid owner howner := by
    rw [parent_add] at howner
    rw [children_add]
    split at howner
    next hmem =>
      cases howner
      rw [if_pos rfl]
      exact hmem.1
    next =>
      have hold := h.owns id hid owner howner
      have hne : owner ≠ t.size := by
        rintro rfl
        rw [children_eq_nil_of_size_le (Nat.le_refl _)] at hold
        cases hold
      rw [if_neg hne]
      exact hold
  parent_ne id hid owner howner := by
    rw [children_add] at howner
    rw [parent_add]
    split at howner
    next =>
      rw [if_pos ⟨howner, h.size_parents ▸ hk id howner⟩]
      exact Option.some_ne_none _
    next =>
      split
      next => exact Option.some_ne_none _
      next => exact h.parent_ne id hid owner howner

/-- A new item becomes the child of the root, and all else stays below its owner. -/
theorem pushItem (h : t.Linked) {item : NodeId} (hitem : item < t.size) :
    (t.pushItem item).Linked := by
  have hroot := h.numbered.rooted
  have hchildren (owner : NodeId) :
      (t.pushItem item).children owner = t.children owner ++ if owner = 0 then [item] else [] := by
    split
    next howner =>
      subst howner
      exact items_pushItem hroot item
    next howner => rw [children_pushItem_of_ne howner, List.append_nil]
  refine ⟨h.numbered.pushItem item, ?_, ?_, ?_, ?_⟩
  · rw [size_parents_pushItem, size_pushItem, h.size_parents]
  · intro owner child hchild
    rw [size_pushItem]
    rw [hchildren] at hchild
    rcases List.mem_append.1 hchild with hchild | hchild
    · exact h.bounds owner child hchild
    · split at hchild
      next => rwa [List.mem_singleton.1 hchild]
      next => cases hchild
  · intro id hid owner howner
    rw [parent_pushItem] at howner
    rw [hchildren]
    split at howner
    next hpushed =>
      cases howner
      rw [if_pos rfl, hpushed.1]
      exact List.mem_append_right _ List.mem_cons_self
    next => exact List.mem_append_left _ (h.owns id hid owner howner)
  · intro id hid owner howner
    rw [parent_pushItem]
    split
    next => exact Option.some_ne_none _
    next hpushed =>
      rw [hchildren] at howner
      rcases List.mem_append.1 howner with howner | howner
      · exact h.parent_ne id hid owner howner
      · split at howner
        next =>
          rw [List.mem_singleton.1 howner, h.size_parents] at hpushed
          exact absurd ⟨rfl, hitem⟩ hpushed
        next => cases howner

/-- The type of a label has nothing to do with owners. -/
theorem setLabelType (h : t.Linked) {type : LabelType}
    (ht' : t.setLabelType? id type = some t') : t'.Linked := by
  have hchildren (owner : NodeId) : t'.children owner = t.children owner :=
    (node_of_setLabelType? ht' owner).2.1
  have hsize := size_of_setLabelType? ht'
  have hparents : t'.parents = t.parents := by
    obtain ⟨k, _, rfl⟩ := Option.map_eq_some_iff.1 ht'
    rfl
  refine ⟨h.numbered.setLabelType ht', ?_, ?_, ?_, ?_⟩
  · rw [hparents, hsize, h.size_parents]
  · intro owner child hchild
    rw [hchildren] at hchild
    rw [hsize]
    exact h.bounds owner child hchild
  · intro other hother owner howner
    rw [parent, hparents] at howner
    rw [hchildren]
    exact h.owns other hother owner howner
  · intro other hother owner howner
    rw [hchildren] at howner
    rw [parent, hparents]
    exact h.parent_ne other hother owner howner

/-- A link may be set to any owner of its node, and that of the root to anything. -/
theorem setParent (h : t.Linked) {p : Option NodeId}
    (hp : child ≠ 0 → ∃ owner, p = some owner ∧ child ∈ t.children owner) :
    (t.setParent child p).Linked where
  numbered := ⟨⟨h.numbered.rooted.size_pos, h.numbered.rooted.kind_eq,
    h.numbered.rooted.line_eq⟩, h.numbered.lt⟩
  size_parents := by
    rw [size_parents_setParent]
    exact h.size_parents
  bounds := h.bounds
  owns id hid owner howner := by
    rw [parent_setParent] at howner
    split at howner
    next heq =>
      obtain ⟨_, rfl, hmem⟩ := hp (heq.1 ▸ hid)
      cases howner
      rw [heq.1]
      exact hmem
    next => exact h.owns id hid owner howner
  parent_ne id hid owner howner := by
    rw [parent_setParent]
    split
    next heq =>
      obtain ⟨_, rfl, _⟩ := hp (heq.1 ▸ hid)
      exact Option.some_ne_none _
    next => exact h.parent_ne id hid owner howner

theorem link {r : Repair} (h : r.tree.Linked) {p : Option NodeId}
    (hp : child ≠ 0 → ∃ owner, p = some owner ∧ child ∈ r.tree.children owner) :
    (r.link child p).tree.Linked := by
  unfold Repair.link
  split
  next => exact h
  next => exact h.setParent hp

theorem adopt {r : Repair} (h : r.tree.Linked) (owner : NodeId) : (r.adopt owner).tree.Linked := by
  have hfold (ids : List NodeId) (r : Repair) (h : r.tree.Linked)
      (hids : ∀ id ∈ ids, id ∈ r.tree.children owner) :
      (ids.foldl (fun r child => r.link child (some owner)) r).tree.Linked := by
    induction ids generalizing r with
    | nil => exact h
    | cons id ids ih =>
        have hchildren : (r.link id (some owner)).tree.children owner = r.tree.children owner := by
          rw [children, kind, node, Repair.nodes_link]
          rfl
        refine ih _ (h.link fun _ => ⟨owner, rfl, hids id List.mem_cons_self⟩) ?_
        intro other hother
        rw [hchildren]
        exact hids other (List.mem_cons_of_mem _ hother)
  exact hfold _ r h fun _ hid => hid

/-- A repair sets links to owners only. -/
theorem normalize (h : t.Linked) : t.normalize.tree.Linked := by
  have hfold (vs : List Visit) (r : Repair) (h : r.tree.Linked) :
      (vs.foldl (fun r v => r.adopt v.id) r).tree.Linked := by
    induction vs generalizing r with
    | nil => exact h
    | cons v vs ih => exact ih _ (h.adopt v.id)
  rw [Tree.normalize, foldDown_eq_foldl]
  refine (hfold _ _ (adopt (r := ⟨t, 0⟩) h 0)).link ?_
  intro hzero
  exact absurd rfl hzero

end Linked

/-- Links lead to owners, whatever has been built. -/
theorem Built.linked (h : t.Built) : t.Linked := by
  induction h with
  | empty => exact linked_empty
  | add _ hk ih => exact ih.add _ hk
  | pushItem _ hid ih => exact ih.pushItem hid
  | setLabelType _ h ih => exact ih.setLabelType h
  | normalize _ ih => exact ih.normalize

/-! ## One operation -/

/-- What can be done to a tree. -/
inductive Operation where
  | add (kind : Node.Kind) (line : Nat)
  | addList (items : List NodeId)
  | pushItem (item : NodeId)
  | setLabelType (label : NodeId) (type : LabelType)
  | normalize

namespace Operation

/-- Operations name nodes that are there, and links are repaired only if the root does not
lead back to itself. -/
def Allowed (t : Tree) : Operation → Prop
  | .add kind _ => ∀ child ∈ kind.children, child < t.size
  | .addList items => ∀ item ∈ items, item < t.size
  | .pushItem item => item < t.size
  | .setLabelType label _ => label < t.size
  | .normalize => ¬ Relation.TransGen (fun owner id => id ∈ t.children owner) 0 0

/-- The tree behind the operation.  Only labels can be classified. -/
def apply (t : Tree) : Operation → Tree
  | .add kind line => (t.add kind line).2
  | .addList items => (t.addList items).2
  | .pushItem item => t.pushItem item
  | .setLabelType label type => (t.setLabelType? label type).getD t
  | .normalize => t.normalize.tree

/-- The number of nodes that are added. -/
def added : Operation → Nat
  | .add _ _ => 1
  | .addList items => items.length
  | .pushItem _ | .setLabelType _ _ | .normalize => 0

/-- The item that the root gets. -/
def item? : Operation → Option NodeId
  | .pushItem item => some item
  | .add _ _ | .addList _ | .setLabelType _ _ | .normalize => none

/-- The type that the node gets, if it is a label. -/
def typeFor? (id : NodeId) : Operation → Option LabelType
  | .setLabelType label type => if label = id then some type else none
  | .add _ _ | .addList _ | .pushItem _ | .normalize => none

/-- What becomes of the kind of a node that is there already. -/
def onKind (id : NodeId) (k : Node.Kind) : Operation → Node.Kind
  | .pushItem item => if id = 0 then k.appendItem item else k
  | .setLabelType label type => if label = id then (k.classify? type).getD k else k
  | .add _ _ | .addList _ | .normalize => k

end Operation

theorem size_addList (t : Tree) (items : List NodeId) :
    (t.addList items).2.size = t.size + items.length := by
  induction items with
  | nil => rfl
  | cons item items ih =>
      show ((t.addList items).2.add _ _).2.size = t.size + (items.length + 1)
      rw [size_add, ih]
      omega

theorem node_addList_of_lt (hid : id < t.size) (items : List NodeId) :
    (t.addList items).2.node id = t.node id := by
  induction items with
  | nil => rfl
  | cons item items ih =>
      have hlt : id < (t.addList items).2.size := by
        rw [size_addList]
        exact Nat.lt_add_right _ hid
      show ((t.addList items).2.add _ _).2.node id = t.node id
      rw [node_add_of_lt hlt, ih]

/-- Nothing but the kind of the one label changes. -/
theorem node_setLabelType (t : Tree) {label : NodeId} (hlabel : label < t.size) (type : LabelType)
    (id : NodeId) : ((t.setLabelType? label type).getD t).node id =
      ⟨(Operation.setLabelType label type).onKind id (t.kind id), t.line id⟩ := by
  have hsize : label < t.nodes.size := hlabel
  cases ht' : t.setLabelType? label type with
  | none =>
      have hclassify : (t.kind label).classify? type = none := Option.map_eq_none_iff.1 ht'
      by_cases heq : label = id
      · subst heq
        simp only [Option.getD_none, Operation.onKind, if_true, hclassify]
        rfl
      · simp only [Option.getD_none, Operation.onKind, if_neg heq]
        rfl
  | some t' =>
      obtain ⟨k, hk, rfl⟩ := Option.map_eq_some_iff.1 ht'
      by_cases heq : label = id
      · subst heq
        simp only [Option.getD_some, Operation.onKind, if_true, hk]
        simp [node, line, Array.getD, hsize, Array.getElem_modify]
      · simp only [Operation.onKind, if_neg heq]
        exact (node_of_setLabelType? ht' id).2.2 (Ne.symm heq)

namespace Operation

theorem size_apply {op : Operation} (t : Tree) : (op.apply t).size = t.size + op.added := by
  cases op with
  | add kind line => exact size_add t kind line
  | addList items => exact size_addList t items
  | pushItem item => exact size_pushItem t item
  | setLabelType label type =>
      rw [apply]
      cases ht' : t.setLabelType? label type with
      | none => rfl
      | some t' => exact size_of_setLabelType? ht'
  | normalize => exact congrArg Array.size (nodes_normalize t)

/-- A node that is there keeps its line, and its kind but for the two exceptions. -/
theorem node_apply {op : Operation} (hop : op.Allowed t) (hid : id < t.size) :
    (op.apply t).node id = ⟨op.onKind id (t.kind id), t.line id⟩ := by
  cases op with
  | add kind line => exact node_add_of_lt hid
  | addList items => exact node_addList_of_lt hid items
  | pushItem item =>
      by_cases hzero : id = 0
      · subst hzero
        have hkind := kind_pushItem_zero hid item
        have hline := line_pushItem t item 0
        rw [onKind, if_pos rfl, ← hkind, ← hline]
        rfl
      · rw [onKind, if_neg hzero]
        exact node_pushItem_of_ne t item hzero
  | setLabelType label type => exact node_setLabelType t hop type id
  | normalize =>
      show t.normalize.tree.node id = t.node id
      rw [node, nodes_normalize]
      rfl

theorem built_apply {op : Operation} (ht : t.Built) (hop : op.Allowed t) :
    (op.apply t).Built := by
  cases op with
  | add kind line => exact .add ht hop
  | addList items => exact (ht.addList hop).1
  | pushItem item => exact .pushItem ht hop
  | setLabelType label type =>
      rw [apply]
      cases ht' : t.setLabelType? label type with
      | none => exact ht
      | some t' => exact .setLabelType ht ht'
  | normalize => exact .normalize ht

/-- Operations do not take a root for a label, nor the other way round. -/
theorem onKind_label {op : Operation} (id : NodeId) (name : String) (child : Option NodeId)
    (type : LabelType) : op.onKind id (.label name child type) =
      .label name child ((op.typeFor? id).getD type) := by
  cases op with
  | add kind line => rfl
  | addList items => rfl
  | pushItem item => exact ite_self _
  | setLabelType label type' =>
      simp only [onKind, typeFor?]
      split
      next => rfl
      next => rfl
  | normalize => rfl

theorem onKind_of_ne {op : Operation} {k : Node.Kind} (hid : id ≠ 0)
    (hk : ∀ name child type, k ≠ .label name child type) : op.onKind id k = k := by
  cases op with
  | add kind line => rfl
  | addList items => rfl
  | pushItem item => exact if_neg hid
  | setLabelType label type =>
      have hclassify : k.classify? type = none := by
        cases k with
        | label name child old => exact absurd rfl (hk name child old)
        | root | list | data | decl | name | const | wrap | sum | instruction => rfl
      rw [onKind, hclassify]
      exact ite_self _
  | normalize => rfl

theorem onKind_root {op : Operation} (items : List NodeId) :
    op.onKind 0 (.root items) = .root (items ++ op.item?.toList) := by
  cases op with
  | pushItem item => rfl
  | setLabelType label type =>
      have hsame : (setLabelType label type).onKind 0 (.root items) = .root items := ite_self _
      rw [hsame]
      exact congrArg Node.Kind.root (List.append_nil items).symm
  | add | addList | normalize => exact congrArg Node.Kind.root (List.append_nil items).symm

end Operation

/-! ## A session -/

/-- `Session t ops t'`: the operations may be done one after another, and lead from the tree
`t` to the tree `t'`. -/
inductive Session : Tree → List Operation → Tree → Prop where
  | done {t : Tree} : Session t [] t
  | step {t t' : Tree} {op : Operation} {ops : List Operation} (allowed : op.Allowed t)
      (more : Session (op.apply t) ops t') : Session t (op :: ops) t'

namespace Session

variable {ops : List Operation}

theorem built (h : Session t ops t') (ht : t.Built) : t'.Built := by
  induction h with
  | done => exact ht
  | step allowed _ ih => exact ih (Operation.built_apply ht allowed)

theorem size_eq (h : Session t ops t') : t'.size = t.size + (ops.map Operation.added).sum := by
  induction h with
  | done => rfl
  | step _ _ ih =>
      rw [ih, Operation.size_apply, List.map_cons, List.sum_cons, Nat.add_assoc]

/-- What a session does to a node that is there at its start. -/
theorem node_eq (h : Session t ops t') (hid : id < t.size) : t'.node id =
    ⟨ops.foldl (fun k op => op.onKind id k) (t.kind id), t.line id⟩ := by
  induction h with
  | done => rfl
  | @step t _ op _ allowed _ ih =>
      have hnode := Operation.node_apply allowed hid
      have hlt : id < (op.apply t).size := by
        rw [Operation.size_apply]
        exact Nat.lt_add_right _ hid
      rw [ih hlt, kind, line, hnode]
      rfl

theorem kind_eq (h : Session t ops t') (hid : id < t.size) :
    t'.kind id = ops.foldl (fun k op => op.onKind id k) (t.kind id) :=
  congrArg Node.kind (h.node_eq hid)

theorem line_eq (h : Session t ops t') (hid : id < t.size) : t'.line id = t.line id :=
  (congrArg Node.line (h.node_eq hid) :)

/-- The root's items grow at their end. -/
theorem items_eq (h : Session t ops t') (ht : t.Rooted) :
    t'.kind 0 = .root (t.items ++ ops.filterMap Operation.item?) := by
  rw [h.kind_eq ht.size_pos, ht.kind_eq]
  generalize t.items = items
  clear h
  induction ops generalizing items with
  | nil => exact congrArg Node.Kind.root (List.append_nil items).symm
  | cons op ops ih =>
      rw [List.foldl_cons, Operation.onKind_root, ih, List.append_assoc, List.filterMap_cons]
      cases op.item? with
      | none => rfl
      | some item => rfl

/-- A label keeps its name and what it stands in front of, and it has the type that it was
given last. -/
theorem kind_of_label (h : Session t ops t') {name : String} {child : Option NodeId}
    {type : LabelType} (hid : id < t.size) (hkind : t.kind id = .label name child type) :
    t'.kind id = .label name child ((ops.filterMap (Operation.typeFor? id)).getLastD type) := by
  rw [h.kind_eq hid, hkind]
  clear h hkind
  induction ops generalizing type with
  | nil => rfl
  | cons op ops ih =>
      rw [List.foldl_cons, Operation.onKind_label, ih, List.filterMap_cons]
      cases op.typeFor? id with
      | none => rfl
      | some given => rw [List.getLastD_cons, Option.getD_some]

/-- All other nodes below the root stay as they are. -/
theorem kind_of_ne (h : Session t ops t') (hid : id < t.size) (hzero : id ≠ 0)
    (hkind : ∀ name child type, t.kind id ≠ .label name child type) : t'.kind id = t.kind id := by
  rw [h.kind_eq hid]
  clear h
  induction ops with
  | nil => rfl
  | cons op ops ih => rw [List.foldl_cons, Operation.onKind_of_ne hzero hkind, ih]

end Session

/-- A tree that a session has made of the empty tree, and what a further session makes of
it.  Node zero is a root whose items grow at their end, all other nodes have higher numbers
than what they own, and links tell owners.  No node is taken away or changed, but that a
label gets another type. -/
theorem session_arena {earlier later : List Operation} (h : Session empty earlier t)
    (h' : Session t later t') :
    t'.kind 0 = .root (t.items ++ later.filterMap Operation.item?) ∧
      (∀ id ≠ 0, ∀ child ∈ t'.children id, child < id) ∧
      (∀ id ≠ 0, (t'.parent id = none ↔ ∀ owner, id ∉ t'.children owner) ∧
        ∀ owner, t'.parent id = some owner → id ∈ t'.children owner) ∧
      t'.size = t.size + (later.map Operation.added).sum ∧
      ∀ id < t.size, t'.line id = t.line id ∧
        (id ≠ 0 → (∀ name child type, t.kind id ≠ .label name child type) →
          t'.kind id = t.kind id) ∧
        ∀ name child type, t.kind id = .label name child type →
          t'.kind id =
            .label name child ((later.filterMap (Operation.typeFor? id)).getLastD type) := by
  have hbuilt : t.Built := h.built .empty
  have hlinked : t'.Linked := (h'.built hbuilt).linked
  refine ⟨h'.items_eq hbuilt.numbered.rooted, hlinked.numbered.lt, ?_, h'.size_eq, ?_⟩
  · intro id hid
    exact ⟨hlinked.parent_eq_none_iff hid, hlinked.owns id hid⟩
  · intro id hid
    refine ⟨h'.line_eq hid, h'.kind_of_ne hid, ?_⟩
    intro name child type hkind
    exact h'.kind_of_label hid hkind

/-- A label over a list that has one instruction twice. -/
def firstSteps : List Operation :=
  [ .add (.instruction .rts none) 2, .addList [1, 1]
  , .add (.label "a" (some 3) .unclassified) 1, .pushItem 4 ]

/-- Another label over the same list, and a repair. -/
def furtherSteps : List Operation :=
  [ .add (.label "b" (some 3) .data) 1, .setLabelType 4 .alias, .pushItem 5
  , .setLabelType 4 .code, .normalize ]

/-- The list has two owners, and its link tells the last of them. -/
theorem session_arena_twoOwners :
    let t := firstSteps.foldl Operation.apply empty
    let t' := furtherSteps.foldl Operation.apply t
    Session empty firstSteps t ∧ Session t furtherSteps t' ∧
      t'.items = [4, 5] ∧ t'.children 4 = [3] ∧ t'.children 5 = [3] ∧ t'.parent 3 = some 5 ∧
      t'.kind 0 = .root ([4] ++ [5]) ∧
      (∀ id ≠ 0, ∀ child ∈ t'.children id, child < id) ∧
      (∀ id ≠ 0, (t'.parent id = none ↔ ∀ owner, id ∉ t'.children owner) ∧
        ∀ owner, t'.parent id = some owner → id ∈ t'.children owner) ∧
      t'.size = t.size + 1 ∧
      ∀ id < t.size, t'.line id = t.line id ∧
        (id ≠ 0 → (∀ name child type, t.kind id ≠ .label name child type) →
          t'.kind id = t.kind id) ∧
        ∀ name child type, t.kind id = .label name child type →
          t'.kind id = .label name child
            ((furtherSteps.filterMap (Operation.typeFor? id)).getLastD type) := by
  intro t t'
  have h : Session empty firstSteps t := by
    refine .step ?_ (.step ?_ (.step ?_ (.step ?_ .done)))
    · exact (by decide : ∀ child ∈ [], child < 1)
    · exact (by decide : ∀ item ∈ [1, 1], item < 2)
    · exact (by decide : ∀ child ∈ [3], child < 4)
    · exact (by decide : 4 < 5)
  have h' : Session t furtherSteps t' := by
    refine .step ?_ (.step ?_ (.step ?_ (.step ?_ (.step ?_ .done))))
    · exact (by decide : ∀ child ∈ [3], child < 5)
    · exact (by decide : 4 < 6)
    · exact (by decide : 5 < 6)
    · exact (by decide : 4 < 6)
    · exact not_leads_back (by decide)
  exact ⟨h, h', by decide +kernel, by decide +kernel, by decide +kernel, by decide +kernel,
    session_arena h h'⟩

end Asm6502.Tree
