import Asm6502.Proofs.Tree.Renumbering

/-!
# Trees that can be read back

An outline shows who owns what by indentation alone.  What stands below a node is what is
indented deeper, up to the first line that is not.  There is one exception: the next cell of
a list stands at the level of the cell that owns it, so below a cell there are all cells that
follow at its level as well.  This is no loss where a list is never followed by anything else
at its level that is a list, and such are the trees of programs: there lists stand below
labels and data directives only, and nothing follows a list there.

So a line covers a run of the lines behind it, and that is what its node leads to.  What is
covered falls into such runs in one way, one for each child, and the tree is read back from
the top down.

## Main results

* `covers_of_mem_rowsBelow` — a line covers all that stands below its node.
* `not_covers_siblings` — it does not cover what stands beside its node.
* `forall₂_rowsFrom` — so lines belong to the nodes that they seem to belong to.
* `outline_determines` — trees with the same outline have the same nodes, but for numbers,
  lines of the source that are not shown, and sharing.
-/

namespace Asm6502

/-- The kind of a label that does not say what it stands for; other kinds stay as they are. -/
def Node.Kind.unclassified : Node.Kind → Node.Kind
  | .label text child _ => .label text child .unclassified
  | k => k

namespace Tree

variable {t t' : Tree} {id id' : NodeId} {v w : Visit} {vs vs' : List Visit}

/-! ## Legible trees -/

/-- The tree without what its labels stand for. -/
def unclassified (t : Tree) : Tree :=
  { t with nodes := t.nodes.map fun n => { n with kind := n.kind.unclassified } }

/-- A tree whose outline can be read back. -/
structure IsLegible (t : Tree) : Prop where
  numbered : t.Numbered
  /-- It has the shape of a program, whatever its labels stand for. -/
  shape : t.unclassified.IsProgram
  /-- No name or constant goes over the end of its line. -/
  oneLine : ∀ v ∈ t.visits, ∀ text ∈ (t.kind v.id).text?, '\n' ∉ text.toList
  /-- No line is so deep that other levels share its indentation. -/
  shallow : ∀ v ∈ t.visits, v.level ≤ 64

theorem kind_unclassified (t : Tree) (id : NodeId) :
    t.unclassified.kind id = (t.kind id).unclassified := by
  simp only [kind, node, unclassified, Array.getD_eq_getD_getElem?, Array.getElem?_map]
  cases t.nodes[id]? <;> rfl

theorem children_unclassified (t : Tree) : t.unclassified.children = t.children := by
  funext id
  rw [children, children, kind_unclassified]
  cases t.kind id <;> rfl

/-- A cell of a list. -/
def IsCell (t : Tree) (id : NodeId) : Prop := ∃ item next, t.kind id = .list item next

theorem isCell_iff : t.IsCell id ↔ (t.kind id).bare = .list 0 none := by
  rw [IsCell]
  cases t.kind id <;> simp [Node.Kind.bare]

theorem isCell_unclassified : t.unclassified.IsCell id ↔ t.IsCell id := by
  rw [IsCell, IsCell, kind_unclassified]
  cases t.kind id <;> simp [Node.Kind.unclassified]

/-! ## Where lists stand -/

theorem IsExpression.not_isCell (h : t.IsExpression id) : ¬ t.IsCell id := by
  rintro ⟨item, next, hcell⟩
  cases h with
  | name hk | const hk => cases hk.symm.trans hcell
  | wrap hk => cases hk.symm.trans hcell
  | sum hk => cases hk.symm.trans hcell

theorem IsExpression.isInner (h : t.IsExpression id) : t.IsInner id := by
  cases h with
  | name hk | const hk => exact isInner_of_kind hk (by simp)
  | wrap hk => exact isInner_of_kind hk (by simp)
  | sum hk => exact isInner_of_kind hk (by simp)

theorem IsListOf.form {p : NodeId → Prop} (h : t.IsListOf p id) :
    ∃ item next, t.kind id = .list item next ∧ ∀ cell ∈ next, t.IsCell cell := by
  cases h with
  | last hk => exact ⟨_, _, hk, by simp⟩
  | more hk _ hnext =>
      refine ⟨_, _, hk, ?_⟩
      rintro cell ⟨⟩
      cases hnext with
      | last hk | more hk => exact ⟨_, _, hk⟩

/-- Below the root of a program there are expressions, cells that only cells follow, and nodes
of other kinds. -/
theorem form_of_leadsTo (ht : t.IsProgram) (hid : t.LeadsTo id) : t.IsExpression id ∨
    (∃ item next, t.kind id = .list item next ∧ ∀ cell ∈ next, t.IsCell cell) ∨
      t.IsInner id ∧ ¬ t.IsCell id ∧ ¬ t.IsSum id := by
  have hother {k : Node.Kind} (hk : t.kind id = k) (noRoot : ∀ items, k ≠ .root items)
      (noList : ∀ item next, k ≠ .list item next) (noSum : ∀ operator l r, k ≠ .sum operator l r) :
      t.IsInner id ∧ ¬ t.IsCell id ∧ ¬ t.IsSum id := by
    refine ⟨isInner_of_kind hk noRoot, ?_, ?_⟩
    · rintro ⟨item, next, hcell⟩
      exact noList item next (hk.symm.trans hcell)
    · rintro ⟨operator, l, r, hsum⟩
      exact noSum operator l r (hk.symm.trans hsum)
  obtain ⟨owner, howner, hchild⟩ := Relation.TransGen.tail'_iff.1 hid
  rcases isPart_of_mem_children ht (isPart_of_reaches ht howner) hchild with
    hpart | hexpr | ⟨_, _, hk, _⟩
  · cases hpart with
    | expression h => exact .inl h
    | values h => exact .inr (.inl h.form)
    | block h => exact .inr (.inl h.form)
    | item h =>
        rcases h with ⟨_, _, hk, _⟩ | ⟨_, _, hk, _⟩
        · exact .inr (.inr (hother hk (by simp) (by simp) (by simp)))
        · exact .inr (.inr (hother hk (by simp) (by simp) (by simp)))
    | label h =>
        cases h with
        | bare hk | outer hk | block hk =>
            exact .inr (.inr (hother hk (by simp) (by simp) (by simp)))
    | declaration h =>
        obtain ⟨_, _, hk, _⟩ := h
        exact .inr (.inr (hother hk (by simp) (by simp) (by simp)))
  · exact .inl hexpr
  · exact .inr (.inr (hother hk (by simp) (by simp) (by simp)))

/-- A tree in which no list can be taken for the rest of another one. -/
structure IsOrderly (t : Tree) : Prop where
  numbered : t.Numbered
  isInner : ∀ id, t.LeadsTo id → t.IsInner id
  /-- The items of the root are no lists. -/
  item : ∀ id ∈ t.items, ¬ t.IsCell id
  /-- What stands on the right of a sum is no list. -/
  right : ∀ id operator l r, t.LeadsTo id → t.kind id = .sum operator l r → ¬ t.IsCell r
  /-- What follows in a list is a cell. -/
  next : ∀ id item next, t.LeadsTo id → t.kind id = .list item (some next) → t.IsCell next

theorem IsLegible.isOrderly (h : t.IsLegible) : t.IsOrderly := by
  have hleads {id : NodeId} (hid : t.LeadsTo id) : t.unclassified.LeadsTo id := by
    rw [LeadsTo, children_unclassified]
    exact hid
  refine ⟨h.numbered, ?_, ?_, ?_, ?_⟩
  · intro id hid items hroot
    have hinner : t.unclassified.IsInner id := by
      rcases form_of_leadsTo h.shape (hleads hid) with h | ⟨_, _, hk, _⟩ | ⟨h, _⟩
      · exact h.isInner
      · exact isInner_of_kind hk (by simp)
      · exact h
    refine hinner items ?_
    rw [kind_unclassified, hroot]
    rfl
  · intro id hid hcell
    rw [← isCell_unclassified] at hcell
    obtain ⟨item, next, hcell⟩ := hcell
    rw [items, ← children_unclassified] at hid
    rcases h.shape.items id hid with hlabel | ⟨_, _, hk, _⟩
    · cases hlabel with
      | bare hk | outer hk | block hk => cases hk.symm.trans hcell
    · cases hk.symm.trans hcell
  · intro id operator l r hid hsum
    have hk : t.unclassified.kind id = .sum operator l r := by
      rw [kind_unclassified, hsum]
      rfl
    rw [← isCell_unclassified]
    rcases form_of_leadsTo h.shape (hleads hid) with h | ⟨_, _, hk', _⟩ | ⟨_, _, h⟩
    · refine (h.of_mem_children ?_).not_isCell
      rw [mem_children hk]
      exact List.mem_cons_of_mem _ List.mem_cons_self
    · cases hk.symm.trans hk'
    · exact absurd ⟨operator, l, r, hk⟩ h
  · intro id item next hid hcell
    have hk : t.unclassified.kind id = .list item (some next) := by
      rw [kind_unclassified, hcell]
      rfl
    rw [← isCell_unclassified]
    rcases form_of_leadsTo h.shape (hleads hid) with h | ⟨_, _, hk', hnext⟩ | ⟨_, h, _⟩
    · exact absurd ⟨item, _, hk⟩ h.not_isCell
    · cases hk.symm.trans hk'
      exact hnext next rfl
    · exact absurd ⟨item, _, hk⟩ h

/-! ## What a line covers -/

/-- Whether a line behind another one seems to stand below its node: it is deeper, or both
tell of cells at one level. -/
def Row.Covers (x y : Row) : Prop :=
  x.level < y.level ∨ x.level = y.level ∧ x.kind = .list 0 none ∧ y.kind = .list 0 none

instance (x y : Row) : Decidable (x.Covers y) :=
  inferInstanceAs (Decidable (x.level < y.level ∨
    x.level = y.level ∧ x.kind = .list 0 none ∧ y.kind = .list 0 none))

theorem Row.Covers.trans {x y z : Row} (h : x.Covers y) (h' : y.Covers z) : x.Covers z := by
  rcases h with h | ⟨h, hx, _⟩ <;> rcases h' with h' | ⟨h', _, hz⟩
  · exact .inl (Nat.lt_trans h h')
  · exact .inl (h' ▸ h)
  · exact .inl (h ▸ h')
  · exact .inr ⟨h.trans h', hx, hz⟩

/-- A line covers no other one of its level that tells of no cell. -/
theorem not_covers_of_level (hlevel : v.level = w.level) (hw : ¬ t.IsCell w.id) :
    ¬ (t.row v).Covers (t.row w) := by
  rintro (hlt | ⟨_, _, hcell⟩)
  · exact Nat.ne_of_lt hlt hlevel
  · exact hw (isCell_iff.2 hcell)

/-- The rows of a visit and of all that follow from it. -/
def rowsFrom (t : Tree) (v : Visit) : List Row := (t.subtree v).map t.row

/-- The rows of what a visited node leads to. -/
def rowsBelow (t : Tree) (v : Visit) : List Row :=
  (placed (t.kind v.id) v.level).flatMap t.rowsFrom

namespace IsOrderly

theorem not_leadsTo (ht : t.IsOrderly) : ¬ t.LeadsTo 0 := by
  intro hroot
  exact ht.isInner 0 hroot t.items ht.numbered.rooted.kind_eq

theorem leadsTo_of_mem_placed (hv : t.LeadsTo v.id) (hw : w ∈ placed (t.kind v.id) v.level) :
    t.LeadsTo w.id := hv.tail (mem_children_of_mem_placed hw)

theorem lt_of_mem_placed (ht : t.IsOrderly) (hv : t.LeadsTo v.id)
    (hw : w ∈ placed (t.kind v.id) v.level) : w.id < v.id :=
  ht.numbered.lt v.id (hv.ne_zero ht.not_leadsTo) w.id (mem_children_of_mem_placed hw)

theorem rowsFrom_eq (ht : t.IsOrderly) (hv : t.LeadsTo v.id) :
    t.rowsFrom v = t.row v :: t.rowsBelow v := by
  rw [rowsFrom, subtree_eq, below_of_leadsTo ht.numbered ht.not_leadsTo hv, List.map_cons,
    List.map_flatMap]
  rfl

/-- A line covers that of each child. -/
theorem covers_of_mem_placed (ht : t.IsOrderly) (hv : t.LeadsTo v.id)
    (hw : w ∈ placed (t.kind v.id) v.level) : (t.row v).Covers (t.row w) := by
  cases hkind : t.kind v.id with
  | root items => exact absurd hkind (ht.isInner v.id hv items)
  | list item next =>
      rw [hkind] at hw
      rcases List.mem_cons.1 hw with rfl | hw
      · exact .inl (Nat.lt_succ_self _)
      · obtain ⟨cell, hcell, rfl⟩ := List.mem_map.1 hw
        obtain rfl := Option.mem_toList.1 hcell
        have hnext := ht.next v.id item cell hv hkind
        exact .inr ⟨rfl, isCell_iff.1 ⟨item, _, hkind⟩, isCell_iff.1 hnext⟩
  | data | decl | label | name | const | wrap | sum | instruction =>
      rw [hkind] at hw
      obtain ⟨child, _, rfl⟩ := List.mem_map.1 hw
      exact .inl (Nat.lt_succ_self _)

/-- A line covers all that stands below its node. -/
theorem covers_of_mem_rowsBelow (ht : t.IsOrderly) (hv : t.LeadsTo v.id) {x : Row}
    (hx : x ∈ t.rowsBelow v) : (t.row v).Covers x := by
  induction hn : v.id using Nat.strongRecOn generalizing v with
  | ind n ih =>
    subst hn
    obtain ⟨w, hw, hx⟩ := List.mem_flatMap.1 hx
    have hcovers := ht.covers_of_mem_placed hv hw
    have hleads := leadsTo_of_mem_placed hv hw
    rw [ht.rowsFrom_eq hleads] at hx
    rcases List.mem_cons.1 hx with rfl | hx
    · exact hcovers
    · exact hcovers.trans (ih w.id (ht.lt_of_mem_placed hv hw) hleads hx rfl)

/-- Of what a node owns, no line covers a later one. -/
theorem not_covers_siblings (ht : t.IsOrderly) (hv : t.LeadsTo v.id) :
    (placed (t.kind v.id) v.level).Pairwise fun w x => ¬ (t.row w).Covers (t.row x) := by
  cases hkind : t.kind v.id with
  | root items => exact absurd hkind (ht.isInner v.id hv items)
  | list item next =>
      cases next with
      | none => exact List.pairwise_singleton _ _
      | some next =>
          refine List.pairwise_pair.2 ?_
          rintro (hlt | ⟨heq, _⟩)
          · exact Nat.not_succ_lt_self hlt
          · exact Nat.succ_ne_self _ heq
  | sum operator l r =>
      exact List.pairwise_pair.2 (not_covers_of_level rfl (ht.right v.id operator l r hv hkind))
  | label text child type =>
      cases child with
      | none => exact .nil
      | some => exact List.pairwise_singleton _ _
  | instruction m operand =>
      cases operand with
      | none => exact .nil
      | some => exact List.pairwise_singleton _ _
  | name | const => exact .nil
  | data | decl | wrap => exact List.pairwise_singleton _ _

/-- Nor does one of the items of the root. -/
theorem not_covers_items (ht : t.IsOrderly) :
    t.itemVisits.Pairwise fun w x => ¬ (t.row w).Covers (t.row x) := by
  refine List.pairwise_map.2 (List.pairwise_of_forall_mem_list ?_)
  intro item _ item' hitem'
  exact not_covers_of_level rfl (ht.item item' hitem')

/-- What is not covered where it starts ends what is covered. -/
theorem not_covers_of_mem_head? (ht : t.IsOrderly) (hvs : ∀ v ∈ vs, t.LeadsTo v.id) {x : Row}
    (hrow : ∀ v ∈ vs, ¬ x.Covers (t.row v)) :
    ∀ y ∈ (vs.flatMap t.rowsFrom).head?, decide (x.Covers y) = false := by
  intro y hy
  cases vs with
  | nil => cases hy
  | cons v vs =>
      rw [List.flatMap_cons, ht.rowsFrom_eq (hvs v List.mem_cons_self)] at hy
      cases hy
      exact decide_eq_false (hrow v List.mem_cons_self)

/-- Lines that no other of them covers, each with what it does cover, are the same line by
line if they are the same all together. -/
theorem forall₂_rowsFrom (ht : t.IsOrderly) (ht' : t'.IsOrderly)
    (hvs : ∀ v ∈ vs, t.LeadsTo v.id) (hvs' : ∀ v ∈ vs', t'.LeadsTo v.id)
    (hrow : vs.Pairwise fun v w => ¬ (t.row v).Covers (t.row w))
    (hrow' : vs'.Pairwise fun v w => ¬ (t'.row v).Covers (t'.row w))
    (heq : vs.flatMap t.rowsFrom = vs'.flatMap t'.rowsFrom) :
    List.Forall₂ (fun v v' => t.rowsFrom v = t'.rowsFrom v') vs vs' := by
  induction vs generalizing vs' with
  | nil =>
      cases vs' with
      | nil => exact .nil
      | cons v' vs' =>
          rw [List.flatMap_cons, ht'.rowsFrom_eq (hvs' v' List.mem_cons_self)] at heq
          cases heq
  | cons v vs ih =>
      have hv := hvs v List.mem_cons_self
      cases vs' with
      | nil =>
          rw [List.flatMap_cons, ht.rowsFrom_eq hv] at heq
          cases heq
      | cons v' vs' =>
          have hv' := hvs' v' List.mem_cons_self
          obtain ⟨hbeside, hlater⟩ := List.pairwise_cons.1 hrow
          obtain ⟨hbeside', hlater'⟩ := List.pairwise_cons.1 hrow'
          rw [List.flatMap_cons, List.flatMap_cons, ht.rowsFrom_eq hv, ht'.rowsFrom_eq hv',
            List.cons_append, List.cons_append] at heq
          injection heq with hfirst hrest
          -- Both lines cover the same, so both runs of covered lines end at the same place.
          have hinside : ∀ x ∈ t.rowsBelow v, decide ((t.row v).Covers x) = true :=
            fun x hx => decide_eq_true (ht.covers_of_mem_rowsBelow hv hx)
          have hinside' : ∀ x ∈ t'.rowsBelow v', decide ((t.row v).Covers x) = true := by
            rw [hfirst]
            exact fun x hx => decide_eq_true (ht'.covers_of_mem_rowsBelow hv' hx)
          have hmore : ∀ w ∈ vs, t.LeadsTo w.id := fun w hw => hvs w (List.mem_cons_of_mem _ hw)
          have hmore' : ∀ w ∈ vs', t'.LeadsTo w.id :=
            fun w hw => hvs' w (List.mem_cons_of_mem _ hw)
          have hend := ht.not_covers_of_mem_head? hmore hbeside
          have hend' := ht'.not_covers_of_mem_head? hmore' hbeside'
          rw [← hfirst] at hend'
          obtain ⟨hbelow, hrest⟩ := append_inj_of_boundary hinside hend hinside' hend' hrest
          refine .cons ?_ (ih hmore hmore' hlater hlater' hrest)
          rw [ht.rowsFrom_eq hv, ht'.rowsFrom_eq hv', hfirst, hbelow]

theorem forall₂_twins
    (hrows : List.Forall₂ (fun v v' => t.rowsFrom v = t'.rowsFrom v') vs vs')
    (htwins : ∀ v ∈ vs, ∀ v' ∈ vs', t.rowsFrom v = t'.rowsFrom v' → t.Twins t' v.id v'.id) :
    List.Forall₂ (t.Twins t') (vs.map Visit.id) (vs'.map Visit.id) := by
  rw [List.forall₂_map_left_iff, List.forall₂_map_right_iff]
  refine List.forall₂_iff_zip.2 ⟨hrows.length_eq, ?_⟩
  intro v v' hv
  obtain ⟨hleft, hright⟩ := List.of_mem_zip hv
  exact htwins v hleft v' hright ((List.forall₂_iff_zip.1 hrows).2 hv)

/-- Nodes of which the same lines tell are twins. -/
theorem twins_of_rowsFrom (ht : t.IsOrderly) (ht' : t'.IsOrderly) {v v' : Visit}
    (hv : t.LeadsTo v.id) (hv' : t'.LeadsTo v'.id) (heq : t.rowsFrom v = t'.rowsFrom v') :
    t.Twins t' v.id v'.id := by
  induction hn : v.id using Nat.strongRecOn generalizing v v' with
  | ind n ih =>
    subst hn
    rw [ht.rowsFrom_eq hv, ht'.rowsFrom_eq hv'] at heq
    injection heq with hrow hbelow
    have hrows := forall₂_rowsFrom ht ht' (fun w hw => leadsTo_of_mem_placed hv hw)
      (fun w hw => leadsTo_of_mem_placed hv' hw) (ht.not_covers_siblings hv)
      (ht'.not_covers_siblings hv') hbelow
    have hchildren := forall₂_twins hrows fun w hw w' hw' hsame =>
      ih w.id (ht.lt_of_mem_placed hv hw) (leadsTo_of_mem_placed hv hw)
        (leadsTo_of_mem_placed hv' hw') hsame rfl
    rw [map_id_placed, map_id_placed] at hchildren
    exact .node (congrArg Row.kind hrow) (congrArg Row.shown hrow) hchildren

end IsOrderly

/-! ## Reading a tree back -/

theorem IsLegible.isPlain (h : t.IsLegible) (hv : v ∈ t.visits) : t.IsPlain v where
  noRoot := by
    have hne := Numbered.ne_zero_of_mem_visits h.isOrderly.not_leadsTo hv
    have hwalk : v.id ∈ t.walk := List.mem_cons_of_mem _ (List.mem_map_of_mem hv)
    rcases Relation.reflTransGen_iff_eq_or_transGen.1 (h.numbered.mem_walk.1 hwalk) with hzero | hid
    · exact absurd hzero hne
    · exact h.isOrderly.isInner v.id hid
  oneLine := h.oneLine v hv
  shallow := h.shallow v hv

/-- The outline of a legible tree tells the rows of all its lines. -/
theorem IsLegible.rows_eq (h : t.IsLegible) (h' : t'.IsLegible) (heq : t.outline = t'.outline) :
    t.itemVisits.flatMap t.rowsFrom = t'.itemVisits.flatMap t'.rowsFrom := by
  have htext : t.textOf t.visits = t'.textOf t'.visits := by
    rw [textOf, ← outline_eq, heq, outline_eq, textOf]
  have hrows := map_row_eq_of_textOf_eq (fun _ => h.isPlain) (fun _ => h'.isPlain) htext
  rwa [visits_eq, visits_eq, List.map_flatMap, List.map_flatMap] at hrows

/-- The roots of legible trees with the same outline are twins. -/
theorem IsLegible.twins (h : t.IsLegible) (h' : t'.IsLegible) (heq : t.outline = t'.outline) :
    t.Twins t' 0 0 := by
  have hroot : t.kind 0 = .root t.items := h.numbered.rooted.kind_eq
  have hroot' : t'.kind 0 = .root t'.items := h'.numbered.rooted.kind_eq
  have hids (t : Tree) : t.itemVisits.map Visit.id = t.children 0 := by
    rw [itemVisits, List.map_map]
    exact List.map_id _
  have hitems (t : Tree) : ∀ v ∈ t.itemVisits, t.LeadsTo v.id := by
    intro v hv
    obtain ⟨item, hitem, rfl⟩ := List.mem_map.1 hv
    exact .single hitem
  have hrows := IsOrderly.forall₂_rowsFrom h.isOrderly h'.isOrderly (hitems t) (hitems t')
    h.isOrderly.not_covers_items h'.isOrderly.not_covers_items (h.rows_eq h' heq)
  have hbelow := IsOrderly.forall₂_twins hrows fun v hv v' hv' hsame =>
    IsOrderly.twins_of_rowsFrom h.isOrderly h'.isOrderly (hitems t v hv) (hitems t' v' hv') hsame
  rw [hids, hids] at hbelow
  refine .node ?_ ?_ hbelow
  · rw [hroot, hroot']
    rfl
  · have hshown {t : Tree} {items : List NodeId} (h : t.kind 0 = .root items) :
        (t.node 0).shownLine? = none := by
      rw [Node.shownLine?, show (t.node 0).kind = _ from h]
    rw [hshown hroot, hshown hroot']

/-- The outline of a legible tree determines the tree.  If two of them have the same outline,
their roots are twins: what they own, what that owns in turn, and so on, are nodes of the same
kinds with the same texts, in the same order and number, and instructions were read from the
same lines.  Where no node has two places in its tree, the two trees have the same nodes under
different numbers. -/
theorem outline_determines (h : t.IsLegible) (h' : t'.IsLegible)
    (houtline : t.outline = t'.outline) :
    t.Twins t' 0 0 ∧ (t.OnePlace → t'.OnePlace → ∃ f, t.Renumbers t' f) := by
  have htwins := h.twins h' houtline
  refine ⟨htwins, ?_⟩
  intro hone hone'
  exact exists_renumbers htwins h.isOrderly.not_leadsTo h'.isOrderly.not_leadsTo hone hone'

/-- A label over a list of one instruction, and a declaration. -/
def firstOutlinedTree : Tree :=
  let t := ((empty.add (.name "v") 2).2.add (.wrap .immediate 1) 2).2
  let t := ((t.add (.instruction .lda (some 2)) 2).2.addList [3]).2
  let t := (t.add (.label "a [b]" (some 4) .code) 1).2
  let t := ((t.add (.const "7") 3).2.add (.decl "c =" 6) 3).2
  (t.pushItem 5).pushItem 7

/-- The same from other lines, with the declaration built first and a node that nothing owns. -/
def secondOutlinedTree : Tree :=
  let t := ((empty.add (.const "7") 8).2.add (.decl "c =" 1) 9).2
  let t := ((t.add (.name "w") 9).2.add (.name "v") 9).2
  let t := ((t.add (.wrap .immediate 4) 9).2.add (.instruction .lda (some 5)) 2).2
  let t := ((t.addList [6]).2.add (.label "a [b]" (some 7) .code) 9).2
  (t.pushItem 8).pushItem 2

/-- The texts of the label and of the declaration look like parts of their headings. -/
theorem outline_determines_outlinedTrees :
    let t := firstOutlinedTree
    let t' := secondOutlinedTree
    t.IsLegible ∧ t'.IsLegible ∧ t.outline = t'.outline ∧
      t.outline = "label: a [b] [code]\n    list element:\n" ++
        "        instruction (line 2) 11 LDA:\n            immediate:\n" ++
        "                name: v\ndecl: c = =\n    constant: 7\n" ∧
      t.OnePlace ∧ t'.OnePlace ∧ t.Twins t' 0 0 ∧ ∃ f, t.Renumbers t' f := by
  intro t t'
  have hprogram {t : Tree} (label cell code sign name declaration value : NodeId)
      (h : t.kind 0 = .root [label, declaration] ∧
        t.kind label = .label "a [b]" (some cell) .unclassified ∧ t.kind cell = .list code none ∧
        t.kind code = .instruction .lda (some sign) ∧ t.kind sign = .wrap .immediate name ∧
        t.kind name = .name "v" ∧ t.kind declaration = .decl "c =" value ∧
        t.kind value = .const "7") : t.IsProgram := by
    obtain ⟨hroot, hlabel, hcell, hcode, hsign, hname, hdeclaration, hvalue⟩ := h
    have hitem : t.IsItem code := by
      refine .inl ⟨.lda, some sign, hcode, ?_⟩
      rintro id ⟨⟩
      exact .inl (.wrap hsign rfl (.name hname))
    have hitems : t.items = [label, declaration] := by
      rw [items, children, hroot]
      rfl
    refine ⟨by rw [hitems, hroot], ?_⟩
    intro id hid
    rw [hitems] at hid
    rcases List.mem_pair.1 hid with rfl | rfl
    · exact .inl (.block hlabel (.last hcell hitem))
    · exact .inr ⟨_, _, hdeclaration, .const hvalue⟩
  have hbuilt : t.Built := by
    refine .pushItem (.pushItem (.add (.add (.add (Built.addList ?_ ?_).1 ?_) ?_) ?_) ?_) ?_
    · refine .add (.add (.add .empty ?_) ?_) ?_ <;> decide
    all_goals decide
  have hbuilt' : t'.Built := by
    refine .pushItem (.pushItem (.add (Built.addList ?_ ?_).1 ?_) ?_) ?_
    · refine .add (.add (.add (.add (.add (.add .empty ?_) ?_) ?_) ?_) ?_) ?_ <;> decide
    all_goals decide
  have ht : t.IsLegible :=
    ⟨hbuilt.numbered, hprogram 5 4 3 2 1 7 6 (by decide +kernel), by decide +kernel,
      by decide +kernel⟩
  have ht' : t'.IsLegible :=
    ⟨hbuilt'.numbered, hprogram 8 7 6 5 4 2 1 (by decide +kernel), by decide +kernel,
      by decide +kernel⟩
  have heq : t.outline = t'.outline := by decide +kernel
  have hone : t.OnePlace := onePlace_of_nodup (by decide +kernel)
  have hone' : t'.OnePlace := onePlace_of_nodup (by decide +kernel)
  obtain ⟨htwins, hrenumbers⟩ := outline_determines ht ht' heq
  exact ⟨ht, ht', heq, by decide +kernel, hone, hone', htwins, hrenumbers hone hone'⟩

end Tree

end Asm6502
