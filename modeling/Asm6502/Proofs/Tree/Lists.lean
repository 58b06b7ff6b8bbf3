import Asm6502.Proofs.Tree.Session
import Asm6502.Tree.Labels
import Mathlib.Logic.Function.Iterate

/-!
# Ordered lists

An ordered list is laid from its end: the cell of the last item gets the first free number,
and the cell of the first item the last.  Where the cells are is clear beforehand, so each
of them can be told with its item, its line and the next cell.

Nothing is asked of the items but that they are there.  One of them may come twice, may be a
cell of another list, and may be the root; for a list is followed along its cells only.  The
link from a cell to the next is an ordinary link to what a node owns, so it leads to a lower
number, and every chain of cells ends.  It ends at a cell without a next one, or at a node
that is no cell.

Cells are neither labels nor the root.  So no operation ever changes one, and a list keeps
its items for good.

## Main results

* `node_addList` — the cells of a list that was added.
* `chain_listItems`, `Chain.unique` — the items of a list are those of its chain of cells.
* `Reading.iterate_step` — reading a chain step by step.
* `session_lists` — lists that are added in a session keep their items.
-/

namespace Asm6502.Tree

variable {t t' : Tree} {id item : NodeId} {cell : Option NodeId} {items items' : List NodeId}

/-! ## The cells of a new list -/

/-- The first cell of the list that is added next. -/
def cellOf (t : Tree) : List NodeId → Option NodeId
  | [] => none
  | _ :: more => some (t.size + more.length)

theorem fst_addList (t : Tree) (items : List NodeId) : (t.addList items).1 = t.cellOf items := by
  cases items with
  | nil => rfl
  | cons item more =>
      show some (t.addList more).2.size = some (t.size + more.length)
      rw [size_addList]

/-- There is one cell for each item, and it has the line of its item. -/
theorem node_addList {front back : List NodeId} (hitem : item < t.size) :
    (t.addList (front ++ item :: back)).2.node (t.size + back.length) =
      ⟨.list item (t.cellOf back), t.line item⟩ := by
  induction front with
  | nil =>
      have hline : (t.addList back).2.line item = t.line item :=
        congrArg Node.line (node_addList_of_lt hitem back)
      show ((t.addList back).2.add (.list item (t.addList back).1)
        ((t.addList back).2.line item)).2.node (t.size + back.length) = _
      rw [← size_addList, node_add_self, fst_addList, hline]
  | cons other front ih =>
      have hlt : t.size + back.length < (t.addList (front ++ item :: back)).2.size := by
        rw [size_addList, List.length_append, List.length_cons]
        omega
      show ((t.addList (front ++ item :: back)).2.add _ _).2.node (t.size + back.length) = _
      rw [node_add_of_lt hlt, ih]

/-! ## Chains of cells -/

/-- `Chain t cell items`: the cells that follow each other from `cell` on hold the items. -/
inductive Chain (t : Tree) : Option NodeId → List NodeId → Prop where
  /-- Behind the last cell. -/
  | done : Chain t none []
  /-- A node that is no cell ends the chain. -/
  | stop {id : NodeId} (noCell : ∀ item next, t.kind id ≠ .list item next) : Chain t (some id) []
  | cell {id item : NodeId} {next : Option NodeId} {items : List NodeId}
      (hkind : t.kind id = .list item next) (more : Chain t next items) :
      Chain t (some id) (item :: items)

theorem Chain.unique (h : t.Chain cell items) (h' : t.Chain cell items') : items = items' := by
  induction h generalizing items' with
  | done =>
      cases h' with
      | done => rfl
  | stop noCell =>
      cases h' with
      | stop => rfl
      | cell hkind' => exact absurd hkind' (noCell _ _)
  | cell hkind _ ih =>
      cases h' with
      | stop noCell' => exact absurd hkind (noCell' _ _)
      | cell hkind' more' =>
          cases hkind.symm.trans hkind'
          rw [ih more']

/-- The root is no cell, and from all other cells the chain goes down. -/
theorem Numbered.next_lt (ht : t.Numbered) {next : Option NodeId}
    (hkind : t.kind id = .list item next) : id ≠ 0 ∧ ∀ n ∈ next, n < id := by
  have hid : id ≠ 0 := by
    rintro rfl
    rw [ht.rooted.kind_eq] at hkind
    cases hkind
  refine ⟨hid, fun n hn => ht.lt id hid n ?_⟩
  rw [children, hkind]
  exact List.mem_cons_of_mem _ (Option.mem_toList.2 hn)

/-- The items of a list are those of its chain of cells. -/
theorem chain_listItems (ht : t.Numbered) (id : NodeId) : t.Chain (some id) (t.listItems id) := by
  induction id using Nat.strongRecOn with
  | ind id ih =>
    by_cases hcell : ∃ item next, t.kind id = .list item next
    · obtain ⟨item, next, hkind⟩ := hcell
      have hlt : ∀ n ∈ next, n < id := (ht.next_lt hkind).2
      rw [listItems_list hkind hlt]
      refine .cell hkind ?_
      cases next with
      | none => exact .done
      | some n => exact ih n (hlt n rfl)
    · have hno : ∀ item next, t.kind id ≠ .list item next := fun item next hkind =>
        hcell ⟨item, next, hkind⟩
      have hnil : t.listItems id = [] := by
        rw [listItems]
        split
        next item next hkind => exact absurd hkind (hno item (some next))
        next item hkind => exact absurd hkind (hno item none)
        next => rfl
      rw [hnil]
      exact .stop hno

theorem Chain.listItems_eq (ht : t.Numbered) (h : t.Chain (some id) items) :
    t.listItems id = items := (chain_listItems ht id).unique h

/-- A new list is a chain of its items. -/
theorem chain_addList (hitems : ∀ item ∈ items, item < t.size) :
    (t.addList items).2.Chain (t.addList items).1 items := by
  -- The cells of the items at the end form a chain, whatever stands in front of them.
  have hback (front back : List NodeId) (heq : front ++ back = items) :
      (t.addList items).2.Chain (t.cellOf back) back := by
    induction back generalizing front with
    | nil => exact .done
    | cons item back ih =>
        have hitem : item < t.size :=
          hitems item (heq ▸ List.mem_append_right _ List.mem_cons_self)
        refine .cell ?_ (ih (front ++ [item]) (by rw [List.append_assoc]; exact heq))
        rw [kind, ← heq, node_addList hitem]
  rw [fst_addList]
  exact hback [] items rfl

/-- No operation changes a cell, and none makes one of another node. -/
theorem Chain.later {later : List Operation} (ht : t.Built) (h' : Session t later t')
    (h : t.Chain cell items) (hcell : ∀ id ∈ cell, id < t.size) : t'.Chain cell items := by
  induction h with
  | done => exact .done
  | @stop id noCell =>
      have hid : id < t.size := hcell id rfl
      refine .stop fun item next hkind' => ?_
      by_cases hzero : id = 0
      · rw [hzero, h'.items_eq ht.numbered.rooted] at hkind'
        cases hkind'
      · by_cases hlabel : ∃ name child type, t.kind id = .label name child type
        · obtain ⟨name, child, type, hkind⟩ := hlabel
          rw [h'.kind_of_label hid hkind] at hkind'
          cases hkind'
        · rw [h'.kind_of_ne hid hzero fun name child type hkind =>
            hlabel ⟨name, child, type, hkind⟩] at hkind'
          exact noCell item next hkind'
  | @cell id item next items hkind more ih =>
      have hid : id < t.size := hcell id rfl
      obtain ⟨hzero, hlt⟩ := ht.numbered.next_lt hkind
      have hnolabel : ∀ name child type, t.kind id ≠ .label name child type := by
        intro name child type hlabel
        cases hkind.symm.trans hlabel
      refine .cell ?_ (ih fun n hn => Nat.lt_trans (hlt n hn) hid)
      rw [h'.kind_of_ne hid hzero hnolabel, hkind]

/-! ## Reading a list -/

/-- What is answered when the next item is asked for, and the cell to go on with. -/
def nextItem (t : Tree) (cell : Option NodeId) : Option NodeId × Option NodeId :=
  match cell with
  | none => (none, none)
  | some id =>
    match t.kind id with
    | .list item next => (some item, next)
    | _ => (none, none)

/-- The cell to go on with, and the items that were answered. -/
structure Reading where
  cell : Option NodeId
  read : List NodeId

/-- Asks for one more item. -/
def Reading.step (t : Tree) (r : Reading) : Reading :=
  ⟨(t.nextItem r.cell).2, r.read ++ (t.nextItem r.cell).1.toList⟩

theorem nextItem_of_noCell (h : ∀ item next, t.kind id ≠ .list item next) :
    t.nextItem (some id) = (none, none) := by
  rw [nextItem]
  split
  next item next hkind => exact absurd hkind (h item next)
  next => rfl

theorem nextItem_of_cell {next : Option NodeId} (h : t.kind id = .list item next) :
    t.nextItem (some id) = (some item, next) := by
  rw [nextItem, h]

/-- Behind the end nothing is answered any more. -/
theorem Reading.iterate_step_done (n : Nat) (read : List NodeId) :
    (Reading.step t)^[n] ⟨none, read⟩ = ⟨none, read⟩ := by
  induction n with
  | zero => rfl
  | succ n ih =>
      rw [Function.iterate_succ_apply]
      show (Reading.step t)^[n] ⟨none, read ++ []⟩ = ⟨none, read⟩
      rw [List.append_nil, ih]

/-- Reading a chain takes one step for each item, and one more to notice the end. -/
theorem Reading.iterate_step (h : t.Chain cell items) (n : Nat) (read : List NodeId) :
    ((Reading.step t)^[n] ⟨cell, read⟩).read = read ++ items.take n ∧
      (items.length < n → ((Reading.step t)^[n] ⟨cell, read⟩).cell = none) := by
  induction h generalizing n read with
  | done =>
      rw [iterate_step_done, List.take_nil, List.append_nil]
      exact ⟨rfl, fun _ => rfl⟩
  | stop noCell =>
      cases n with
      | zero => exact ⟨(List.append_nil read).symm, fun hn => absurd hn (Nat.lt_irrefl 0)⟩
      | succ n =>
          rw [Function.iterate_succ_apply, step, nextItem_of_noCell noCell, iterate_step_done,
            List.take_nil]
          exact ⟨rfl, fun _ => rfl⟩
  | @cell id item next items hkind _ ih =>
      cases n with
      | zero => exact ⟨(List.append_nil read).symm, fun hn => absurd hn (Nat.not_lt_zero _)⟩
      | succ n =>
          obtain ⟨hread, hend⟩ := ih n (read ++ [item])
          rw [Function.iterate_succ_apply, step, nextItem_of_cell hkind]
          refine ⟨?_, fun hn => hend (Nat.lt_of_succ_lt_succ hn)⟩
          rw [List.take_succ_cons, List.append_cons]
          exact hread

/-! ## Lists in a session -/

/-- A list that is added to a tree that a session has made of the empty tree.  It has one
cell for each item, from the last to the first, and whatever is done afterwards, it has the
items that it was made of.  From every node of the tree, following the cells ends with the
items of their chain. -/
theorem session_lists {earlier later : List Operation} (h : Session empty earlier t)
    (hitems : ∀ item ∈ items, item < t.size) (h' : Session (t.addList items).2 later t') :
    (items = [] → t.addList items = (none, t)) ∧
      (t.addList items).1 = t.cellOf items ∧
      (t.addList items).2.size = t.size + items.length ∧
      (∀ id < t.size, (t.addList items).2.node id = t.node id) ∧
      (∀ front item back, items = front ++ item :: back →
        (t.addList items).2.node (t.size + back.length) =
          ⟨.list item (t.cellOf back), t.line item⟩) ∧
      (∀ head ∈ (t.addList items).1,
        (t.addList items).2.listItems head = items ∧ t'.listItems head = items) ∧
      ∀ id, t.Chain (some id) (t.listItems id) ∧
        (∀ found, t.Chain (some id) found → found = t.listItems id) ∧
        ∀ n, ((Reading.step t)^[n] ⟨some id, []⟩).read = (t.listItems id).take n ∧
          ((t.listItems id).length < n → ((Reading.step t)^[n] ⟨some id, []⟩).cell = none) := by
  have hbuilt : t.Built := h.built .empty
  obtain ⟨hbuilt', _, hhead⟩ := hbuilt.addList hitems
  have hchain := chain_addList hitems
  refine ⟨?_, fst_addList t items, size_addList t items,
    fun id hid => node_addList_of_lt hid items, ?_, ?_, ?_⟩
  · rintro rfl
    rfl
  · rintro front item back rfl
    exact node_addList (hitems item (List.mem_append_right _ List.mem_cons_self))
  · intro head hmem
    have hlater := hchain.later hbuilt' h' hhead
    rw [Option.mem_def.1 hmem] at hchain hlater
    exact ⟨hchain.listItems_eq hbuilt'.numbered,
      hlater.listItems_eq (h'.built hbuilt').numbered⟩
  · intro id
    have hid := chain_listItems hbuilt.numbered id
    exact ⟨hid, fun found hfound => hfound.unique hid, fun n => Reading.iterate_step hid n []⟩

/-- Items that are there twice, and a label over a list of them. -/
def listSteps : List Operation :=
  [.add (.instruction .rts none) 2, .addList [1, 1], .add (.label "a" (some 3) .unclassified) 1]

/-- The new list becomes what another label stands in front of. -/
def labelSteps : List Operation :=
  [ .add (.label "b" (some 7) .unclassified) 5, .pushItem 4, .pushItem 8, .addList [7, 7]
  , .setLabelType 4 .data, .normalize ]

/-- A list of a cell, of that cell's own item and of a label. -/
theorem session_lists_shared :
    let t := listSteps.foldl Operation.apply empty
    let items := [3, 1, 4]
    let u := (t.addList items).2
    let t' := labelSteps.foldl Operation.apply u
    Session empty listSteps t ∧ (∀ item ∈ items, item < t.size) ∧ Session u labelSteps t' ∧
      t.cellOf items = some 7 ∧ t'.listItems 7 = items ∧ t'.listItems 4 = [] ∧
      (items = [] → t.addList items = (none, t)) ∧
      (t.addList items).1 = t.cellOf items ∧
      u.size = t.size + items.length ∧
      (∀ id < t.size, u.node id = t.node id) ∧
      (∀ front item back, items = front ++ item :: back →
        u.node (t.size + back.length) = ⟨.list item (t.cellOf back), t.line item⟩) ∧
      (∀ head ∈ (t.addList items).1, u.listItems head = items ∧ t'.listItems head = items) ∧
      ∀ id, t.Chain (some id) (t.listItems id) ∧
        (∀ found, t.Chain (some id) found → found = t.listItems id) ∧
        ∀ n, ((Reading.step t)^[n] ⟨some id, []⟩).read = (t.listItems id).take n ∧
          ((t.listItems id).length < n → ((Reading.step t)^[n] ⟨some id, []⟩).cell = none) := by
  intro t items u t'
  have h : Session empty listSteps t := by
    refine .step ?_ (.step ?_ (.step ?_ .done))
    · exact (by decide : ∀ child ∈ [], child < 1)
    · exact (by decide : ∀ item ∈ [1, 1], item < 2)
    · exact (by decide : ∀ child ∈ [3], child < 4)
  have hitems : ∀ item ∈ items, item < t.size := (by decide : ∀ item ∈ [3, 1, 4], item < 5)
  have h' : Session u labelSteps t' := by
    refine .step ?_ (.step ?_ (.step ?_ (.step ?_ (.step ?_ (.step ?_ .done)))))
    · exact (by decide : ∀ child ∈ [7], child < 8)
    · exact (by decide : 4 < 9)
    · exact (by decide : 8 < 9)
    · exact (by decide : ∀ item ∈ [7, 7], item < 9)
    · exact (by decide : 4 < 11)
    · exact not_leads_back (by decide)
  have hresult := session_lists h hitems h'
  refine ⟨h, hitems, h', rfl, ?_, ?_, hresult⟩
  · exact (hresult.2.2.2.2.2.1 7 rfl).2
  · decide +kernel

end Asm6502.Tree
