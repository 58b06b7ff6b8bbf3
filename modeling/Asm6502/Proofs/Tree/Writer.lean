import Asm6502.Proofs.Tree.Claims
import Mathlib.Logic.Function.Iterate

/-!
# The text of an outline

The text of an outline is told in two ways here, neither of which uses walks.

The first is a recursion on nodes: what is written for a node, put together from what is
written for the nodes that it owns.  A relation says so, for on a tree whose root leads back
to itself the recursion would not end, and there is no such text.

The second is a loop with a stack of the nodes that are still due, each with the blanks in
front of its line.  It counts no levels: going down adds blanks up to the limit.  On a tree
whose root leads back to itself the stack would never be empty.

On all other trees both give the outline.

## Main results

* `Prints.unique` — the recursion gives one text at most.
* `prints_textOf` — below the root it gives the lines of the visits.
* `Writer.iterate_step` — the loop writes the lines of the visits, one in each round.
* `outline_prints` — recursion, loop and outline agree.
-/

namespace Asm6502.Tree

variable {t : Tree} {id : NodeId} {level : Nat} {text text' : String}

/-! ## The recursion -/

/-- The line of a node behind the given number of blanks; a root has none. -/
def lineBehind (t : Tree) (blanks : Nat) (id : NodeId) : String :=
  match (t.node id).heading? with
  | none => ""
  | some heading => String.ofList (List.replicate blanks ' ') ++ heading ++ "\n"

/-- The line of a node at the given level: four blanks for each level, and 256 at most. -/
def lineAt (t : Tree) (level : Nat) (id : NodeId) : String := t.lineBehind (min (4 * level) 256) id

theorem lineBehind_root {items : List NodeId} (hk : t.kind id = .root items) (blanks : Nat) :
    t.lineBehind blanks id = "" := by
  have hheading : (t.node id).heading? = none := by
    rw [Node.heading?, show (t.node id).kind = _ from hk]
  rw [lineBehind, hheading]

/-- The line of a list cell at the given level. -/
def cellLine (level : Nat) : String := blanksAt level ++ "list element:" ++ "\n"

theorem lineAt_list {item : NodeId} {next : Option NodeId} (hk : t.kind id = .list item next)
    (level : Nat) : t.lineAt level id = cellLine level := by
  have hheading : (t.node id).heading? = some "list element:" := by
    rw [Node.heading?, show (t.node id).kind = _ from hk]
  rw [lineAt, lineBehind, hheading]
  rfl

/-- `Prints t level id text`: the text of the node at the given level. -/
inductive Prints (t : Tree) : Nat → NodeId → String → Prop where
  /-- A root contributes its items, at its own level. -/
  | root {level : Nat} {id : NodeId} {items : List NodeId} {below : NodeId → String}
      (hk : t.kind id = .root items) (hitems : ∀ item ∈ items, Prints t level item (below item)) :
      Prints t level id (String.join (items.map below))
  /-- The last cell of a list has a line, which is followed by its item, one level deeper. -/
  | last {level : Nat} {id item : NodeId} {text : String} (hk : t.kind id = .list item none)
      (hitem : Prints t (level + 1) item text) : Prints t level id (cellLine level ++ text)
  /-- Behind the item of any other cell, the next one comes at the same level. -/
  | more {level : Nat} {id item next : NodeId} {text rest : String}
      (hk : t.kind id = .list item (some next)) (hitem : Prints t (level + 1) item text)
      (hnext : Prints t level next rest) : Prints t level id (cellLine level ++ text ++ rest)
  /-- All other nodes are followed by what they own, in source order and one level deeper. -/
  | other {level : Nat} {id : NodeId} {below : NodeId → String}
      (noRoot : ∀ items, t.kind id ≠ .root items) (noCell : ∀ item next, t.kind id ≠ .list item next)
      (hchildren : ∀ child ∈ t.children id, Prints t (level + 1) child (below child)) :
      Prints t level id (t.lineAt level id ++ String.join ((t.children id).map below))

/-- A node has one text at each level, if it has any. -/
theorem Prints.unique (h : t.Prints level id text) (h' : t.Prints level id text') :
    text = text' := by
  induction h generalizing text' with
  | root hk _ ih =>
      cases h' with
      | root hk' hitems' =>
          cases hk.symm.trans hk'
          exact congrArg String.join (List.map_congr_left fun i hi => ih i hi (hitems' i hi))
      | last hk' => cases hk.symm.trans hk'
      | more hk' => cases hk.symm.trans hk'
      | other noRoot => exact absurd hk (noRoot _)
  | last hk _ ih =>
      cases h' with
      | root hk' => cases hk.symm.trans hk'
      | last hk' hitem' =>
          cases hk.symm.trans hk'
          rw [ih hitem']
      | more hk' => cases hk.symm.trans hk'
      | other _ noCell => exact absurd hk (noCell _ _)
  | more hk _ _ ihitem ihnext =>
      cases h' with
      | root hk' => cases hk.symm.trans hk'
      | last hk' => cases hk.symm.trans hk'
      | more hk' hitem' hnext' =>
          cases hk.symm.trans hk'
          rw [ihitem hitem', ihnext hnext']
      | other _ noCell => exact absurd hk (noCell _ _)
  | other noRoot noCell _ ih =>
      cases h' with
      | root hk' => exact absurd hk' (noRoot _)
      | last hk' => exact absurd hk' (noCell _ _)
      | more hk' => exact absurd hk' (noCell _ _)
      | other _ _ hchildren' =>
          rw [List.map_congr_left fun child hchild => ih child hchild (hchildren' child hchild)]

/-! ## The lines of visits -/

/-- The lines of several visits, without comments. -/
def textOf (t : Tree) (vs : List Visit) : String := String.join (vs.map fun v => t.written v none)

/-- The line of a visit does not depend on how the blanks are counted. -/
theorem written_eq (t : Tree) (v : Visit) : t.written v none = t.lineAt v.level v.id := by
  rw [written, lineAt, lineBehind]
  cases (t.node v.id).heading? with
  | none => rfl
  | some heading => rfl

theorem textOf_cons (t : Tree) (v : Visit) (vs : List Visit) :
    t.textOf (v :: vs) = t.lineAt v.level v.id ++ t.textOf vs := by
  rw [textOf, List.map_cons, String.join_cons, written_eq, textOf]

theorem textOf_flatMap (t : Tree) (vs : List Visit) :
    t.textOf (vs.flatMap t.subtree) = String.join (vs.map fun v => t.textOf (t.subtree v)) := by
  induction vs with
  | nil => rfl
  | cons v vs ih =>
      rw [List.flatMap_cons, textOf, List.map_append, String.join_append, List.map_cons,
        String.join_cons, ← ih]
      rfl

/-- The way down from the root to a node, at least one step long. -/
def LeadsTo (t : Tree) (id : NodeId) : Prop :=
  Relation.TransGen (fun owner id => id ∈ t.children owner) 0 id

theorem LeadsTo.ne_zero (hroot : ¬ t.LeadsTo 0) (h : t.LeadsTo id) : id ≠ 0 := by
  rintro rfl
  exact hroot h

/-- Below a root that does not lead back to itself, no step is left out. -/
theorem below_of_leadsTo (ht : t.Numbered) (hroot : ¬ t.LeadsTo 0) {v : Visit}
    (hv : t.LeadsTo v.id) : t.below v = placed (t.kind v.id) v.level :=
  ht.below_eq (hv.ne_zero hroot)

theorem textOf_subtree (ht : t.Numbered) (hroot : ¬ t.LeadsTo 0) (hid : t.LeadsTo id)
    (level : Nat) : t.textOf (t.subtree ⟨id, level⟩) = t.lineAt level id ++
      String.join ((placed (t.kind id) level).map fun v => t.textOf (t.subtree v)) := by
  rw [subtree_eq, textOf_cons, textOf_flatMap, below_of_leadsTo ht hroot hid]

/-- Below the root, the lines of the visits are the text of a node. -/
theorem prints_textOf (ht : t.Numbered) (hroot : ¬ t.LeadsTo 0) (hid : t.LeadsTo id)
    (level : Nat) : t.Prints level id (t.textOf (t.subtree ⟨id, level⟩)) := by
  induction id using Nat.strongRecOn generalizing level with
  | ind id ih =>
    have hbelow (child : NodeId) (hchild : child ∈ t.children id) (level : Nat) :
        t.Prints level child (t.textOf (t.subtree ⟨child, level⟩)) :=
      ih child (ht.lt id (hid.ne_zero hroot) child hchild) (hid.tail hchild) level
    rw [textOf_subtree ht hroot hid]
    have hother (noRoot : ∀ items, t.kind id ≠ .root items)
        (noCell : ∀ item next, t.kind id ≠ .list item next)
        (hplaced : placed (t.kind id) level = (t.children id).map (⟨·, level + 1⟩)) :
        t.Prints level id (t.lineAt level id ++
          String.join ((placed (t.kind id) level).map fun v => t.textOf (t.subtree v))) := by
      rw [hplaced, List.map_map]
      exact .other noRoot noCell fun child hchild => hbelow child hchild (level + 1)
    cases hkind : t.kind id with
    | root items =>
        rw [lineAt, lineBehind_root hkind, String.empty_append, placed, List.map_map]
        refine .root hkind fun item hitem => hbelow item ?_ level
        rwa [children, hkind]
    | list item next =>
        rw [lineAt_list hkind]
        have hitem := hbelow item (by rw [children, hkind]; exact List.mem_cons_self) (level + 1)
        cases next with
        | none =>
            have htext : String.join ((placed (.list item none) level).map fun v =>
                t.textOf (t.subtree v)) = t.textOf (t.subtree ⟨item, level + 1⟩) := by
              simp [placed]
            rw [htext]
            exact .last hkind hitem
        | some next =>
            have hnext := hbelow next (by rw [children, hkind]; simp [Node.Kind.children]) level
            have htext : String.join ((placed (.list item (some next)) level).map fun v =>
                t.textOf (t.subtree v)) =
                  t.textOf (t.subtree ⟨item, level + 1⟩) ++ t.textOf (t.subtree ⟨next, level⟩) := by
              simp [placed]
            rw [htext, ← String.append_assoc]
            exact .more hkind hitem hnext
    | data | decl | label | name | const | wrap | sum | instruction =>
        rw [← hkind]
        refine hother ?_ ?_ ?_
        · simp [hkind]
        · simp [hkind]
        · rw [children, hkind]
          rfl

/-! ## The loop -/

/-- A node to be written, and the blanks in front of its line. -/
structure Due where
  id : NodeId
  blanks : Nat

/-- The blanks one level deeper. -/
def deeper (blanks : Nat) : Nat := min (blanks + indentStep) indentLimit

/-- What is due below a node of the kind, the next one first. -/
def dueBelow (k : Node.Kind) (blanks : Nat) : List Due :=
  match k with
  | .root items => items.map (⟨·, blanks⟩)
  | .list item next => ⟨item, deeper blanks⟩ :: next.toList.map (⟨·, blanks⟩)
  | k => k.children.map (⟨·, deeper blanks⟩)

/-- A stack of nodes to be written, and what has been written. -/
structure Writer where
  due : List Due
  text : String

/-- One round: the node on top is written, and what it owns comes on top of the stack. -/
def Writer.step (t : Tree) (w : Writer) : Writer :=
  match w.due with
  | [] => w
  | d :: rest => ⟨dueBelow (t.kind d.id) d.blanks ++ rest, w.text ++ t.lineBehind d.blanks d.id⟩

/-- What is due for a visit. -/
def Visit.due (v : Visit) : Due := ⟨v.id, min (4 * v.level) 256⟩

theorem deeper_min (level : Nat) : deeper (min (4 * level) 256) = min (4 * (level + 1)) 256 := by
  simp only [deeper, indentStep, indentLimit]
  omega

/-- Adding blanks level by level is the same as counting levels. -/
theorem dueBelow_min (k : Node.Kind) (level : Nat) :
    dueBelow k (min (4 * level) 256) = (placed k level).map Visit.due := by
  cases k with
  | root items => simp [dueBelow, placed, Visit.due]
  | list item next => simp [dueBelow, placed, Visit.due, deeper_min]
  | data | decl | label | name | const | wrap | sum | instruction =>
      simp [dueBelow, placed, Visit.due, deeper_min]

/-- A stack is emptied in as many rounds as there are visits, and their lines are written. -/
theorem Writer.iterate_step (ht : t.Numbered) (hroot : ¬ t.LeadsTo 0) (vs : List Visit)
    (hvs : ∀ v ∈ vs, t.LeadsTo v.id) (text : String) :
    (Writer.step t)^[(vs.flatMap t.subtree).length] ⟨vs.map Visit.due, text⟩ =
      ⟨[], text ++ t.textOf (vs.flatMap t.subtree)⟩ := by
  induction hn : (vs.flatMap t.subtree).length generalizing vs text with
  | zero =>
      cases vs with
      | nil => simp [textOf]
      | cons v vs =>
          rw [List.flatMap_cons, subtree_eq] at hn
          cases hn
  | succ n ih =>
      cases vs with
      | nil => cases hn
      | cons v work =>
          have hv : t.LeadsTo v.id := hvs v List.mem_cons_self
          have hvisits : (v :: work).flatMap t.subtree =
              v :: (t.below v ++ work).flatMap t.subtree := by
            rw [List.flatMap_cons, subtree_eq, List.cons_append, List.flatMap_append]
          have hstep : Writer.step t ⟨(v :: work).map Visit.due, text⟩ =
              ⟨(t.below v ++ work).map Visit.due, text ++ t.lineAt v.level v.id⟩ := by
            rw [List.map_append, below_of_leadsTo ht hroot hv, ← dueBelow_min]
            rfl
          have hbelow : ∀ w ∈ t.below v ++ work, t.LeadsTo w.id := by
            intro w hw
            rcases List.mem_append.1 hw with hw | hw
            · refine hv.tail ?_
              have hmem : w.id ∈ (t.below v).map Visit.id := List.mem_map_of_mem hw
              rw [map_id_below] at hmem
              exact (List.mem_filter.1 hmem).1
            · exact hvs w (List.mem_cons_of_mem _ hw)
          rw [hvisits, List.length_cons] at hn
          rw [Function.iterate_succ_apply, hstep, ih _ hbelow _ (Nat.succ.inj hn), hvisits,
            textOf_cons, String.append_assoc]

/-! ## One text -/

/-- The outline of a tree whose root does not lead back to itself is the text that the
recursion gives for the root, and no other text is.  The loop that starts with the root on
its stack comes to an end with that text. -/
theorem outline_prints (ht : t.Built)
    (hroot : ¬ Relation.TransGen (fun owner id => id ∈ t.children owner) 0 0) :
    (∀ text, t.Prints 0 0 text ↔ text = t.outline) ∧
      (Writer.step t)^[t.visits.length + 1] ⟨[⟨0, 0⟩], ""⟩ = ⟨[], t.outline⟩ := by
  have hnumbered := ht.numbered
  have hkind : t.kind 0 = .root t.items := hnumbered.rooted.kind_eq
  have houtline : t.outline = t.textOf (t.itemVisits.flatMap t.subtree) := by
    rw [outline_eq, visits_eq]
    rfl
  have hprints : t.Prints 0 0 t.outline := by
    rw [houtline, textOf_flatMap, itemVisits, List.map_map]
    exact .root hkind fun item hitem => prints_textOf hnumbered hroot (.single hitem) 0
  refine ⟨?_, ?_⟩
  · intro text
    constructor
    · intro htext
      exact htext.unique hprints
    · rintro rfl
      exact hprints
  · have hline : t.lineBehind 0 0 = "" := lineBehind_root hkind 0
    have hstep : Writer.step t ⟨[⟨0, 0⟩], ""⟩ = ⟨t.itemVisits.map Visit.due, ""⟩ := by
      simp only [Writer.step, hkind, hline, dueBelow, itemVisits, List.map_map, List.append_nil,
        String.append_empty]
      rfl
    have hitems : ∀ v ∈ t.itemVisits, t.LeadsTo v.id := by
      intro v hv
      obtain ⟨item, hitem, rfl⟩ := List.mem_map.1 hv
      exact .single hitem
    rw [Function.iterate_succ_apply, hstep, houtline, visits_eq,
      Writer.iterate_step hnumbered hroot _ hitems, String.empty_append]

/-- A label over a second root, which has one name twice, and a label over a list of this name and
this root. -/
def splicedTree : Tree :=
  let t := (empty.add (.name "v") 1).2
  let t := (t.add (.root [1, 1]) 1).2
  let t := (t.add (.label "a" (some 2) .code) 1).2
  let t := ((t.addList [1, 2]).2.add (.label "b" (some 5) .data) 2).2
  (t.pushItem 3).pushItem 6

theorem built_splicedTree : splicedTree.Built := by
  let t := (((empty.add (.name "v") 1).2.add (.root [1, 1]) 1).2.add
    (.label "a" (some 2) .code) 1).2
  have hlabel : t.Built := .add (.add (.add .empty (by decide)) (by decide)) (by decide)
  have hitems : ∀ item ∈ [1, 2], item < t.size := by decide
  have hlist := (hlabel.addList hitems).1
  exact .pushItem (.pushItem (.add hlist (by decide)) (by decide)) (by decide)

/-- The second root has no line, and its items stand at the level of the root. -/
theorem outline_prints_splicedTree :
    let t := splicedTree
    let text := "label: a [code]\n    name: v\n    name: v\n" ++
      "label: b [data]\n    list element:\n        name: v\n" ++
      "    list element:\n        name: v\n        name: v\n"
    t.Built ∧ ¬ Relation.TransGen (fun owner id => id ∈ t.children owner) 0 0 ∧
      t.outline = text ∧ t.visits.length = 11 ∧
      (∀ text, t.Prints 0 0 text ↔ text = t.outline) ∧
      (Writer.step t)^[t.visits.length + 1] ⟨[⟨0, 0⟩], ""⟩ = ⟨[], t.outline⟩ := by
  intro t text
  have hroot : ¬ Relation.TransGen (fun owner id => id ∈ t.children owner) 0 0 :=
    not_leads_back (by decide)
  exact ⟨built_splicedTree, hroot, by decide +kernel, by decide +kernel,
    outline_prints built_splicedTree hroot⟩

end Asm6502.Tree
