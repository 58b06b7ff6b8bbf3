import Asm6502.Proofs.Parsing.Provenance
import Asm6502.Proofs.Tree.Legibility
import Asm6502.Tree.Labels

/-!
# Finding labels

A label is looked for in a few places only: among the items of the root, and below each label
that stands there, as long as one label directly follows the other.  Blocks and declarations
are not entered.  In the tree of a program that is enough, for there a label is owned by the
root or by another label.  So the labels that are tried are all labels of the tree, in source
order, and the one that is found is the first of the walk.

The search itself is a loop with a stack of the nodes that are still due.  A node that is no
label is dropped, and a label of another name makes room for what it stands in front of.

Classifying labels and repairing links changes neither what nodes own nor what labels are
named, which is all that the search depends on.

## Main results

* `filter_isLabel_preorder`, `filter_isLabel_walk` — the labels that are tried are all of them.
* `Search.findsWithin` — the loop ends with the first of them that has the name.
* `exists_label` — the tree of a program has a label for each label token.
* `program_findLabel` — the first label of a name is found, and none is missed.
-/

namespace Asm6502

namespace Tree

variable {t t' : Tree} {id child : NodeId} {name : String}

/-! ## Where labels stand -/

/-- Below the root, labels are owned by labels. -/
def LabelsOnTop (t : Tree) : Prop :=
  ∀ owner, t.LeadsTo owner → ∀ id ∈ t.children owner, (t.kind id).isLabel = true →
    (t.kind owner).isLabel = true

theorem IsExpression.not_isLabel (h : t.IsExpression id) : (t.kind id).isLabel = false := by
  cases h with
  | name hk | const hk => rw [hk]; rfl
  | wrap hk => rw [hk]; rfl
  | sum hk => rw [hk]; rfl

theorem IsOperand.not_isLabel (h : t.IsOperand id) : (t.kind id).isLabel = false := by
  rcases h with h | ⟨_, _, hk, _⟩
  · exact h.not_isLabel
  · rw [hk]
    rfl

theorem IsListOf.not_isLabel {p : NodeId → Prop} (h : t.IsListOf p id) :
    (t.kind id).isLabel = false := by
  cases h with
  | last hk | more hk => rw [hk]; rfl

theorem IsItem.not_isLabel (h : t.IsItem id) : (t.kind id).isLabel = false := by
  rcases h with ⟨_, _, hk, _⟩ | ⟨_, _, hk, _⟩
  · rw [hk]
    rfl
  · rw [hk]
    rfl

theorem IsLabel.isLabel (h : t.IsLabel id) : (t.kind id).isLabel = true := by
  cases h with
  | bare hk | outer hk | block hk => rw [hk]; rfl

/-- What a part owns is no label, unless the part is one. -/
theorem IsPart.not_isLabel_child (h : t.IsPart id) (hid : (t.kind id).isLabel = false)
    (hchild : child ∈ t.children id) : (t.kind child).isLabel = false := by
  cases h with
  | expression h => exact (h.of_mem_children hchild).not_isLabel
  | values h =>
      rcases h.of_mem_children hchild with h | h
      · exact h.not_isLabel
      · exact h.not_isLabel
  | item h =>
      rcases h.of_mem_children hchild with ⟨_, _, h⟩ | h
      · exact h.not_isLabel
      · exact h.not_isLabel
  | block h =>
      rcases h.of_mem_children hchild with h | h
      · exact h.not_isLabel
      · exact h.not_isLabel
  | label h =>
      rw [h.isLabel] at hid
      cases hid
  | declaration h => exact (h.of_mem_children hchild).not_isLabel

theorem IsProgram.labelsOnTop (h : t.IsProgram) : t.LabelsOnTop := by
  intro owner howner id hid hlabel
  by_contra hother
  have hno : (t.kind owner).isLabel = false := Bool.not_eq_true _ ▸ hother
  obtain ⟨above, habove, hmem⟩ := Relation.TransGen.tail'_iff.1 howner
  rcases isPart_of_mem_children h (isPart_of_reaches h habove) hmem with
    hpart | hexpr | ⟨_, _, hk, _, hexpr⟩
  · rw [hpart.not_isLabel_child hno hid] at hlabel
    cases hlabel
  · rw [(hexpr.of_mem_children hid).not_isLabel] at hlabel
    cases hlabel
  · rw [eq_of_mem_children hk rfl hid, hexpr.not_isLabel] at hlabel
    cases hlabel

/-! ## The labels that are tried -/

/-- A label and what it stands in front of. -/
theorem exists_of_isLabel (h : (t.kind id).isLabel = true) :
    ∃ name child type, t.kind id = .label name child type := by
  cases hk : t.kind id with
  | label name child type => exact ⟨name, child, type, rfl⟩
  | root | list | data | decl | name | const | wrap | sum | instruction =>
      rw [hk] at h
      cases h

theorem labelChain_of_not_isLabel (h : (t.kind id).isLabel = false) : t.labelChain id = [] := by
  rw [labelChain]
  split
  next hk => rw [hk] at h; cases h
  next hk => rw [hk] at h; cases h
  next => rfl

/-- A label is followed by the labels below it. -/
theorem labelChain_of_isLabel (ht : t.Descends) (h : (t.kind id).isLabel = true) :
    t.labelChain id = id :: (t.children id).flatMap t.labelChain := by
  obtain ⟨name, child, type, hk⟩ := exists_of_isLabel h
  have hinner : t.IsInner id := isInner_of_kind hk (by simp)
  have hchildren : t.children id = child.toList := by rw [children, hk]; rfl
  rw [labelChain_label hk, hchildren]
  · cases child with
    | none => rfl
    | some child => exact congrArg _ (List.flatMap_singleton _ _).symm
  · intro c hc
    refine (ht id hinner c ?_).1
    rw [hchildren]
    exact Option.mem_toList.2 hc

/-- Below a node there are no labels but those of its chain. -/
theorem filter_isLabel_preorder (ht : t.Descends) (htop : t.LabelsOnTop) (hid : t.LeadsTo id)
    (hinner : t.IsInner id) :
    (t.preorder id).filter (fun id => (t.kind id).isLabel) = t.labelChain id := by
  induction id using Nat.strongRecOn with
  | ind id ih =>
    have hbelow : ((t.children id).flatMap t.preorder).filter (fun id => (t.kind id).isLabel) =
        (t.children id).flatMap t.labelChain := by
      rw [List.filter_flatMap]
      refine List.flatMap_congr fun child hchild => ?_
      obtain ⟨hlt, hinner'⟩ := ht id hinner child hchild
      exact ih child hlt (hid.tail hchild) hinner'
    rw [preorder_eq ht hinner]
    cases hlabel : (t.kind id).isLabel with
    | true =>
        rw [List.filter_cons_of_pos (p := fun id => (t.kind id).isLabel) hlabel, hbelow,
          labelChain_of_isLabel ht hlabel]
    | false =>
        have hneg : ¬ (t.kind id).isLabel = true := by rw [hlabel]; exact Bool.false_ne_true
        rw [List.filter_cons_of_neg (p := fun id => (t.kind id).isLabel) hneg, hbelow,
          labelChain_of_not_isLabel hlabel, List.flatMap_eq_nil_iff]
        intro child hchild
        refine labelChain_of_not_isLabel (Bool.eq_false_iff.2 fun hchild' => hneg ?_)
        exact htop id hid child hchild hchild'

theorem filter_isLabel_walk (ht : t.Descends) (htop : t.LabelsOnTop)
    (hroot : (t.kind 0).isLabel = false) (hitems : ∀ item ∈ t.items, t.IsInner item) :
    t.walk.filter (fun id => (t.kind id).isLabel) = t.labels := by
  have hzero : ¬ (t.kind 0).isLabel = true := by
    rw [hroot]
    exact Bool.false_ne_true
  rw [walk_eq, List.filter_cons_of_neg (p := fun id => (t.kind id).isLabel) hzero, labels,
    List.filter_flatMap]
  exact List.flatMap_congr fun item hitem =>
    filter_isLabel_preorder ht htop (.single hitem) (hitems item hitem)

theorem isLabelNamed_iff :
    t.isLabelNamed name id = true ↔ ∃ child type, t.kind id = .label name child type := by
  rw [isLabelNamed]
  split
  next text child type hk => simp [hk]
  next hno => simpa using fun child type hk => hno _ _ _ hk

theorem findLabel?_eq (h : t.walk.filter (fun id => (t.kind id).isLabel) = t.labels) :
    t.findLabel? name = t.walk.find? (t.isLabelNamed name) := by
  have hand (id : NodeId) : decide ((t.kind id).isLabel = true ∧ t.isLabelNamed name id = true) =
      t.isLabelNamed name id := by
    rw [Bool.eq_iff_iff, decide_eq_true_iff, and_iff_right_iff_imp, isLabelNamed_iff]
    rintro ⟨child, type, hk⟩
    rw [hk]
    rfl
  rw [findLabel?, ← h, List.find?_filter, funext hand]

/-! ## The loop -/

/-- The nodes that are still due, and the label that was found. -/
structure Search where
  due : List NodeId
  found : Option NodeId

/-- Looks at the node that is due next.  The search is over when a label was found. -/
def Search.step (t : Tree) (name : String) (s : Search) : Search :=
  match s.found, s.due with
  | some _, _ => s
  | none, [] => s
  | none, id :: due =>
    match t.kind id with
    | .label text child _ => if text = name then ⟨due, some id⟩ else ⟨child.toList ++ due, none⟩
    | _ => ⟨due, none⟩

namespace Search

theorem step_of_not_isLabel {due : List NodeId} (h : (t.kind id).isLabel = false) :
    step t name ⟨id :: due, none⟩ = ⟨due, none⟩ := by
  simp only [step]
  split
  next hk => rw [hk] at h; cases h
  next => rfl

theorem step_of_isLabel (h : (t.kind id).isLabel = true) (name : String) (due : List NodeId) :
    step t name ⟨id :: due, none⟩ =
      if t.isLabelNamed name id = true then ⟨due, some id⟩ else ⟨t.children id ++ due, none⟩ := by
  obtain ⟨text, child, type, hk⟩ := exists_of_isLabel h
  rw [step, isLabelNamed, children]
  simp only [hk, beq_iff_eq]
  rfl

/-- With the nodes `due` still due, the loop ends within `n` steps: with the first label of the
name among those that are tried, and with nothing due if there is none. -/
def FindsWithin (t : Tree) (name : String) (due : List NodeId) (n : Nat) : Prop :=
  ∃ m ≤ n, ∃ s, (step t name)^[m] ⟨due, none⟩ = s ∧
    s.found = (due.flatMap t.labelChain).find? (t.isLabelNamed name) ∧
    (s.found = none → s.due = [])

/-- A step in front, which passes by no label of the name. -/
theorem FindsWithin.step {due due' : List NodeId} {n n' : Nat}
    (h : FindsWithin t name due' n') (hn : n' < n)
    (hstep : Search.step t name ⟨due, none⟩ = ⟨due', none⟩)
    (hchain : (due.flatMap t.labelChain).find? (t.isLabelNamed name) =
      (due'.flatMap t.labelChain).find? (t.isLabelNamed name)) : FindsWithin t name due n := by
  obtain ⟨m, hm, s, hs, hfound, hend⟩ := h
  refine ⟨m + 1, Nat.lt_of_le_of_lt hm hn, s, ?_, hfound.trans hchain.symm, hend⟩
  rw [Function.iterate_succ_apply, hstep, hs]

/-- The loop looks at a node once for each place where the node stands. -/
theorem findsWithin (ht : t.Descends) (name : String) (due : List NodeId)
    (hdue : ∀ id ∈ due, t.IsInner id) :
    FindsWithin t name due (due.flatMap t.preorder).length := by
  induction hlength : (due.flatMap t.preorder).length using Nat.strongRecOn generalizing due with
  | ind length ih =>
    cases due with
    | nil => exact ⟨0, Nat.zero_le _, _, rfl, rfl, fun _ => rfl⟩
    | cons id due =>
        have hinner := hdue id List.mem_cons_self
        have hrest : ∀ id ∈ due, t.IsInner id := fun id hid => hdue id (List.mem_cons_of_mem _ hid)
        rw [List.flatMap_cons, preorder_eq ht hinner, List.length_append, List.length_cons]
          at hlength
        cases hlabel : (t.kind id).isLabel with
        | false =>
            have hshort : (due.flatMap t.preorder).length < length := by omega
            refine (ih _ hshort due hrest rfl).step hshort (step_of_not_isLabel hlabel) ?_
            rw [List.flatMap_cons, labelChain_of_not_isLabel hlabel, List.nil_append]
        | true =>
            have hstep := step_of_isLabel hlabel name due
            have hchain := labelChain_of_isLabel ht hlabel
            cases hnamed : t.isLabelNamed name id with
            | true =>
                rw [if_pos hnamed] at hstep
                refine ⟨1, by omega, _, hstep, ?_, fun hnone => ?_⟩
                · rw [List.flatMap_cons, hchain, List.cons_append, List.find?_cons_of_pos hnamed]
                · cases hnone
            | false =>
                have hneg : ¬ t.isLabelNamed name id = true := by
                  rw [hnamed]
                  exact Bool.false_ne_true
                have hshort : ((t.children id ++ due).flatMap t.preorder).length < length := by
                  rw [List.flatMap_append, List.length_append]
                  omega
                have hdue' : ∀ child ∈ t.children id ++ due, t.IsInner child := by
                  intro child hchild
                  rcases List.mem_append.1 hchild with hchild | hchild
                  · exact (ht id hinner child hchild).2
                  · exact hrest child hchild
                rw [if_neg hneg] at hstep
                refine (ih _ hshort _ hdue' rfl).step hshort hstep ?_
                rw [List.flatMap_cons, hchain, List.cons_append, List.find?_cons_of_neg hneg,
                  List.flatMap_append]

end Search

/-! ## Classifying and repairing -/

/-- The nodes of two trees are of the same kinds, except for what labels stand for. -/
def SameKinds (t t' : Tree) : Prop := ∀ id, (t'.kind id).unclassified = (t.kind id).unclassified

namespace SameKinds

theorem children_eq (h : t.SameKinds t') : t'.children = t.children := by
  have hchildren (k : Node.Kind) : k.unclassified.children = k.children := by cases k <;> rfl
  funext id
  rw [children, children, ← hchildren (t'.kind id), h id, hchildren]

theorem isLabel_eq (h : t.SameKinds t') (id : NodeId) :
    (t'.kind id).isLabel = (t.kind id).isLabel := by
  have hlabel (k : Node.Kind) : k.unclassified.isLabel = k.isLabel := by cases k <;> rfl
  rw [← hlabel (t'.kind id), h id, hlabel]

theorem isInner_iff (h : t.SameKinds t') (id : NodeId) : t'.IsInner id ↔ t.IsInner id := by
  have hroot (k : Node.Kind) (items : List NodeId) :
      k.unclassified = .root items ↔ k = .root items := by cases k <;> simp [Node.Kind.unclassified]
  refine forall_congr' fun items => not_congr ?_
  rw [← hroot (t'.kind id), h id, hroot]

theorem isLabelNamed_eq (h : t.SameKinds t') (name : String) :
    t'.isLabelNamed name = t.isLabelNamed name := by
  have hnamed (k : Node.Kind) (child : Option NodeId) :
      k.unclassified = .label name child .unclassified ↔ ∃ type, k = .label name child type := by
    cases k <;> simp [Node.Kind.unclassified]
  funext id
  rw [Bool.eq_iff_iff, isLabelNamed_iff, isLabelNamed_iff]
  refine exists_congr fun child => ?_
  rw [← hnamed (t'.kind id), h id, hnamed]

theorem trans {t'' : Tree} (h : t.SameKinds t') (h' : t'.SameKinds t'') : t.SameKinds t'' :=
  fun id => (h' id).trans (h id)

theorem descends (h : t.SameKinds t') (ht : t.Descends) : t'.Descends := by
  intro id hid child hchild
  rw [h.children_eq] at hchild
  obtain ⟨hlt, hinner⟩ := ht id ((h.isInner_iff id).1 hid) child hchild
  exact ⟨hlt, (h.isInner_iff child).2 hinner⟩

theorem labelsOnTop (h : t.SameKinds t') (ht : t.LabelsOnTop) : t'.LabelsOnTop := by
  intro owner howner id hid hlabel
  rw [LeadsTo, h.children_eq] at howner
  rw [h.children_eq] at hid
  rw [h.isLabel_eq] at hlabel ⊢
  exact ht owner howner id hid hlabel

end SameKinds

namespace Operation

/-- Whether the operation leaves everything where it is. -/
def retouches : Operation → Bool
  | .setLabelType _ _ | .normalize => true
  | .add _ _ | .addList _ | .pushItem _ => false

theorem sameKinds_apply {op : Operation} (hop : op.retouches = true) (t : Tree) :
    t.SameKinds (op.apply t) := by
  intro id
  cases op with
  | setLabelType label type =>
      cases ht' : t.setLabelType? label type with
      | none =>
          rw [apply, ht']
          rfl
      | some t' =>
          obtain ⟨text, child, old, hkind⟩ := kind_of_setLabelType? ht'
          have hlabel : label < t.size := (isInner_of_kind hkind (by simp)).lt_size
          rw [apply, kind, node_setLabelType t hlabel]
          simp only [onKind]
          split
          next heq =>
            subst heq
            rw [hkind]
            rfl
          next => rfl
  | normalize =>
      show (t.normalize.tree.kind id).unclassified = _
      rw [kind, node, nodes_normalize]
      rfl
  | add | addList | pushItem => cases hop

theorem sameKinds_foldl {ops : List Operation} (hops : ∀ op ∈ ops, op.retouches = true) (t : Tree) :
    t.SameKinds (ops.foldl (fun t op => op.apply t) t) := by
  induction ops generalizing t with
  | nil => exact fun _ => rfl
  | cons op ops ih =>
      have hop := hops op List.mem_cons_self
      have hmore : ∀ op ∈ ops, op.retouches = true :=
        fun op hop => hops op (List.mem_cons_of_mem _ hop)
      exact (sameKinds_apply hop t).trans (ih hmore _)

end Operation

end Tree

/-! ## The labels of a program -/

namespace Parser

open Syntax Asm6502.Tree

/-- In the tree of a program, labels are owned by the root and by labels. -/
theorem program_labelsOnTop (limit : Nat) (ts : List Token) :
    (program limit ts).tree.LabelsOnTop := by
  obtain ⟨entries, hrooted, hshown, _, hcanonical⟩ := program_selects limit ts
  have hboth := ((List.forall₂_and_left (R := flip _) ..).2 ⟨hcanonical, hshown.flip⟩).flip
  have hitems := (List.forall₂_and_left ..).1
    (hboth.imp fun _ _ h => ⟨Entry.ShownAt.isLabel_or_isDeclaration h.2 h.1, h.2⟩)
  exact IsProgram.labelsOnTop ⟨hrooted.kind_eq, hitems.1⟩

/-- The tree has a label for each label token. -/
theorem exists_label (limit : Nat) (ts : List Token) {token : Token}
    (htoken : token ∈ ts.takeWhile TokenStream.isProper) (hk : token.kind = .label) :
    ∃ id ∈ (program limit ts).tree.walk,
      (program limit ts).tree.isLabelNamed token.declaredName id = true := by
  obtain ⟨places, hplaces⟩ := (program_traced limit ts).exists_placed Node.Kind.isLabel
    (fun _ h => Node.Kind.hasToken_of_isLabel h) fun _ h => h
  obtain ⟨place, hplace⟩ := List.getElem?_of_mem htoken
  have hmem : place ∈ places := by
    refine hplaces.labels place ?_
    rw [labelAt, hplace, Option.map_some, hk]
    rfl
  obtain ⟨i, hi, rfl⟩ := List.getElem_of_mem hmem
  have hi' := hi
  rw [← hplaces.stands.length_eq] at hi'
  have hid := List.mem_filter.1 (List.getElem_mem hi')
  obtain ⟨token', name, child, type, htoken', hname, hnode, _⟩ :=
    (hplaces.stands.get hi' hi).of_isLabel hid.2
  cases hplace.symm.trans htoken'
  rw [Token.declares_iff.1 hname] at hnode
  refine ⟨_, ?_, isLabelNamed_iff.2 ⟨child, type, congrArg Node.kind hnode⟩⟩
  rw [walk_eq]
  exact List.mem_cons_of_mem _ hid.1

/-- Whatever labels have been classified as, and however often links have been repaired, the
label that is found is the first one of the name in the walk, and none is found only if the
root leads to no label of the name.  Hence each label token in front of the first end has a
label that is found by its name.  The loop over the nodes that are due finds it. -/
theorem program_findLabel (limit : Nat) (ts : List Token) {ops : List Operation}
    (hops : ∀ op ∈ ops, op.retouches = true) (name : String) :
    let tree := ops.foldl (fun t op => op.apply t) (program limit ts).tree
    (∀ id, id ∈ tree.walk ↔ tree.Reaches id) ∧ tree.walk.Nodup ∧
      tree.findLabel? name = tree.walk.find? (tree.isLabelNamed name) ∧
      (tree.findLabel? name = none ↔
        ∀ id, tree.Reaches id → ∀ child type, tree.kind id ≠ .label name child type) ∧
      (∀ token ∈ ts.takeWhile TokenStream.isProper, token.kind = .label →
        token.declaredName = name → (tree.findLabel? name).isSome = true) ∧
      ∃ n < tree.walk.length, ∃ s, (Search.step tree name)^[n] ⟨tree.items, none⟩ = s ∧
        s.found = tree.findLabel? name ∧ (s.found = none → s.due = []) := by
  intro tree
  have hsame : (program limit ts).tree.SameKinds tree := Operation.sameKinds_foldl hops _
  have hunshared := program_unshared limit ts
  have hwalk : tree.walk = (program limit ts).tree.walk := walk_congr hsame.children_eq
  have hitems : ∀ item ∈ tree.items, tree.IsInner item := by
    rw [items, hsame.children_eq]
    exact fun item hitem => (hsame.isInner_iff item).2 (hunshared.apart.isInner item hitem)
  have hdescends : tree.Descends := hsame.descends hunshared.apart.descends
  have hreaches (id : NodeId) : id ∈ tree.walk ↔ tree.Reaches id := mem_walk hdescends hitems
  have hzero : (tree.kind 0).isLabel = false := by
    rw [hsame.isLabel_eq, hunshared.rooted.kind_eq]
    rfl
  have hfind : tree.findLabel? name = tree.walk.find? (tree.isLabelNamed name) :=
    findLabel?_eq (filter_isLabel_walk hdescends
      (hsame.labelsOnTop (program_labelsOnTop limit ts)) hzero hitems)
  refine ⟨hreaches, hwalk ▸ hunshared.nodup_walk, hfind, ?_, ?_, ?_⟩
  · rw [hfind, List.find?_eq_none]
    constructor
    · intro hnone id hid child type hk
      exact hnone id ((hreaches id).2 hid) (isLabelNamed_iff.2 ⟨child, type, hk⟩)
    · intro hnone id hid hnamed
      obtain ⟨child, type, hk⟩ := isLabelNamed_iff.1 hnamed
      exact hnone id ((hreaches id).1 hid) child type hk
  · rintro token htoken hkind rfl
    obtain ⟨id, hid, hnamed⟩ := exists_label limit ts htoken hkind
    rw [hfind, List.find?_isSome]
    refine ⟨id, hwalk ▸ hid, ?_⟩
    rw [hsame.isLabelNamed_eq]
    exact hnamed
  · obtain ⟨n, hn, hend⟩ := Search.findsWithin hdescends name tree.items hitems
    refine ⟨n, ?_, hend⟩
    rw [walk_eq, List.length_cons]
    exact Nat.lt_succ_of_le hn

/-- A label stands in front of another one, which stands in front of a label of the same name
and of a block.  The outermost is found, though it has the highest number. -/
theorem program_findLabel_nested :
    let ts : List Token :=
      [ ⟨.name, "a", ⟨1, 1⟩⟩, ⟨.equals, "=", ⟨1, 3⟩⟩, ⟨.decConst, "1", ⟨1, 5⟩⟩
      , ⟨.label, "a:", ⟨2, 1⟩⟩, ⟨.label, "b:", ⟨3, 1⟩⟩, ⟨.label, "a:", ⟨4, 1⟩⟩
      , ⟨.instruction .rts, "rts", ⟨5, 3⟩⟩ ]
    let ops : List Operation := [.setLabelType 5 .data, .normalize, .setLabelType 7 .code]
    let tree := ops.foldl (fun t op => op.apply t) (program defaultLimit ts).tree
    (∀ op ∈ ops, op.retouches = true) ∧
      tree.walk.filter (tree.isLabelNamed "a") = [7, 5] ∧ tree.findLabel? "a" = some 7 ∧
      (∀ id, tree.Reaches id → ∀ child type, tree.kind id ≠ .label "c" child type) ∧
      ∃ n < tree.walk.length, ∃ s, (Search.step tree "b")^[n] ⟨tree.items, none⟩ = s ∧
        s.found = tree.findLabel? "b" ∧ (s.found = none → s.due = []) := by
  intro ts ops tree
  have hops : ∀ op ∈ ops, op.retouches = true := by decide
  have hlabels : tree.walk.filter (tree.isLabelNamed "a") = [7, 5] := by decide +kernel
  obtain ⟨_, _, hfind, _⟩ := program_findLabel defaultLimit ts hops "a"
  obtain ⟨_, _, _, hnone, _⟩ := program_findLabel defaultLimit ts hops "c"
  obtain ⟨_, _, _, _, _, hloop⟩ := program_findLabel defaultLimit ts hops "b"
  refine ⟨hops, hlabels, ?_, hnone.1 (by decide +kernel), hloop⟩
  rw [hfind, ← List.head?_filter, hlabels]
  rfl

end Parser

end Asm6502
