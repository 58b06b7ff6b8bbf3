import Asm6502.Proofs.Tree.Built
import Asm6502.Tree.Outline

/-!
# Who shows a comment

A dump carries the comment table along while it walks the tree: a node that claims finds
the comment of its line in the table only if no node of that line has claimed it before.
Here the table is taken out of the walk.  What a visit shows is said by the visits in front
of it and by the table at the start, and what is left in the end by all visits together.

No comment gets lost and none is shown twice, on any tree whose root does not lead back to
itself.  A node may be visited twice; only the first visit shows a comment.

## Main results

* `at?_unclaimed_foldl` — what is claimed is gone, and all else is left.
* `text_foldl` — each visit writes its line with the comment that it shows.
* `dump_claims` — dumping claims each comment once and nothing else.
-/

namespace Asm6502.Tree

variable {t : Tree} {c : Comments} {line : Nat} {v : Visit}

/-! ## What a visit claims and shows -/

/-- Labels, declarations, data directives and instructions claim comments, and no other nodes
do. -/
def isClaimant (t : Tree) (id : NodeId) : Bool :=
  match t.kind id with
  | .label _ _ _ | .decl _ _ | .data _ _ | .instruction _ _ => true
  | .root _ | .list _ _ | .name _ | .const _ | .wrap _ _ | .sum _ _ _ => false

theorem claimsComment_eq (t : Tree) (id : NodeId) :
    (t.node id).claimsComment = t.isClaimant id := by
  rw [Node.claimsComment, isClaimant, kind]
  cases (t.node id).kind with
  | root | list | data | decl | label | name | const | wrap | sum | instruction => rfl

/-- Whether the visited node claims the comment of the line. -/
def claims (t : Tree) (line : Nat) (v : Visit) : Bool := t.isClaimant v.id && t.line v.id == line

/-- The comment that a visit shows behind others: that of its line, if it claims and none
of the others has claimed it. -/
def commentAt (t : Tree) (c : Comments) (before : List Visit) (v : Visit) : Option String :=
  if t.claims (t.line v.id) v = true ∧ before.any (t.claims (t.line v.id)) = false then
    c.at? (t.line v.id)
  else none

/-- The blanks of a level: four for each level above it, and 256 at most. -/
def blanksAt (level : Nat) : String := String.ofList (List.replicate (min (4 * level) 256) ' ')

/-- A line of a dump.  A comment stands two blanks behind the heading. -/
def lineWith (level : Nat) (heading : String) : Option String → String
  | none => blanksAt level ++ heading ++ "\n"
  | some comment => blanksAt level ++ heading ++ "  " ++ comment ++ "\n"

/-- What is written for a visit that shows the comment: nothing for a root. -/
def written (t : Tree) (v : Visit) (comment : Option String) : String :=
  match (t.node v.id).heading? with
  | none => ""
  | some heading => lineWith v.level heading comment

theorem render_eq (l : OutlineLine) (comment : Option String) :
    l.render comment = lineWith l.level l.heading comment := by
  cases comment with
  | none => simp [OutlineLine.render, lineWith, indentation, indentStep, indentLimit, blanksAt]
  | some text =>
      simp [OutlineLine.render, lineWith, indentation, indentStep, indentLimit, blanksAt,
        String.append_assoc]

/-- What is written is the line of the outline. -/
theorem written_eq_render (t : Tree) (v : Visit) (comment : Option String) :
    t.written v comment = ((t.outlineLine? v).map fun l => l.render comment).getD "" := by
  cases hheading : (t.node v.id).heading? with
  | none => simp [written, outlineLine?, hheading]
  | some heading => simp [written, outlineLine?, hheading, render_eq]

/-- Roots have no line in an outline and claim nothing. -/
theorem isClaimant_of_outlineLine?_eq_none (h : t.outlineLine? v = none) :
    t.isClaimant v.id = false := by
  have hheading : (t.node v.id).heading? = none := Option.map_eq_none_iff.1 h
  unfold Node.heading? at hheading
  split at hheading
  case h_1 items hkind => rw [isClaimant, kind, hkind]
  all_goals cases hheading

/-- One visit: the first that claims a comment shows it and takes it away. -/
theorem visit_eq (t : Tree) (d : Dump) (v : Visit) :
    (Dump.visit t d v).text = d.text ++ t.written v (t.commentAt d.unclaimed [] v) ∧
      ∀ line, (Dump.visit t d v).unclaimed.at? line =
        if t.claims line v = true then none else d.unclaimed.at? line := by
  cases hline : t.outlineLine? v with
  | none =>
      have hclaims (line : Nat) : t.claims line v = false := by
        rw [claims, isClaimant_of_outlineLine?_eq_none hline, Bool.false_and]
      simp [Dump.visit, written_eq_render, hline, hclaims]
  | some l =>
      obtain ⟨heading, _, rfl⟩ := Option.map_eq_some_iff.1 hline
      rw [claimsComment_eq] at hline
      cases hclaims : t.isClaimant v.id with
      | false =>
          simp [Dump.visit, Dump.write, written_eq_render, commentAt, claims, hline, hclaims]
      | true =>
          simp [Dump.visit, Dump.write, written_eq_render, commentAt, claims, hline, hclaims,
            Comments.at?_erase, Tree.line]

/-! ## All visits -/

/-- What has been claimed is gone, and all else is left. -/
theorem at?_unclaimed_foldl (vs : List Visit) (d : Dump) (line : Nat) :
    (vs.foldl (Dump.visit t) d).unclaimed.at? line =
      if vs.any (t.claims line) = true then none else d.unclaimed.at? line := by
  induction vs generalizing d with
  | nil => rfl
  | cons v vs ih =>
      rw [List.foldl_cons, ih, (visit_eq t d v).2, List.any_cons]
      cases t.claims line v with
      | true => simp
      | false => simp

/-- A comment that a visit has claimed is not shown later. -/
theorem commentAt_visit (d : Dump) (v w : Visit) (before : List Visit) :
    t.commentAt (Dump.visit t d v).unclaimed before w =
      t.commentAt d.unclaimed (v :: before) w := by
  rw [commentAt, commentAt, (visit_eq t d v).2, List.any_cons]
  cases t.claims (t.line w.id) v with
  | true => simp
  | false => simp

/-- Each visit writes its line with the comment that it shows. -/
theorem text_foldl (vs : List Visit) (d : Dump) :
    (vs.foldl (Dump.visit t) d).text = d.text ++ String.join
      (vs.mapIdx fun k v => t.written v (t.commentAt d.unclaimed (vs.take k) v)) := by
  induction vs generalizing d with
  | nil => simp
  | cons v vs ih =>
      rw [List.foldl_cons, ih, (visit_eq t d v).1, List.mapIdx_cons, String.join_cons,
        String.append_assoc]
      simp only [commentAt_visit]
      rfl

/-- Without comments there is none to show. -/
theorem commentAt_eq_none (h : t.claims (t.line v.id) v = true → c.at? (t.line v.id) = none)
    (before : List Visit) : t.commentAt c before v = none := by
  rw [commentAt]
  split
  next hclaims => exact h hclaims.1
  next => rfl

theorem text_dump (t : Tree) (c : Comments) :
    (t.dump c).text = String.join
      (t.visits.mapIdx fun k v => t.written v (t.commentAt c (t.visits.take k) v)) := by
  rw [dump_eq_foldl, text_foldl, String.empty_append]

theorem at?_unclaimed_dump (t : Tree) (c : Comments) (line : Nat) :
    (t.dump c).unclaimed.at? line =
      if t.visits.any (t.claims line) = true then none else c.at? line := by
  rw [dump_eq_foldl, at?_unclaimed_foldl]

/-- A table without comments of the lines that are claimed shows nothing. -/
theorem text_dump_of_at?_eq_none
    (h : ∀ line, t.visits.any (t.claims line) = true → c.at? line = none) :
    (t.dump c).text = String.join (t.visits.map fun v => t.written v none) := by
  rw [text_dump]
  refine congrArg String.join (List.ext_getElem (by simp) ?_)
  intro k hk hk'
  rw [List.getElem_mapIdx, List.getElem_map, commentAt_eq_none]
  intro hclaims
  rw [List.length_mapIdx] at hk
  exact h _ (List.any_eq_true.2 ⟨t.visits[k], List.getElem_mem hk, hclaims⟩)

theorem outline_eq (t : Tree) : t.outline = String.join (t.visits.map fun v => t.written v none) :=
  text_dump_of_at?_eq_none fun line _ => Comments.at?_empty line

/-! ## Claimed lines -/

/-- A node that the root leads to claims the comment of the line. -/
def Claimed (t : Tree) (line : Nat) : Prop :=
  ∃ id, t.Reaches id ∧ t.isClaimant id = true ∧ t.line id = line

theorem claimed_iff (h : t.Numbered) (line : Nat) :
    t.visits.any (t.claims line) = true ↔ t.Claimed line := by
  rw [List.any_eq_true]
  constructor
  · rintro ⟨v, hv, hclaims⟩
    obtain ⟨hnode, hline⟩ := (Bool.and_eq_true ..).mp hclaims
    have hwalk : v.id ∈ t.walk := List.mem_cons_of_mem _ (List.mem_map_of_mem hv)
    exact ⟨v.id, h.mem_walk.1 hwalk, hnode, eq_of_beq hline⟩
  · rintro ⟨id, hreaches, hnode, rfl⟩
    rcases List.mem_cons.1 (h.mem_walk.2 hreaches) with rfl | hid
    · rw [isClaimant, h.rooted.kind_eq] at hnode
      cases hnode
    · obtain ⟨v, hv, rfl⟩ := List.mem_map.1 hid
      exact ⟨v, hv, (Bool.and_eq_true ..).mpr ⟨hnode, beq_self_eq_true _⟩⟩

theorem commentAt_eq_some_iff {before : List Visit} {text : String} :
    t.commentAt c before v = some text ↔ t.claims (t.line v.id) v = true ∧
      (∀ w ∈ before, t.claims (t.line v.id) w = false) ∧ c.at? (t.line v.id) = some text := by
  have hbefore : before.any (t.claims (t.line v.id)) = false ↔
      ∀ w ∈ before, t.claims (t.line v.id) w = false := by simp
  rw [commentAt, ← hbefore, ← and_assoc]
  split
  next h => exact ⟨fun htext => ⟨h, htext⟩, And.right⟩
  next h =>
    refine ⟨?_, fun hshown => absurd hshown.1 h⟩
    rintro ⟨⟩

/-- The first visit that claims a line shows its comment, and no other visit does. -/
theorem existsUnique_commentAt {vs : List Visit} (hclaimed : vs.any (t.claims line) = true)
    {text : String} (htext : c.at? line = some text) :
    ∃! k, ∃ v, vs[k]? = some v ∧ t.line v.id = line ∧
      t.commentAt c (vs.take k) v = some text := by
  let first := vs.findIdx (t.claims line)
  have hfirst : first < vs.length := List.findIdx_lt_length.2 (List.any_eq_true.1 hclaimed)
  obtain ⟨hclaims, hbefore⟩ := (List.findIdx_eq hfirst).1 rfl
  refine ⟨first, ?_, ?_⟩
  · have hline : t.line vs[first].id = line := eq_of_beq (Bool.and_eq_true_iff.1 hclaims).2
    refine ⟨vs[first], List.getElem?_eq_getElem hfirst, hline, commentAt_eq_some_iff.2 ?_⟩
    rw [hline]
    refine ⟨hclaims, ?_, htext⟩
    intro w hw
    obtain ⟨j, hj, rfl⟩ := List.mem_take_iff_getElem.1 hw
    exact hbefore j (Nat.lt_of_lt_of_le hj (Nat.min_le_left _ _))
  · rintro k ⟨v, hv, rfl, hshown⟩
    obtain ⟨hclaims', hbefore', _⟩ := commentAt_eq_some_iff.1 hshown
    obtain ⟨hk, rfl⟩ := List.getElem?_eq_some_iff.1 hv
    refine ((List.findIdx_eq hk).2 ⟨hclaims', ?_⟩).symm
    intro j hj
    exact hbefore' _ (List.mem_take_iff_getElem.2 ⟨j, by omega, rfl⟩)

/-- Dumping claims each comment once and nothing else.  The walk visits what the root leads
to and leaves no step out.  The outline consists of the lines of its visits.  A dump is the
outline with comments, each behind the line of the first visit that claims it; what no
visit claims is left in the table, and what is left changes nothing in a second dump. -/
theorem dump_claims (ht : t.Built)
    (hroot : ¬ Relation.TransGen (fun owner id => id ∈ t.children owner) 0 0) (c : Comments) :
    let d := t.dump c
    (∀ id, id ∈ t.walk ↔ t.Reaches id) ∧
      (∀ v ∈ t.visits, t.below v = placed (t.kind v.id) v.level) ∧
      (∀ line, (t.Claimed line → d.unclaimed.at? line = none) ∧
        (¬ t.Claimed line → d.unclaimed.at? line = c.at? line)) ∧
      t.outline = String.join (t.visits.map fun v => t.written v none) ∧
      d.text = String.join
        (t.visits.mapIdx fun k v => t.written v (t.commentAt c (t.visits.take k) v)) ∧
      (∀ line text, t.Claimed line → c.at? line = some text →
        ∃! k, ∃ v, t.visits[k]? = some v ∧ t.line v.id = line ∧
          t.commentAt c (t.visits.take k) v = some text) ∧
      (t.dump d.unclaimed).text = t.outline ∧
        ∀ line, (t.dump d.unclaimed).unclaimed.at? line = d.unclaimed.at? line := by
  intro d
  have hnumbered := ht.numbered
  have hleft (line : Nat) : d.unclaimed.at? line =
      if t.visits.any (t.claims line) = true then none else c.at? line :=
    at?_unclaimed_dump t c line
  have hgone (line : Nat) (h : t.visits.any (t.claims line) = true) :
      d.unclaimed.at? line = none := by
    rw [hleft, if_pos h]
  refine ⟨fun _ => hnumbered.mem_walk, ?_, ?_, outline_eq t, text_dump t c, ?_, ?_, ?_⟩
  · intro v hv
    exact hnumbered.below_eq (Numbered.ne_zero_of_mem_visits hroot hv)
  · intro line
    rw [← claimed_iff hnumbered]
    exact ⟨hgone line, fun h => by rw [hleft, if_neg h]⟩
  · intro line text hclaimed htext
    exact existsUnique_commentAt ((claimed_iff hnumbered line).2 hclaimed) htext
  · rw [text_dump_of_at?_eq_none hgone, outline_eq]
  · intro line
    rw [at?_unclaimed_dump]
    split
    next h => rw [hgone line h]
    next => rfl

/-- A label over an instruction that a list has twice, all on line 2, and a declaration. -/
def sharedTree : Tree :=
  let t := (empty.add (.instruction .rts none) 2).2
  let t := ((t.addList [1, 1]).2.add (.label "a" (some 3) .code) 2).2
  let t := ((t.add (.const "7") 4).2.add (.decl "b" 5) 4).2
  (t.pushItem 4).pushItem 6

theorem built_sharedTree : sharedTree.Built := by
  have hcode : (empty.add (.instruction .rts none) 2).2.Built := .add .empty (by decide)
  have hitems : ∀ item ∈ [1, 1], item < (empty.add (.instruction .rts none) 2).2.size := by decide
  have hlist := (hcode.addList hitems).1
  refine .pushItem (.pushItem ?_ (by decide)) (by decide)
  exact .add (.add (.add hlist (by decide)) (by decide)) (by decide)

/-- Line 2 is claimed by three visits, the first of which is that of the label.  The comment
of line 3 belongs to no node and is left. -/
theorem dump_claims_sharedTree :
    let t := sharedTree
    let c := ((Comments.empty.record 2 "; x").record 3 "; y").record 4 "; z"
    let d := t.dump c
    t.Built ∧ ¬ Relation.TransGen (fun owner id => id ∈ t.children owner) 0 0 ∧
      t.visits.map Visit.id = [4, 3, 1, 2, 1, 6, 5] ∧
      d.text = "label: a [code]  ; x\n    list element:\n" ++
        "        instruction (line 2) 48 RTS:\n    list element:\n" ++
        "        instruction (line 2) 48 RTS:\ndecl: b =  ; z\n    constant: 7\n" ∧
      d.unclaimed.toList = [(3, "; y")] ∧
      (∀ id, id ∈ t.walk ↔ t.Reaches id) ∧
      (∀ v ∈ t.visits, t.below v = placed (t.kind v.id) v.level) ∧
      (∀ line, (t.Claimed line → d.unclaimed.at? line = none) ∧
        (¬ t.Claimed line → d.unclaimed.at? line = c.at? line)) ∧
      t.outline = String.join (t.visits.map fun v => t.written v none) ∧
      d.text = String.join
        (t.visits.mapIdx fun k v => t.written v (t.commentAt c (t.visits.take k) v)) ∧
      (∀ line text, t.Claimed line → c.at? line = some text →
        ∃! k, ∃ v, t.visits[k]? = some v ∧ t.line v.id = line ∧
          t.commentAt c (t.visits.take k) v = some text) ∧
      (t.dump d.unclaimed).text = t.outline ∧
        ∀ line, (t.dump d.unclaimed).unclaimed.at? line = d.unclaimed.at? line := by
  intro t c d
  have hroot : ¬ Relation.TransGen (fun owner id => id ∈ t.children owner) 0 0 := by
    intro h
    obtain ⟨owner, _, howner⟩ := Relation.TransGen.tail'_iff.1 h
    by_cases hlt : owner < 7
    · have hall : ∀ owner < 7, 0 ∉ t.children owner := by decide
      exact hall owner hlt howner
    · rw [children_eq_nil_of_size_le (Nat.le_of_not_lt hlt)] at howner
      cases howner
  exact ⟨built_sharedTree, hroot, by decide +kernel, by decide +kernel, by decide +kernel,
    dump_claims built_sharedTree hroot c⟩

end Asm6502.Tree
