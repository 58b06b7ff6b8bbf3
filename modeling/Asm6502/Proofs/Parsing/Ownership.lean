import Asm6502.Proofs.Parsing.ProgramSoundness
import Asm6502.Proofs.Tree.Apart
import Asm6502.Proofs.Tree.SinglyOwned
import Asm6502.SourceUnit

/-!
# Every node has one place

Each parser puts below a node what it has just read, and answers that node to its caller,
which puts it below another one in turn.  So a parser does nothing to the nodes in hand
but what a hand invariant allows: those that a caller holds already are left alone, and
the one it is answered joins them.  If a parser fails, the caller's nodes are left, and
what the parser had read is out of reach.

The nodes that a caller holds are carried through as `ids`.  A parser never sees them, but
to say that they are left alone is what makes its statement fit every caller.

Two hand invariants are of use.  The nodes in hand and the items of the root are apart, so
that a walk visits no node twice.  And no node ever has two owners, those out of reach
included, so that parent links are right.

## Main results

* `hands_expression`, `hands_item` — parsers keep hand invariants.
* `program_hand` — so does reading a program.
* `program_unshared`, `program_singlyOwned` — no node of the tree of a program has two
  places or two owners.
* `program_isProper` — the links of that tree need no repair, so reading a source text
  repairs none.
-/

namespace Asm6502.Parser

open Syntax

variable {P : Tree → List NodeId → Prop} {s s' : State} {limit : Nat}
  {E : Parser (Option NodeId)} {ids : List NodeId}

/-! ## Expressions -/

/-- The node that the parser answers joins those in hand. -/
def Hands (P : Tree → List NodeId → Prop) (p : Parser (Option NodeId)) : Prop :=
  ∀ ids s, P s.tree ids →
    Ends p s (fun answer s' => P s'.tree (ids ++ answer.toList)) (fun _ s' => P s'.tree ids)

theorem hand_none (h : P s.tree ids) :
    P s.tree (ids ++ (none : Option NodeId).toList) := by
  rw [Option.toList_none, List.append_nil]
  exact h

variable (hP : Tree.HandInvariant P)

include hP

theorem hands_required {post : NodeId → State → Prop} {after : Token} (hE : Hands P E)
    (hs : P s.tree ids) (hpost : ∀ id s', P s'.tree (ids ++ [id]) → post id s') :
    Ends (required E after) s post (fun _ s' => P s'.tree ids) := by
  rw [ends_required]
  refine (hE ids s hs).imp_post ?_
  intro answer s' hanswer
  cases answer with
  | none => exact hP.of_append hanswer
  | some id => exact hpost id s' hanswer

theorem hands_leaf {k : Node.Kind} (hleaf : k.children = []) (hk : ∀ items, k ≠ .root items) :
    Hands P (leaf k) := by
  intro ids s hs
  unfold leaf
  simp only [ends_bind, ends_current, ends_advance, ends_add, ends_pure]
  refine hP.add _ ?_ hk
  rw [hleaf, List.append_nil]
  exact hs

/-- A node may be put below another one. -/
theorem hand_wrap {id : NodeId} (h : P s.tree (ids ++ [id])) (w : Wrapper) (line : Nat) :
    P (s.add (.wrap w id) line).2.tree (ids ++ [(s.add (.wrap w id) line).1]) :=
  hP.add (k := .wrap w id) line h (by simp)

theorem hands_signed (hE : Hands P E) (w : Wrapper) : Hands P (signed E w) := by
  intro ids s hs
  unfold signed
  simp only [ends_bind, ends_current, ends_advance]
  refine hands_required hP hE (s := s.advance) hs ?_
  intro child s' hchild
  exact hand_wrap hP hchild w s.current.line

theorem hands_parenthesised (hE : Hands P E) : Hands P (parenthesised E) := by
  intro ids s hs
  unfold parenthesised
  simp only [ends_bind, ends_current, ends_advance]
  refine hands_required hP hE (s := s.advance) hs ?_
  intro child s' hchild
  simp only [ends_expect, ends_add, ends_pure]
  constructor
  · intro _
    exact hand_wrap hP (s := s'.advance) hchild .indirect s.current.line
  · intro _
    exact hP.of_append hchild

theorem hands_primary (hE : Hands P E) : Hands P (primary E) := by
  intro ids s hs
  have hconst : Hands P (leaf (.const s.current.text)) := hands_leaf hP rfl (by simp)
  unfold primary
  rw [ends_bind, ends_current]
  split
  next => exact hands_leaf hP rfl (by simp) ids s hs
  next => exact hconst ids s hs
  next => exact hconst ids s hs
  next => exact hconst ids s hs
  next => exact hands_signed hP hE .immediate ids s hs
  next => exact hands_signed hP hE .loByte ids s hs
  next => exact hands_signed hP hE .hiByte ids s hs
  next => exact hands_parenthesised hP hE ids s hs
  next => exact hand_none hs

theorem hands_sumRest (hE : Hands P E) (bound : List Token) (left : NodeId) (s : State)
    (hs : P s.tree (ids ++ [left])) :
    Ends (sumRest E bound left) s (fun id s' => P s'.tree (ids ++ [id]))
      (fun _ s' => P s'.tree ids) := by
  induction bound generalizing s left with
  | nil => exact hs
  | cons b bound ih =>
      unfold sumRest
      rw [ends_bind, ends_current]
      split
      next => exact hs
      next operator _ =>
        simp only [ends_bind, ends_advance]
        refine (hands_required hP (hands_primary hP hE) (s := s.advance) hs ?_).imp
          (fun _ _ h => h) fun _ _ h => hP.of_append h
        intro right s₁ hright
        simp only [ends_lineOf, ends_add]
        rw [List.append_assoc] at hright
        exact ih _ _ (hP.add (k := .sum operator left right) _ hright (by simp))

theorem hands_sum (hE : Hands P E) : Hands P (sum E) := by
  intro ids s hs
  unfold sum
  rw [ends_bind]
  refine (hands_primary hP hE ids s hs).imp_post ?_
  intro answer s₁ hfirst
  cases answer with
  | none => exact hfirst
  | some left =>
      simp only [ends_bind, ends_ahead, ends_pure]
      exact hands_sumRest hP hE s₁.stream.ahead left s₁ hfirst

theorem hands_expression (limit levels : Nat) : Hands P (expression limit levels) := by
  induction levels with
  | zero =>
      intro ids s hs
      exact hs
  | succ levels ih => exact hands_sum hP ih

theorem hands_operand (limit : Nat) : Hands P (operand limit) := by
  intro ids s hs
  unfold operand
  rw [ends_bind]
  refine (hands_expression hP limit limit ids s hs).imp_post ?_
  intro answer s₁ hfirst
  cases answer with
  | none => exact hfirst
  | some id =>
      simp only [ends_bind, ends_current, ends_ite, ends_advance, ends_pure]
      constructor
      · intro _
        split
        next => exact hP.of_append hfirst
        next w _ => exact hand_wrap hP (s := s₁.advance.advance) hfirst w _
      · intro _
        exact hfirst

/-! ## Items -/

theorem hands_operandOf (limit : Nat) (token : Token) (c : OperandClass) :
    Hands P (operandOf limit token c) := by
  intro ids s hs
  have honLine : Ends (operandOf.onLineOf limit token) s
      (fun answer s' => P s'.tree (ids ++ answer.toList)) (fun _ s' => P s'.tree ids) := by
    unfold operandOf.onLineOf
    rw [ends_bind, ends_current, ends_ite]
    constructor
    · intro _
      exact hands_operand hP limit ids s hs
    · intro _
      exact hand_none hs
  cases c with
  | implied => exact hand_none hs
  | memory =>
      simp only [operandOf, ends_bind]
      refine honLine.imp_post ?_
      intro answer s' h
      cases answer with
      | none => exact h
      | some id => exact h
  | accumulator => exact honLine
  | target =>
      simp only [operandOf, ends_bind, ends_expect, ends_add, ends_pure]
      constructor
      · intro _
        exact hP.add (k := .name s.current.text) _ (hand_none hs) (by simp)
      · intro _
        exact hs

theorem hands_instruction (limit : Nat) (m : Mnemonic) : Hands P (instruction limit m) := by
  intro ids s hs
  unfold instruction
  simp only [ends_bind, ends_current, ends_advance]
  refine (hands_operandOf hP limit s.current m.operandClass ids s.advance hs).imp_post ?_
  intro operand s' hoperand
  exact hP.add (k := .instruction m operand) _ hoperand (by simp)

theorem hands_dataRest (limit : Nat) (bound : List Token) (done : List NodeId) (s : State)
    (hs : P s.tree (ids ++ done.reverse)) :
    Ends (dataRest limit bound done) s (fun items s' => P s'.tree (ids ++ items))
      (fun _ s' => P s'.tree ids) := by
  induction bound generalizing s done with
  | nil => exact hs
  | cons b bound ih =>
      unfold dataRest
      simp only [ends_bind, ends_current, ends_ite, ends_advance, ends_pure]
      constructor
      · intro _
        refine (hands_expression hP limit limit (ids ++ done.reverse) s.advance hs).imp ?_
          fun _ _ h => hP.of_append h
        intro answer s₁ hanswer
        cases answer with
        | none => exact hP.of_append hanswer
        | some id =>
            refine ih (id :: done) s₁ ?_
            rw [List.reverse_cons, ← List.append_assoc]
            exact hanswer
      · intro _
        exact hs

theorem hands_dataList (limit : Nat) : Hands P (dataList limit) := by
  intro ids s hs
  unfold dataList
  rw [ends_bind]
  refine (hands_expression hP limit limit ids s hs).imp_post ?_
  intro answer s₁ hfirst
  cases answer with
  | none => exact hfirst
  | some id =>
      simp only [ends_bind, ends_ahead, ends_addList]
      refine (hands_dataRest hP limit s₁.stream.ahead [id] s₁ hfirst).imp_post ?_
      intro items s' h
      exact hP.addList h

theorem hands_data (limit : Nat) (width : DataWidth) : Hands P (data limit width) := by
  intro ids s hs
  unfold data
  simp only [ends_bind, ends_current, ends_advance, ends_ite, ends_pure]
  constructor
  · intro _
    refine (hands_dataList hP limit ids s.advance hs).imp_post ?_
    intro answer s' hlist
    cases answer with
    | none => exact hlist
    | some head => exact hP.add (k := .data width head) _ hlist (by simp)
  · intro _
    exact hand_none (s := s.advance) hs

theorem hands_item {k : Token.Kind} {item : Parser (Option NodeId)}
    (h : item? limit k = some item) : Hands P item := by
  unfold item? at h
  split at h
  next m =>
    cases h
    exact hands_instruction hP limit m
  next =>
    cases h
    exact hands_data hP limit .byte
  next =>
    cases h
    exact hands_data hP limit .word
  next => cases h

/-! ## Blocks and statements -/

omit hP in
@[simp] theorem State.tree_skipDirective (s : State) : s.skipDirective.tree = s.tree := by
  unfold skipDirective
  dsimp only
  split
  · rfl
  · rfl

theorem hand_blockItems (limit : Nat) (bound : List Token) (done : List NodeId) (s : State)
    (hs : P s.tree (ids ++ done.reverse)) :
    P (blockItems limit bound done s).2.tree (ids ++ (blockItems limit bound done s).1) := by
  induction bound generalizing done s with
  | nil => exact hs
  | cons b bound ih =>
      unfold blockItems
      split
      next => exact hs
      next =>
        split
        next => exact ih done s.skipDirective (by rwa [State.tree_skipDirective])
        next =>
          split
          next => exact ih done (s.skip .stall) hs
          next item hitem =>
            have hhands := hands_item hP hitem _ s hs
            unfold Ends at hhands
            split
            next found s' hrun =>
              rw [hrun] at hhands
              dsimp only at hhands
              rw [List.append_assoc] at hhands
              refine ih (found.toList ++ done) s' ?_
              rw [List.reverse_append]
              cases found with
              | none => exact hhands
              | some id => exact hhands
            next e s' hrun =>
              rw [hrun] at hhands
              exact hhands

theorem hand_block (limit : Nat) (hs : P s.tree ids) :
    P (block limit s).2.tree (ids ++ (block limit s).1.toList) := by
  have hnone : P s.tree (ids ++ ([] : List NodeId).reverse) := by
    rw [List.reverse_nil, List.append_nil]
    exact hs
  exact hP.addList (hand_blockItems hP limit s.stream.ahead [] s hnone)

theorem hand_addLabel (token : Token) {child : Option NodeId}
    (h : P s.tree (ids ++ child.toList)) :
    P (addLabel token child s).2.tree (ids ++ [(addLabel token child s).1]) :=
  hP.add (k := .label token.declaredName child .unclassified) _ h (by simp)

theorem hand_addLabels (labels : List Token) {x : Option NodeId × State}
    (h : P x.2.tree (ids ++ x.1.toList)) :
    P (addLabels labels x).2.tree (ids ++ (addLabels labels x).1.toList) := by
  induction labels with
  | nil => exact h
  | cons token labels ih =>
      rw [addLabels_cons]
      exact hand_addLabel hP token ih

/-- A section puts all that it reads below its first label, and this one below the
root. -/
theorem hand_labelSection (limit : Nat) (token : Token) (h : P s.tree []) :
    P (labelSection limit token s).tree [] := by
  have hblock := hand_block hP limit (s := s.pastLabels) h
  have hlabels := hand_addLabels hP s.labels hblock
  rw [labelSection_eq]
  exact hP.pushItem (hand_addLabel hP token hlabels)

theorem hands_declaration (limit : Nat) (hs : P s.tree ids) :
    Ends (declaration limit) s (fun id s' => P s'.tree (ids ++ [id])) (fun _ s' => P s'.tree ids) := by
  unfold declaration
  simp only [ends_bind, ends_current, ends_advance]
  refine hands_required hP (hands_expression hP limit limit) (s := s.advance.advance) hs ?_
  intro value s' hvalue
  exact hP.add (k := .decl s.current.text value) _ hvalue (by simp)

/-- Behind a statement nothing is in hand. -/
theorem hand_statement (limit : Nat) (h : P s.tree []) : P (statement limit s).tree [] := by
  unfold statement
  dsimp only
  split
  next => rwa [State.tree_skipDirective]
  next => exact hand_labelSection hP limit s.current (s := s.advance) h
  next =>
    split
    next =>
      have hhands := hands_declaration hP limit h
      unfold Ends at hhands
      split
      next id s' hrun =>
        rw [hrun] at hhands
        exact hP.pushItem hhands
      next e s' hrun =>
        rw [hrun] at hhands
        exact hhands
    next =>
      exact hand_labelSection hP limit s.current
        (s := s.advance.advance.diagnose (.detachedLabel s.current)) h
    next => exact h
  next => exact h

/-! ## Programs -/

/-- What holds of an empty tree and is kept by hand invariants holds of the tree of a
program, with nothing left in hand. -/
theorem program_hand (hempty : P .empty []) (limit : Nat) (ts : List Token) :
    P (program limit ts).tree [] := by
  obtain ⟨_, s', _, _, hrounds, houtcome, _, _⟩ := program_accounts limit ts
  rw [houtcome]
  exact (hrounds.keeps (fun s => P s.tree []) hempty
    fun _ hs _ => hand_statement hP limit hs).2

omit hP

/-- No node has two places in the tree of a program. -/
theorem program_unshared (limit : Nat) (ts : List Token) : (program limit ts).tree.Unshared := by
  obtain ⟨hroot, hitems⟩ := program_hand Tree.handInvariant_apart
    ⟨Tree.rooted_empty, Tree.apart_nil Tree.descends_empty⟩ limit ts
  rw [List.append_nil] at hitems
  exact ⟨hroot, hitems⟩

/-- No node has two owners in the tree of a program, not even out of reach. -/
theorem program_singlyOwned (limit : Nat) (ts : List Token) :
    (program limit ts).tree.SinglyOwned [] :=
  program_hand Tree.handInvariant_singlyOwned Tree.singlyOwned_empty limit ts

/-- There is nothing to repair in the tree of a program, so what is read from a text that
scans without an error is the program of its tokens. -/
theorem readSource_fst {o : ReadOptions} {text : String} {ts : List Token}
    (h : (tokenize o.dialect text .empty).1 = .ok ts) :
    (readSource o text).1 = .ok (program o.nestingLimit ts) := by
  have hnormal : (program o.nestingLimit ts).tree.normalize.tree =
      (program o.nestingLimit ts).tree :=
    congrArg Tree.Repair.tree (program_singlyOwned o.nestingLimit ts).normalize_eq
  simp only [readSource, readInto, Comments.reset, h, Except.map, hnormal]

/-- Every node but the root has one place in the tree of a program, all its links are
right, and repairing them changes nothing.  So a source text is read as its tokens are. -/
theorem program_isProper (limit : Nat) (ts : List Token) :
    (program limit ts).tree.IsProper ∧
      (program limit ts).tree.normalize = ⟨(program limit ts).tree, 0⟩ ∧
        ∀ dialect text, readSource ⟨dialect, limit⟩ text =
          ((tokenize dialect text .empty).1.map (program limit),
            (tokenize dialect text .empty).2) := by
  have hnormal (us : List Token) : (program limit us).tree.normalize.tree =
      (program limit us).tree :=
    congrArg Tree.Repair.tree (program_singlyOwned limit us).normalize_eq
  refine ⟨(program_singlyOwned limit ts).isProper, (program_singlyOwned limit ts).normalize_eq, ?_⟩
  intro dialect text
  simp only [readSource, readInto, Comments.reset, hnormal]

end Asm6502.Parser
