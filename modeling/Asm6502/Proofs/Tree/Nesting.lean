import Asm6502.Proofs.Tree.Growth
import Asm6502.Proofs.Tree.Shape

/-!
# How deep expressions nest

A sign, or a pair of parentheses, encloses all that it applies to.  On a way from one node
down to another, the nodes that enclose are counted; an index stands beside an operand and
does not count.

`Within n` says of a node that fewer than `n` nodes enclose any name or constant below it,
itself included.  It is put together from the bottom up, as trees are, and read along a way
from the top down.  The target of a branch is no part of an expression and needs no room.

## Main results

* `Within.along` — on a way down, each node that encloses uses up one level.
* `Within.nested_lt` — fewer nodes enclose a leaf than there is room for.
-/

namespace Asm6502

namespace Node.Kind

/-- Whether a node is a sign or a pair of parentheses. -/
def encloses : Kind → Bool
  | .wrap wrapper _ => !wrapper.isIndex
  | _ => false

/-- Whether a node is a name or a constant. -/
def isLeaf : Kind → Bool
  | .name _ | .const _ => true
  | _ => false

end Node.Kind

namespace Tree

variable {t : Tree} {top id child : NodeId} {n m : Nat}

/-- On a way from `top` down to a node, so many nodes enclose it; the node itself is not
counted. -/
inductive Nested (t : Tree) (top : NodeId) : Nat → NodeId → Prop where
  | here : Nested t top 0 top
  | down {n : Nat} {owner child : NodeId} (way : Nested t top n owner)
      (hchild : child ∈ t.children owner) :
      Nested t top (n + if (t.kind owner).encloses then 1 else 0) child

/-- A node that the root leads to is the target of a branch or a jump. -/
def IsTarget (t : Tree) (id : NodeId) : Prop :=
  ∃ owner m, t.Reaches owner ∧ t.kind owner = .instruction m (some id) ∧
    m.operandClass = .target

theorem Nested.reaches (h : t.Nested 0 n id) : t.Reaches id := by
  induction h with
  | here => exact .refl
  | down _ hchild ih => exact ih.tail hchild

/-- There is room for the node and all below it where `n` levels are left. -/
inductive Within (t : Tree) : Nat → NodeId → Prop where
  | leaf {n : Nat} {id : NodeId} (hk : (t.kind id).isLeaf = true) : Within t (n + 1) id
  | enclosing {n : Nat} {id child : NodeId} {wrapper : Wrapper}
      (hk : t.kind id = .wrap wrapper child) (hplain : wrapper.isIndex = false)
      (below : Within t n child) : Within t (n + 1) id
  | branch {n : Nat} {id target : NodeId} {m : Mnemonic} {text : String}
      (hk : t.kind id = .instruction m (some target)) (hclass : m.operandClass = .target)
      (hname : t.kind target = .name text) : Within t n id
  | other {n : Nat} {id : NodeId} (hleaf : (t.kind id).isLeaf = false)
      (hplain : (t.kind id).encloses = false)
      (below : ∀ child ∈ t.children id, Within t n child) : Within t n id

/-- On a way down, each node that encloses uses up one level, until the way ends at a
target. -/
theorem Within.along (h : t.Within n top) (way : t.Nested top m id) :
    (∃ left, n = m + left ∧ t.Within left id) ∨
      ∃ k owner mnemonic text, t.Nested top k owner ∧
        t.kind owner = .instruction mnemonic (some id) ∧ mnemonic.operandClass = .target ∧
        t.kind id = .name text := by
  induction way with
  | here => exact .inl ⟨n, (Nat.zero_add n).symm, h⟩
  | @down m owner child way hchild ih =>
      rcases ih with ⟨left, rfl, howner⟩ | ⟨_, _, _, text, _, _, _, hname⟩
      · cases howner with
        | leaf hk =>
            rw [children] at hchild
            cases hkind : t.kind owner with
            | name | const =>
                rw [hkind] at hchild
                cases hchild
            | root | list | data | decl | label | wrap | sum | instruction =>
                rw [hkind] at hk
                cases hk
        | @enclosing left _ below wrapper hk hplain hbelow =>
            rw [children, hk] at hchild
            have henc : (t.kind owner).encloses = true := by
              rw [hk, Node.Kind.encloses, hplain]
              rfl
            rw [henc, List.mem_singleton.1 hchild]
            exact .inl ⟨left, by simp only [if_true]; omega, hbelow⟩
        | branch hk hclass hname =>
            rw [children, hk] at hchild
            have htarget := List.mem_singleton.1 hchild
            subst htarget
            exact .inr ⟨m, owner, _, _, way, hk, hclass, hname⟩
        | other _ hplain hbelow =>
            rw [hplain]
            exact .inl ⟨left, rfl, hbelow child hchild⟩
      · rw [children, hname] at hchild
        cases hchild

/-- Fewer nodes enclose a name or a constant than there are levels, unless it is the target
of a branch. -/
theorem Within.nested_lt (h : t.Within n 0) (way : t.Nested 0 m id)
    (hleaf : (t.kind id).isLeaf = true) (htarget : ¬ t.IsTarget id) : m < n := by
  rcases h.along way with ⟨left, rfl, hid⟩ | ⟨_, owner, mnemonic, _, hway, hk, hclass, _⟩
  · cases hid with
    | leaf => omega
    | enclosing hk =>
        rw [hk] at hleaf
        cases hleaf
    | branch hk =>
        rw [hk] at hleaf
        cases hleaf
    | other hother =>
        rw [hother] at hleaf
        cases hleaf
  · exact absurd ⟨owner, mnemonic, hway.reaches, hk, hclass⟩ htarget

/-- A node that does not enclose needs no room of its own. -/
theorem Within.of_node {k : Node.Kind} {line : Nat} (hnode : t.node id = ⟨k, line⟩)
    (hleaf : k.isLeaf = false) (hplain : k.encloses = false)
    (hbelow : ∀ child ∈ k.children, t.Within n child) : t.Within n id := by
  have hkind : t.kind id = k := congrArg Node.kind hnode
  refine .other (by rw [hkind, hleaf]) (by rw [hkind, hplain]) ?_
  rw [children, hkind]
  exact hbelow

/-- There is room for a list if there is for its items. -/
theorem Within.of_lists {head : Option NodeId} {ids : List NodeId} (hlists : t.Lists head ids)
    (hids : ∀ id ∈ ids, t.Within n id) : ∀ cell ∈ head, t.Within n cell := by
  induction ids generalizing head with
  | nil =>
      rintro cell hcell
      rw [show head = none from hlists] at hcell
      cases hcell
  | cons id ids ih =>
      obtain ⟨cell, next, rfl, hnode, hmore⟩ := hlists
      have hnext := ih hmore fun i hi => hids i (List.mem_cons_of_mem _ hi)
      rintro _ ⟨⟩
      refine .of_node hnode rfl rfl ?_
      intro child hchild
      rcases List.mem_cons.1 hchild with rfl | hchild
      · exact hids _ List.mem_cons_self
      · exact hnext child (Option.mem_toList.1 hchild)

end Tree

end Asm6502
