import Asm6502.Proofs.Tree.Growth

/-!
# Trees without numbers

The numbers of the nodes of a tree tell when they were added.  What a tree says does not
depend on them: the term of a node has its shape and its line and the terms of what it
owns, and no number is left in it.

Two trees say the same where one has the nodes of the other under other numbers.  Here
the other numbers are always the old ones moved up by a constant, which is what happens
when one tree is built on top of another.  `OnTop` is kept while nodes that belong
together are added to both.

## Main results

* `term_eq_of_keeps` — terms stay as they are while a tree is built.
* `term_add` — terms do not change when all numbers are moved up.
* `OnTop.terms_eq` — a tree on top of another says what both say.
-/

namespace Asm6502

namespace Node.Kind

/-- The kind with the nodes it owns under other numbers. -/
def renumber (f : NodeId → NodeId) : Kind → Kind
  | .root items => .root (items.map f)
  | .list item next => .list (f item) (next.map f)
  | .data width head => .data width (f head)
  | .decl text expression => .decl text (f expression)
  | .label text child type => .label text (child.map f) type
  | .name text => .name text
  | .const text => .const text
  | .wrap wrapper child => .wrap wrapper (f child)
  | .sum operator left right => .sum operator (f left) (f right)
  | .instruction mnemonic operand => .instruction mnemonic (operand.map f)

theorem children_renumber (f : NodeId → NodeId) (k : Kind) :
    (k.renumber f).children = k.children.map f := by
  cases k with
  | list item next => cases next <;> rfl
  | label text child type => cases child <;> rfl
  | instruction mnemonic operand => cases operand <;> rfl
  | root | data | decl | name | const | wrap | sum => rfl

/-- The kind with all numbers forgotten. -/
def shape (k : Kind) : Kind := k.renumber fun _ => 0

theorem shape_renumber (f : NodeId → NodeId) (k : Kind) : (k.renumber f).shape = k.shape := by
  cases k with
  | root items => exact congrArg Kind.root (List.map_map ..)
  | list item next => cases next <;> rfl
  | label text child type => cases child <;> rfl
  | instruction mnemonic operand => cases operand <;> rfl
  | data | decl | name | const | wrap | sum => rfl

end Node.Kind

/-- A node without its number: its shape, its line, and the nodes that it owns. -/
inductive Term where
  | node (shape : Node.Kind) (line : Nat) (parts : List Term)

namespace Tree

variable {t t' : Tree} {id : NodeId}

/-- What a node says, with all that it owns.  Only smaller numbers are followed, like in
a walk. -/
def term (t : Tree) (id : NodeId) : Term :=
  .node (t.kind id).shape (t.line id)
    (((t.children id).filter fun child => child < id).attach.map fun child => t.term child.1)
termination_by id
decreasing_by exact of_decide_eq_true (List.mem_filter.1 child.2).2

theorem term_eq_filter (t : Tree) (id : NodeId) :
    t.term id = .node (t.kind id).shape (t.line id)
      (((t.children id).filter fun child => child < id).map t.term) := by
  rw [term, List.attach_map_val (f := t.term)]

/-- Below the root of a tree that descends, all that is owned is followed. -/
theorem term_eq (ht : t.Descends) (hid : t.IsInner id) :
    t.term id = .node (t.kind id).shape (t.line id) ((t.children id).map t.term) := by
  have hall : ∀ child ∈ t.children id, decide (child < id) = true := by
    intro child hchild
    exact decide_eq_true (ht id hid child hchild).1
  rw [term_eq_filter, List.filter_eq_self.2 hall]

/-- What a tree says stays as it is. -/
theorem term_eq_of_keeps (ht : t.Descends) (hkeeps : t.Keeps t') (hid : t.IsInner id) :
    t'.term id = t.term id := by
  induction id using Nat.strongRecOn with
  | ind id ih =>
    have hnode := hkeeps id hid
    rw [term_eq_filter, term_eq_filter, children, children, kind, kind, line, line, hnode]
    refine congrArg _ (List.map_congr_left ?_)
    intro child hchild
    obtain ⟨hmem, hlt⟩ := List.mem_filter.1 hchild
    exact ih child (of_decide_eq_true hlt) (ht id hid child hmem).2

/-- Moving all numbers up does not change what a tree says. -/
theorem term_add {k : Nat} (ht : t.Descends)
    (hnode : ∀ id, t.IsInner id → t'.node (id + k) = ⟨(t.kind id).renumber (· + k), t.line id⟩)
    (hid : t.IsInner id) : t'.term (id + k) = t.term id := by
  induction id using Nat.strongRecOn with
  | ind id ih =>
    have hkind : t'.kind (id + k) = (t.kind id).renumber (· + k) :=
      congrArg Node.kind (hnode id hid)
    have hline : t'.line (id + k) = t.line id := by rw [line, hnode id hid]
    have hall : ∀ child ∈ (t.children id).map (· + k), decide (child < id + k) = true := by
      intro child hchild
      obtain ⟨c, hc, rfl⟩ := List.mem_map.1 hchild
      exact decide_eq_true (Nat.add_lt_add_right (ht id hid c hc).1 k)
    rw [term_eq ht hid, term_eq_filter, children, hkind, hline, Node.Kind.children_renumber,
      Node.Kind.shape_renumber]
    show Term.node _ _ ((((t.children id).map (· + k)).filter _).map t'.term) = _
    rw [List.filter_eq_self.2 hall, List.map_map]
    refine congrArg _ (List.map_congr_left ?_)
    intro child hchild
    obtain ⟨hlt, hinner⟩ := ht id hid child hchild
    exact ih child hlt hinner

/-- What a tree says: what its items say, in order. -/
def terms (t : Tree) : List Term := t.items.map t.term

/-! ## One tree on top of another -/

/-- How far numbers are moved up on top of a tree: the two trees have one root. -/
def height (t : Tree) : Nat := t.size - 1

/-- The tree `whole` is `base` with what `top` has below its root added behind: first the
nodes of `base`, then those of `top` under higher numbers. -/
structure OnTop (base whole top : Tree) : Prop where
  rooted : whole.Rooted
  rooted_top : top.Rooted
  size_eq : whole.size = top.size + base.height
  keeps : base.Keeps whole
  node_eq : ∀ id : Nat, 0 < id →
    whole.node (id + base.height) = ⟨(top.kind id).renumber (· + base.height), top.line id⟩
  items_eq : whole.items = base.items ++ top.items.map (· + base.height)

namespace OnTop

variable {base whole top : Tree}

/-- Nothing on top yet. -/
theorem start (h : base.Rooted) : OnTop base base empty where
  rooted := h
  rooted_top := rooted_empty
  size_eq := by
    have hpos := h.size_pos
    show base.size = 1 + (base.size - 1)
    omega
  keeps _ _ := rfl
  node_eq id hid := by
    have hpos := h.size_pos
    have hsize : base.size ≤ id + base.height := by
      show base.size ≤ id + (base.size - 1)
      omega
    have hempty : empty.size ≤ id := hid
    rw [node_eq_of_size_le hsize, kind, line, node_eq_of_size_le hempty]
    rfl
  items_eq := (List.append_nil _).symm

/-- Nodes that belong together may be added to both trees. -/
theorem add (h : OnTop base whole top) (k : Node.Kind) (line : Nat) :
    OnTop base (whole.add (k.renumber (· + base.height)) line).2 (top.add k line).2 where
  rooted := rooted_add h.rooted _ _
  rooted_top := rooted_add h.rooted_top _ _
  size_eq := by
    rw [size_add, size_add, h.size_eq]
    omega
  keeps := by
    refine h.keeps.trans ?_
    intro id hid
    exact node_add_of_lt hid.lt_size
  node_eq id hid := by
    have hsize := h.size_eq
    by_cases hlt : id < top.size
    · have hlt' : id + base.height < whole.size := by omega
      rw [node_add_of_lt hlt', kind, Tree.line, node_add_of_lt hlt]
      exact h.node_eq id hid
    · by_cases heq : id = top.size
      · have heq' : id + base.height = whole.size := by omega
        rw [heq', node_add_self, heq, kind, Tree.line, node_add_self]
      · have hle : (top.add k line).2.size ≤ id := by
          rw [size_add]
          omega
        have hle' : (whole.add (k.renumber (· + base.height)) line).2.size ≤ id + base.height := by
          rw [size_add]
          omega
        rw [node_eq_of_size_le hle', kind, Tree.line, node_eq_of_size_le hle]
        rfl
  items_eq := by
    rw [items_add h.rooted, items_add h.rooted_top]
    exact h.items_eq

theorem pushItem (h : OnTop base whole top) (item : Nat) :
    OnTop base (whole.pushItem (item + base.height)) (top.pushItem item) where
  rooted := rooted_pushItem h.rooted _
  rooted_top := rooted_pushItem h.rooted_top _
  size_eq := by
    rw [size_pushItem, size_pushItem]
    exact h.size_eq
  keeps := h.keeps.trans (keeps_pushItem h.rooted _)
  node_eq id hid := by
    have hne : id + base.height ≠ 0 := by omega
    rw [node_pushItem_of_ne whole _ hne, kind, line, node_pushItem_of_ne top _ (Nat.ne_of_gt hid)]
    exact h.node_eq id hid
  items_eq := by
    rw [items_pushItem h.rooted, items_pushItem h.rooted_top, h.items_eq, List.map_append,
      List.append_assoc]
    rfl

theorem line_eq (h : OnTop base whole top) {id : Nat} (hid : 0 < id) :
    whole.line (id + base.height) = top.line id := by
  rw [line, h.node_eq id hid]

/-- The whole tree says what the two trees say, one after the other. -/
theorem terms_eq (h : OnTop base whole top) (hbase : base.Descends) (htop : top.Descends)
    (hbaseItems : ∀ id ∈ base.items, base.IsInner id)
    (htopItems : ∀ id ∈ top.items, top.IsInner id) :
    whole.terms = base.terms ++ top.terms := by
  have hnode : ∀ id, top.IsInner id →
      whole.node (id + base.height) = ⟨(top.kind id).renumber (· + base.height), top.line id⟩ := by
    intro id hid
    exact h.node_eq id (Nat.pos_of_ne_zero (h.rooted_top.ne_zero_of_isInner hid))
  have hfirst : base.items.map whole.term = base.items.map base.term := by
    refine List.map_congr_left ?_
    intro id hid
    exact term_eq_of_keeps hbase h.keeps (hbaseItems id hid)
  have hsecond : top.items.map (whole.term ∘ (· + base.height)) = top.items.map top.term := by
    refine List.map_congr_left ?_
    intro id hid
    exact term_add htop hnode (htopItems id hid)
  rw [terms, h.items_eq, List.map_append, List.map_map, hfirst, hsecond]
  rfl

end OnTop

end Tree

end Asm6502
