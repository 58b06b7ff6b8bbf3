import Asm6502.Parser.Program
import Asm6502.Proofs.Parsing.Runs
import Mathlib.Data.List.Forall2

/-!
# Programs as they are written

The concrete syntax of a program: what it is made of, down to the tokens it is
written with.  A token carries its text and its place, so nothing has to be said
apart about names, numerals and lines.

Each kind of phrase has two readings.  `tokens` spells it out, and `ShownAt` says
that a node of a tree, with all that the node owns, is exactly this phrase: the
kinds, texts and lines of the nodes are determined, their numbers are not.

The grammar is unambiguous, because of how expressions group.  Plus and minus
group to the left, and a sign in front reaches as far as it can, so an operand of
a sum ends by itself unless it is the last one.  `Expression.Canonical` is this
rule; phrases that break it can be written down, but read otherwise.

## Main results

* `Expression.interior`, `Item.interior` — no phrase of a statement holds an end or a
  label.
* `Expression.ShownAt.keeps` and its like — a phrase shown in a tree stays shown.
-/

namespace Asm6502

/-! ## Names of labels -/

/-- The text of the token is the name with a colon behind it, or the name alone if no colon ends
it. -/
def Token.Declares (t : Token) (name : String) : Prop :=
  t.text = name ++ ":" ∨ t.text = name ∧ t.text.toList.getLast? ≠ some ':'

/-- A text declares one name. -/
theorem Token.declares_iff {t : Token} {name : String} :
    t.Declares name ↔ name = t.declaredName := by
  have hcolon (name : String) : t.text = name ++ ":" ↔ t.text.toList = name.toList ++ [':'] := by
    rw [← String.toList_inj, String.toList_append]
    rfl
  rw [Declares, declaredName, hcolon]
  split
  next hlast =>
    obtain ⟨cs, hcs⟩ := List.getLast?_eq_some_iff.1 hlast
    have hdrop : t.text.toList.dropLast = cs := by rw [hcs, List.dropLast_concat]
    constructor
    · rintro (htext | ⟨_, hother⟩)
      · rw [htext, List.dropLast_concat, String.ofList_toList]
      · exact absurd hlast hother
    · rintro rfl
      rw [String.toList_ofList, hdrop]
      exact .inl hcs
  next hlast =>
    constructor
    · rintro (htext | ⟨rfl, _⟩)
      · rw [htext, List.getLast?_concat] at hlast
        exact absurd rfl hlast
      · rfl
    · rintro rfl
      exact .inr ⟨rfl, hlast⟩

/-- What a label is named after declares its name. -/
theorem Token.declares_declaredName (t : Token) : t.Declares t.declaredName := declares_iff.2 rfl

namespace Syntax

/-! ## Expressions -/

/-- What a sign in front of an expression stands for. -/
def signWrapper? : Token.Kind → Option Wrapper
  | .hash => some .immediate
  | .less => some .loByte
  | .greater => some .hiByte
  | _ => none

/-- An expression. -/
inductive Expression where
  | name (t : Token) (isName : t.kind = .name)
  | const (t : Token) (isConst : t.kind.isConstant = true)
  /-- An expression behind a sign. -/
  | signed (sign : Token) (wrapper : Wrapper) (isSign : signWrapper? sign.kind = some wrapper)
      (body : Expression)
  /-- An expression in parentheses. -/
  | parens (opening : Token) (isOpening : opening.kind = .parenLeft) (body : Expression)
      (closing : Token) (isClosing : closing.kind = .parenRight)
  /-- Two expressions with a plus or minus sign between them. -/
  | sum (left : Expression) (sign : Token) (operator : SumOperator)
      (isSign : Parser.sumOperator? sign.kind = some operator) (right : Expression)

namespace Expression

/-- The tokens of an expression. -/
def tokens : Expression → List Token
  | name t _ | const t _ => [t]
  | signed sign _ _ body => sign :: body.tokens
  | parens opening _ body closing _ => opening :: (body.tokens ++ [closing])
  | sum left sign _ _ right => left.tokens ++ sign :: right.tokens

/-- The line an expression starts on. -/
def line : Expression → Nat
  | name t _ | const t _ => t.line
  | signed sign _ _ _ => sign.line
  | parens opening _ _ _ _ => opening.line
  | sum left _ _ _ _ => left.line

/-- The number of signs and parentheses around the innermost part. -/
def depth : Expression → Nat
  | name _ _ | const _ _ => 0
  | signed _ _ _ body => body.depth + 1
  | parens _ _ body _ _ => body.depth + 1
  | sum left _ _ _ right => max left.depth right.depth

/-- Whether an expression is a sum or a difference. -/
def isSum : Expression → Bool
  | sum _ _ _ _ _ => true
  | _ => false

/-- Whether a sign in front reaches to the end, so that whatever is written behind
would belong to what the sign applies to. -/
def isOpen : Expression → Bool
  | signed _ _ _ _ => true
  | sum _ _ _ _ right => right.isOpen
  | _ => false

/-- Sums group to the left, and only the last part of a sum may be open. -/
def Canonical : Expression → Prop
  | name _ _ | const _ _ => True
  | signed _ _ _ body => body.Canonical
  | parens _ _ body _ _ => body.Canonical
  | sum left _ _ _ right =>
    left.Canonical ∧ right.Canonical ∧ left.isOpen = false ∧ right.isSum = false

/-- Canonical, and with less than so many signs and parentheses around each part. -/
structure Fits (limit : Nat) (e : Expression) : Prop where
  canonical : e.Canonical
  depth_lt : e.depth < limit

/-- Node `id` is the expression. -/
def ShownAt (t : Tree) : Expression → NodeId → Prop
  | name token _, id => t.node id = ⟨.name token.text, token.line⟩
  | const token _, id => t.node id = ⟨.const token.text, token.line⟩
  | signed sign wrapper _ body, id =>
    ∃ child, t.node id = ⟨.wrap wrapper child, sign.line⟩ ∧ body.ShownAt t child
  | parens opening _ body _ _, id =>
    ∃ child, t.node id = ⟨.wrap .indirect child, opening.line⟩ ∧ body.ShownAt t child
  | sum left _ operator _ right, id =>
    ∃ l r, t.node id = ⟨.sum operator l r, left.line⟩ ∧ left.ShownAt t l ∧ right.ShownAt t r

end Expression

/-! ## Operands, instructions and data -/

/-- What an instruction works on: an expression, optionally indexed. -/
inductive Operand where
  | plain (expression : Expression)
  | indexed (expression : Expression) (comma : Token) (isComma : comma.kind = .comma)
      (register : Token) (wrapper : Wrapper)
      (isRegister : Parser.indexWrapper? register.kind = some wrapper)

namespace Operand

/-- The expression, without the index. -/
def expression : Operand → Expression
  | plain e => e
  | indexed e _ _ _ _ _ => e

def tokens : Operand → List Token
  | plain e => e.tokens
  | indexed e comma _ register _ _ => e.tokens ++ [comma, register]

/-- Node `id` is the operand.  An index has the line of what is indexed. -/
def ShownAt (t : Tree) : Operand → NodeId → Prop
  | plain e, id => e.ShownAt t id
  | indexed e _ _ _ wrapper _, id =>
    ∃ child, t.node id = ⟨.wrap wrapper child, e.line⟩ ∧ e.ShownAt t child

/-- The node `id?` is the operand; there is no node if there is no operand. -/
def ShownIfAny (t : Tree) : Option Operand → Option NodeId → Prop
  | none, id? => id? = none
  | some o, id? => ∃ id, id? = some id ∧ o.ShownAt t id

end Operand

/-- What stands behind a mnemonic of the class. -/
inductive Arguments : OperandClass → Type where
  | implied : Arguments .implied
  | memory (operand : Option Operand) : Arguments .memory
  | accumulator (operand : Option Operand) : Arguments .accumulator
  | target (t : Token) (isName : t.kind = .name) : Arguments .target

namespace Arguments

/-- The operand, where there is one. -/
def operand? {c : OperandClass} : Arguments c → Option Operand
  | implied | target _ _ => none
  | memory operand | accumulator operand => operand

def tokens {c : OperandClass} : Arguments c → List Token
  | implied => []
  | memory operand | accumulator operand => (operand.map Operand.tokens).getD []
  | target t _ => [t]

/-- The node `id?` is what stands behind the mnemonic; there is none if nothing does. -/
def ShownAt (t : Tree) {c : OperandClass} : Arguments c → Option NodeId → Prop
  | implied, id? => id? = none
  | memory operand, id? | accumulator operand, id? => Operand.ShownIfAny t operand id?
  | target token _, id? => ∃ id, id? = some id ∧ t.node id = ⟨.name token.text, token.line⟩

end Arguments

/-- A comma and the expression behind it. -/
structure Further where
  comma : Token
  isComma : comma.kind = .comma
  expression : Expression

/-- The width of the values behind a data marker. -/
def markerWidth? : Token.Kind → Option DataWidth
  | .dataBytes => some .byte
  | .dataWords => some .word
  | _ => none

/-- One item of a code block. -/
inductive Item where
  | instruction (t : Token) (mnemonic : Mnemonic) (isMnemonic : t.kind = .instruction mnemonic)
      (arguments : Arguments mnemonic.operandClass)
  /-- A data directive.  A last comma may have nothing behind it. -/
  | data (marker : Token) (width : DataWidth) (isMarker : markerWidth? marker.kind = some width)
      (first : Expression) (further : List Further)
      (trailing : Option { comma : Token // comma.kind = .comma })

namespace Item

/-- The expressions of an item, in order. -/
def expressions : Item → List Expression
  | instruction _ _ _ arguments => (arguments.operand?.map Operand.expression).toList
  | data _ _ _ first further _ => first :: further.map Further.expression

def tokens : Item → List Token
  | instruction t _ _ arguments => t :: arguments.tokens
  | data marker _ _ first further trailing =>
    marker :: first.tokens ++ further.flatMap (fun f => f.comma :: f.expression.tokens) ++
      (trailing.map Subtype.val).toList

/-- The line an item starts on. -/
def line : Item → Nat
  | instruction t _ _ _ => t.line
  | data marker _ _ _ _ _ => marker.line

/-- What the item works on starts on its line.  The name behind a branch need not. -/
def OnLine (i : Item) : Prop := ∀ e ∈ i.expressions.head?, e.line = i.line

/-- What is reported about an item: a mnemonic that addresses memory should have an
operand. -/
def reports : Item → List Diagnostic
  | instruction t mnemonic _ arguments =>
    if mnemonic.operandClass = .memory ∧ arguments.operand? = none then [.noOperand t] else []
  | data _ _ _ _ _ _ => []

/-- Node `id` is the item. -/
def ShownAt (t : Tree) : Item → NodeId → Prop
  | instruction token mnemonic _ arguments, id =>
    ∃ operand, t.node id = ⟨.instruction mnemonic operand, token.line⟩ ∧
      arguments.ShownAt t operand
  | data marker width _ first further _, id =>
    ∃ head ids, t.node id = ⟨.data width head, marker.line⟩ ∧ t.Lists (some head) ids ∧
      List.Forall₂ (fun id e => e.ShownAt t id) ids (first :: further.map Further.expression)

end Item

/-! ## Sections and declarations -/

/-- A label, or a name that is taken for one, the labels that directly follow it, and
the code block behind them. -/
structure Section where
  heading : Token
  nested : List Token
  items : List Item

/-- A name that is set to the value of an expression. -/
structure Declaration where
  name : Token
  equals : Token
  isName : name.kind = .name
  isEquals : equals.kind = .equals
  value : Expression

/-- An item of the root. -/
inductive Entry where
  | declaration (d : Declaration)
  | labelled (s : Section)

/-- The node `id?` is the outermost of a chain of labels, the innermost of which is
put in front of `child`. -/
def LabelsShownAt (t : Tree) (child : Option NodeId) : List Token → Option NodeId → Prop
  | [], id? => id? = child
  | token :: more, id? =>
    ∃ id name next, id? = some id ∧ token.Declares name ∧
      t.node id = ⟨.label name next .unclassified, token.line⟩ ∧
      LabelsShownAt t child more next

namespace Section

def tokens (s : Section) : List Token := s.heading :: s.nested ++ s.items.flatMap Item.tokens

/-- Node `id` is the first label of the section. -/
def ShownAt (t : Tree) (s : Section) (id : NodeId) : Prop :=
  ∃ head ids, t.Lists head ids ∧ List.Forall₂ (fun id i => i.ShownAt t id) ids s.items ∧
    LabelsShownAt t head (s.heading :: s.nested) (some id)

end Section

namespace Declaration

def tokens (d : Declaration) : List Token := d.name :: d.equals :: d.value.tokens

/-- Node `id` is the declaration. -/
def ShownAt (t : Tree) (d : Declaration) (id : NodeId) : Prop :=
  ∃ child, t.node id = ⟨.decl d.name.text child, d.name.line⟩ ∧ d.value.ShownAt t child

end Declaration

namespace Entry

def tokens : Entry → List Token
  | declaration d => d.tokens
  | labelled s => s.tokens

/-- The expressions of an entry, in order. -/
def expressions : Entry → List Expression
  | declaration d => [d.value]
  | labelled s => s.items.flatMap Item.expressions

/-- The items of an entry, in order. -/
def items : Entry → List Item
  | declaration _ => []
  | labelled s => s.items

/-- Node `id` is the entry. -/
def ShownAt (t : Tree) : Entry → NodeId → Prop
  | declaration d, id => d.ShownAt t id
  | labelled s, id => s.ShownAt t id

end Entry

/-! ## Phrases and their tokens -/

/-- An expression starts on the line of its first token. -/
theorem Expression.exists_tokens_eq (e : Expression) :
    ∃ t ts, e.tokens = t :: ts ∧ t.line = e.line := by
  induction e with
  | name t | const t | signed t | parens t => exact ⟨t, _, rfl, rfl⟩
  | sum left sign operator isSign right ihLeft =>
      obtain ⟨t, ts, htokens, hline⟩ := ihLeft
      refine ⟨t, ts ++ sign :: right.tokens, ?_, hline⟩
      rw [tokens, htokens, List.cons_append]

theorem Operand.exists_tokens_eq (o : Operand) :
    ∃ t ts, o.tokens = t :: ts ∧ t.line = o.expression.line := by
  cases o with
  | plain e => exact e.exists_tokens_eq
  | indexed e comma isComma register =>
      obtain ⟨t, ts, htokens, hline⟩ := e.exists_tokens_eq
      refine ⟨t, ts ++ [comma, register], ?_, hline⟩
      rw [tokens, htokens, List.cons_append]

theorem Expression.interior (e : Expression) : Parser.Interior e.tokens := by
  induction e with
  | name t isName => exact .of_kind isName (by decide) (by decide)
  | const t isConst => exact .of_isConstant isConst
  | signed sign wrapper isSign body ih =>
      exact (Parser.Interior.of_eq_some isSign rfl rfl).append ih
  | parens opening isOpening body closing isClosing ih =>
      have hopening := Parser.Interior.of_kind isOpening (by decide) (by decide)
      exact hopening.append (ih.append (.of_kind isClosing (by decide) (by decide)))
  | sum left sign operator isSign right ihLeft ihRight =>
      exact ihLeft.append ((Parser.Interior.of_eq_some isSign rfl rfl).append ihRight)

theorem Operand.interior (o : Operand) : Parser.Interior o.tokens := by
  cases o with
  | plain e => exact e.interior
  | indexed e comma isComma register wrapper isRegister =>
      have hcomma := Parser.Interior.of_kind isComma (by decide) (by decide)
      exact e.interior.append (hcomma.append (.of_eq_some isRegister rfl rfl))

theorem Arguments.interior {c : OperandClass} (a : Arguments c) : Parser.Interior a.tokens := by
  have optional (operand : Option Operand) :
      Parser.Interior ((operand.map Operand.tokens).getD []) := by
    cases operand with
    | none => exact .nil
    | some o => exact o.interior
  cases a with
  | implied => exact .nil
  | memory operand => exact optional operand
  | accumulator operand => exact optional operand
  | target t isName => exact .of_kind isName (by decide) (by decide)

theorem Further.interior (f : Further) : Parser.Interior (f.comma :: f.expression.tokens) :=
  (Parser.Interior.of_kind f.isComma (by decide) (by decide)).append f.expression.interior

theorem Item.interior (i : Item) : Parser.Interior i.tokens := by
  cases i with
  | instruction t mnemonic isMnemonic arguments =>
      exact (Parser.Interior.of_kind isMnemonic (by simp) (by simp)).append arguments.interior
  | data marker width isMarker first further trailing =>
      have hmarker := Parser.Interior.of_eq_some isMarker rfl rfl
      refine ((hmarker.append first.interior).append (.flatMap fun f _ => f.interior)).append ?_
      cases trailing with
      | none => exact .nil
      | some comma => exact .of_kind comma.2 (by decide) (by decide)

/-! ## What is shown stays shown -/

variable {t t' : Tree} {id : NodeId}

namespace Expression

theorem ShownAt.isInner {e : Expression} (h : e.ShownAt t id) : t.IsInner id := by
  have inner {n : Node} (hn : t.node id = n) (hk : ∀ items, n.kind ≠ .root items) :
      t.IsInner id := Tree.isInner_of_kind (congrArg Node.kind hn) hk
  cases e with
  | name => exact inner h (by simp)
  | const => exact inner h (by simp)
  | signed =>
      obtain ⟨_, hnode, _⟩ := h
      exact inner hnode (by simp)
  | parens =>
      obtain ⟨_, hnode, _⟩ := h
      exact inner hnode (by simp)
  | sum =>
      obtain ⟨_, _, hnode, _⟩ := h
      exact inner hnode (by simp)

theorem ShownAt.line_eq {e : Expression} (h : e.ShownAt t id) : t.line id = e.line := by
  cases e with
  | name => rw [Tree.line, h]; rfl
  | const => rw [Tree.line, h]; rfl
  | signed =>
      obtain ⟨_, hnode, _⟩ := h
      rw [Tree.line, hnode]
      rfl
  | parens =>
      obtain ⟨_, hnode, _⟩ := h
      rw [Tree.line, hnode]
      rfl
  | sum =>
      obtain ⟨_, _, hnode, _⟩ := h
      rw [Tree.line, hnode]
      rfl

theorem ShownAt.keeps {e : Expression} (h : e.ShownAt t id) (hk : t.Keeps t') :
    e.ShownAt t' id := by
  induction e generalizing id with
  | name => exact hk.node_eq h (by simp)
  | const => exact hk.node_eq h (by simp)
  | signed _ _ _ _ ih =>
      obtain ⟨child, hnode, hbody⟩ := h
      exact ⟨child, hk.node_eq hnode (by simp), ih hbody⟩
  | parens _ _ _ _ _ ih =>
      obtain ⟨child, hnode, hbody⟩ := h
      exact ⟨child, hk.node_eq hnode (by simp), ih hbody⟩
  | sum _ _ _ _ _ ihLeft ihRight =>
      obtain ⟨l, r, hnode, hleft, hright⟩ := h
      exact ⟨l, r, hk.node_eq hnode (by simp), ihLeft hleft, ihRight hright⟩

end Expression

theorem Operand.ShownAt.keeps {o : Operand} (h : o.ShownAt t id) (hk : t.Keeps t') :
    o.ShownAt t' id := by
  cases o with
  | plain e => exact Expression.ShownAt.keeps h hk
  | indexed =>
      obtain ⟨child, hnode, he⟩ := h
      refine ⟨child, hk.node_eq hnode ?_, he.keeps hk⟩
      simp

theorem Operand.ShownAt.isInner {o : Operand} (h : o.ShownAt t id) : t.IsInner id := by
  cases o with
  | plain e => exact Expression.ShownAt.isInner h
  | indexed =>
      obtain ⟨child, hnode, _⟩ := h
      exact Tree.isInner_of_kind (congrArg Node.kind hnode) (by simp)

theorem Operand.ShownIfAny.keeps {o? : Option Operand} {id? : Option NodeId}
    (h : ShownIfAny t o? id?) (hk : t.Keeps t') : ShownIfAny t' o? id? := by
  cases o? with
  | none => exact h
  | some o =>
      obtain ⟨id, hid, ho⟩ := h
      exact ⟨id, hid, ho.keeps hk⟩

theorem Arguments.ShownAt.keeps {c : OperandClass} {a : Arguments c} {id? : Option NodeId}
    (h : a.ShownAt t id?) (hk : t.Keeps t') : a.ShownAt t' id? := by
  cases a with
  | implied => exact h
  | memory => exact Operand.ShownIfAny.keeps h hk
  | accumulator => exact Operand.ShownIfAny.keeps h hk
  | target =>
      obtain ⟨id, hid, hnode⟩ := h
      exact ⟨id, hid, hk.node_eq hnode (by simp)⟩

theorem Arguments.ShownAt.isInner {c : OperandClass} {a : Arguments c} {id? : Option NodeId}
    (h : a.ShownAt t id?) : ∀ id ∈ id?, t.IsInner id := by
  have optional (o? : Option Operand) (h : Operand.ShownIfAny t o? id?) :
      ∀ id ∈ id?, t.IsInner id := by
    intro id hid
    cases o? with
    | none =>
        rw [show id? = none from h] at hid
        cases hid
    | some o =>
        obtain ⟨id', rfl, ho⟩ := h
        cases hid
        exact ho.isInner
  cases a with
  | implied => exact optional none h
  | memory => exact optional _ h
  | accumulator => exact optional _ h
  | target =>
      intro id hid
      obtain ⟨id', rfl, hnode⟩ := h
      cases hid
      exact Tree.isInner_of_kind (congrArg Node.kind hnode) (by simp)

/-- The cells of a list and all that they show stay. -/
theorem lists_keeps {α : Type} {R : Tree → NodeId → α → Prop} {head : Option NodeId}
    {ids : List NodeId} {xs : List α} (hlists : t.Lists head ids)
    (hshown : List.Forall₂ (R t) ids xs) (hk : t.Keeps t')
    (inner : ∀ {id x}, R t id x → t.IsInner id) (keeps : ∀ {id x}, R t id x → R t' id x) :
    t'.Lists head ids ∧ List.Forall₂ (R t') ids xs := by
  have hinner := (List.forall₂_and_left (p := t.IsInner) ..).1
    (hshown.imp fun _ _ hx => ⟨inner hx, hx⟩)
  exact ⟨hlists.keeps hk hinner.1, hshown.imp fun _ _ hx => keeps hx⟩

theorem Item.ShownAt.isInner {i : Item} (h : i.ShownAt t id) : t.IsInner id := by
  cases i with
  | instruction =>
      obtain ⟨_, hnode, _⟩ := h
      exact Tree.isInner_of_kind (congrArg Node.kind hnode) (by simp)
  | data =>
      obtain ⟨_, _, hnode, _⟩ := h
      exact Tree.isInner_of_kind (congrArg Node.kind hnode) (by simp)

theorem Item.ShownAt.keeps {i : Item} (h : i.ShownAt t id) (hk : t.Keeps t') :
    i.ShownAt t' id := by
  cases i with
  | instruction =>
      obtain ⟨operand, hnode, harguments⟩ := h
      exact ⟨operand, hk.node_eq hnode (by simp), harguments.keeps hk⟩
  | data =>
      obtain ⟨head, ids, hnode, hlists, hshown⟩ := h
      obtain ⟨hlists', hshown'⟩ := lists_keeps (R := fun t id e => Expression.ShownAt t e id)
        hlists hshown hk Expression.ShownAt.isInner fun he => he.keeps hk
      exact ⟨head, ids, hk.node_eq hnode (by simp), hlists', hshown'⟩

theorem LabelsShownAt.keeps {child id? : Option NodeId} {labels : List Token}
    (h : LabelsShownAt t child labels id?) (hk : t.Keeps t') :
    LabelsShownAt t' child labels id? := by
  induction labels generalizing id? with
  | nil => exact h
  | cons token more ih =>
      obtain ⟨id, name, next, hid, hname, hnode, hmore⟩ := h
      exact ⟨id, name, next, hid, hname, hk.node_eq hnode (by simp), ih hmore⟩

/-- The outermost label is a node, and what the labels stand in front of remains one if
there are none. -/
theorem LabelsShownAt.isInner {child id? : Option NodeId} {labels : List Token}
    (h : LabelsShownAt t child labels id?) (hchild : ∀ id ∈ child, t.IsInner id) :
    ∀ id ∈ id?, t.IsInner id := by
  cases labels with
  | nil =>
      rw [show id? = child from h]
      exact hchild
  | cons token more =>
      obtain ⟨id', _, next, rfl, _, hnode, _⟩ := h
      intro id hid
      cases hid
      exact Tree.isInner_of_kind (congrArg Node.kind hnode) (by simp)

theorem Entry.ShownAt.isInner {e : Entry} (h : e.ShownAt t id) : t.IsInner id := by
  cases e with
  | declaration d =>
      obtain ⟨_, hnode, _⟩ := h
      exact Tree.isInner_of_kind (congrArg Node.kind hnode) (by simp)
  | labelled s =>
      obtain ⟨_, _, _, _, _, _, _, ⟨⟩, _, hnode, _⟩ := h
      exact Tree.isInner_of_kind (congrArg Node.kind hnode) (by simp)

theorem Section.ShownAt.keeps {s : Section} (h : s.ShownAt t id) (hk : t.Keeps t') :
    s.ShownAt t' id := by
  obtain ⟨head, ids, hlists, hshown, hlabels⟩ := h
  obtain ⟨hlists', hshown'⟩ := lists_keeps (R := fun t id i => Item.ShownAt t i id)
    hlists hshown hk Item.ShownAt.isInner fun hi => hi.keeps hk
  exact ⟨head, ids, hlists', hshown', hlabels.keeps hk⟩

theorem Entry.ShownAt.keeps {e : Entry} (h : e.ShownAt t id) (hk : t.Keeps t') :
    e.ShownAt t' id := by
  cases e with
  | declaration d =>
      obtain ⟨child, hnode, hvalue⟩ := h
      exact ⟨child, hk.node_eq hnode (by simp), hvalue.keeps hk⟩
  | labelled s => exact Section.ShownAt.keeps h hk

end Syntax

end Asm6502
