import Asm6502.Proofs.Parsing.Syntax
import Asm6502.Proofs.Tree.Preorder
import Mathlib.Data.List.Forall2

/-!
# Nodes and the tokens they come from

Most nodes come from a token of their own, whose text and line they have.  A few stand
between others (sums, indexed operands, list cells) and have the line of a node they
own, the one that comes next in source order.

`Traced` lines up a list of tokens and a list of nodes in this sense.  It also says why a
token has no node, and what was reported on the way: a token that a grammar only puts
between others needs none, and a numeral needs none behind a directive, which takes it
along; all else that has no node was reported.  What stands behind a token may depend on
it, hence a trace starts from what is in front of it.

Traces of stretches that follow each other follow each other, so a trace is put together
from its parts; and once it is there, each node can be told the place of its token.

## Main results

* `Traced.append` — traces follow each other.
* `Traced.line_eq`, `Traced.pairwise_line` — lines are handed on, and stay in order.
* `Traced.exists_placed` — places for the nodes, in order, with no label left out.
* `Traced.exists_recovers` — the recovered labels are those that are reported.
-/

namespace Asm6502

/-! ## Nodes and their tokens -/

/-- The token in front of what is wrapped.  An index stands behind. -/
def Wrapper.opening? : Wrapper → Option Token.Kind
  | .immediate => some .hash
  | .loByte => some .less
  | .hiByte => some .greater
  | .indirect => some .parenLeft
  | .indexedX | .indexedY => none

namespace Node.Kind

def isLabel : Kind → Bool
  | .label _ _ _ => true
  | _ => false

def isConst : Kind → Bool
  | .const _ => true
  | _ => false

/-- Whether a node comes from a token of its own. -/
def hasToken : Kind → Bool
  | .data _ _ | .decl _ _ | .label _ _ _ | .name _ | .const _ | .instruction _ _ => true
  | .wrap wrapper _ => !wrapper.isIndex
  | .root _ | .list _ _ | .sum _ _ _ => false

/-- The owned node whose line a node has, if no token of its own gives it one. -/
def leader? : Kind → Option NodeId
  | .list item _ => some item
  | .sum _ left _ => some left
  | .wrap wrapper child => if wrapper.isIndex then some child else none
  | .root _ | .data _ _ | .decl _ _ | .label _ _ _ | .name _ | .const _ | .instruction _ _ => none

/-- A node of the kind may come from `token`, if `next` stands directly behind it. -/
def ComesFrom (k : Kind) (token : Token) (next : Option Token) : Prop :=
  match k with
  | .label text _ _ => token.Declares text ∧
      (token.kind = .label ∨ token.kind = .name ∧ next.map Token.kind = some .colon)
  | .decl text _ => text = token.text ∧ token.kind = .name ∧ next.map Token.kind = some .equals
  | .instruction mnemonic _ => token.kind = .instruction mnemonic
  | .data .byte _ => token.kind = .dataBytes
  | .data .word _ => token.kind = .dataWords
  | .name text => text = token.text ∧ token.kind = .name
  | .const text => text = token.text ∧ token.kind.isConstant = true
  | .wrap wrapper _ => wrapper.opening? = some token.kind
  | .root _ | .list _ _ | .sum _ _ _ => False

/-- One for a label that does not come from a label token. -/
def recovered (k : Kind) (token : Token) : Nat :=
  if k.isLabel = true ∧ token.kind ≠ .label then 1 else 0

/-- What is reported about a node of the kind that comes from `token`. -/
def reports (k : Kind) (token : Token) : List Diagnostic :=
  match k with
  | .instruction mnemonic operand =>
    if mnemonic.operandClass = .memory ∧ operand = none then [.noOperand token] else []
  | .label _ _ _ => if token.kind = .label then [] else [.detachedLabel token]
  | _ => []

variable {k : Kind} {token : Token} {next next' : Option Token}

theorem ComesFrom.hasToken (h : k.ComesFrom token next) : k.hasToken = true := by
  cases k with
  | root => exact h.elim
  | list => exact h.elim
  | sum => exact h.elim
  | wrap wrapper child =>
      cases wrapper with
      | immediate | indirect | loByte | hiByte => rfl
      | indexedX => cases h
      | indexedY => cases h
  | data | decl | label | name | const | instruction => rfl

theorem leader?_of_hasToken (h : k.hasToken = true) : k.leader? = none := by
  cases k with
  | wrap wrapper child =>
      have hindex : wrapper.isIndex = false := by
        rw [Node.Kind.hasToken] at h
        exact Bool.not_eq_true' _ ▸ h
      rw [leader?, hindex]
      rfl
  | root | list | sum => cases h
  | data | decl | label | name | const | instruction => rfl

theorem hasToken_of_isLabel (h : k.isLabel = true) : k.hasToken = true := by
  cases k with
  | label => rfl
  | root | list | data | decl | name | const | wrap | sum | instruction => cases h

/-- More tokens behind do no harm. -/
theorem ComesFrom.of_next (h : k.ComesFrom token next)
    (hnext : ∀ u, next = some u → next' = some u) : k.ComesFrom token next' := by
  have hmap {kind : Token.Kind} (hkind : next.map Token.kind = some kind) :
      next'.map Token.kind = some kind := by
    obtain ⟨u, hu, hkind⟩ := Option.map_eq_some_iff.1 hkind
    rw [hnext u hu]
    exact congrArg some hkind
  cases k with
  | label name child type =>
      obtain ⟨hname, hkind⟩ := h
      refine ⟨hname, ?_⟩
      rcases hkind with hkind | ⟨hkind, hcolon⟩
      · exact .inl hkind
      · exact .inr ⟨hkind, hmap hcolon⟩
  | decl name child => exact ⟨h.1, h.2.1, hmap h.2.2⟩
  | data width => cases width <;> exact h
  | root | list | name | const | wrap | sum | instruction => exact h

/-- Only labels come from label tokens. -/
theorem ComesFrom.isLabel (h : k.ComesFrom token next) (hlabel : token.kind = .label) :
    k.isLabel = true := by
  cases k with
  | label => rfl
  | root => exact h.elim
  | list => exact h.elim
  | sum => exact h.elim
  | data width =>
      cases width with
      | byte => cases hlabel.symm.trans h
      | word => cases hlabel.symm.trans h
  | decl => cases hlabel.symm.trans h.2.1
  | name => cases hlabel.symm.trans h.2
  | const =>
      have hconst := h.2
      rw [hlabel] at hconst
      cases hconst
  | wrap wrapper child =>
      have hopening : wrapper.opening? = some .label := hlabel ▸ h
      cases wrapper <;> cases hopening
  | instruction => cases hlabel.symm.trans h

end Node.Kind

/-! ## Traces -/

/-- What has been read last, as far as it matters for the next token. -/
inductive Behind where
  | plain
  /-- A directive, which takes a numeral along. -/
  | directive
  /-- The name of a declaration or of a label, behind which a mark tells what it is. -/
  | name (mark : Token.Kind)
  /-- A token that was given up. -/
  | lost

/-- Whether something new may start here. -/
def Behind.IsSettled (b : Behind) : Prop := ∀ mark, b ≠ .name mark

/-- Whether a node of the kind may come from the next token. -/
def Behind.Admits (b : Behind) (k : Node.Kind) : Prop :=
  b.IsSettled ∧ (b = .directive → k.isConst = false)

/-- What is behind a token from which a node of the kind comes. -/
def Node.Kind.behind (k : Kind) (token : Token) : Behind :=
  match k with
  | .decl _ _ => .name .equals
  | .label _ _ _ => if token.kind = .label then .plain else .name .colon
  | _ => .plain

/-- Tokens that stand between or behind what has nodes. -/
def Token.Kind.isMark : Kind → Bool
  | .comma | .plus | .minus | .parenRight | .xReg | .yReg => true
  | _ => false

/-- Why a token has no node, what is reported about that, and what is behind it. -/
inductive Passes : Behind → Token → List Diagnostic → Behind → Prop where
  | mark {b : Behind} {token : Token} (hb : b.IsSettled) (hmark : token.kind.isMark = true) :
      Passes b token [] .plain
  /-- The mark that tells what a name is. -/
  | named {token : Token} (hk : token.kind = .equals ∨ token.kind = .colon) :
      Passes (.name token.kind) token [] .plain
  | directive {b : Behind} {token : Token} (hb : b.IsSettled) (hk : token.kind = .directive) :
      Passes b token [] .directive
  | argument {token : Token} (hconst : token.kind.isConstant = true) :
      Passes .directive token [] .plain
  /-- A data marker without data. -/
  | bareMarker {b : Behind} {token : Token} {width : DataWidth} (hb : b.IsSettled)
      (hk : Syntax.markerWidth? token.kind = some width) : Passes b token [.noData token] .plain
  /-- The first token of what is given up. -/
  | skipped {b : Behind} {token : Token} {d : Diagnostic} (hb : b.IsSettled)
      (hlabel : token.kind ≠ .label) (hd : d.isError = true) : Passes b token [d] .lost
  | lost {token : Token} (hlabel : token.kind ≠ .label) : Passes .lost token [] .lost

/-- The nodes `ids` of a tree come from tokens among `ts`, in order; those without a
token of their own stand directly in front of the node whose line they have.  The nodes
come from all label tokens.  What is reported about the tokens is `ds`, in order. -/
inductive Traced (t : Tree) : Behind → List Token → List NodeId → List Diagnostic → Prop where
  | nil {b : Behind} (hb : b.IsSettled) : Traced t b [] [] []
  /-- A token without a node. -/
  | pass {b b' : Behind} {token : Token} {ts : List Token} {ids : List NodeId}
      {ds ds' : List Diagnostic} (hpass : Passes b token ds b') (more : Traced t b' ts ids ds') :
      Traced t b (token :: ts) ids (ds ++ ds')
  /-- A token and its node. -/
  | take {b : Behind} {token : Token} {ts : List Token} {id : NodeId} {ids : List NodeId}
      {ds : List Diagnostic} (hb : b.Admits (t.kind id))
      (hkind : (t.kind id).ComesFrom token ts.head?) (hline : t.line id = token.line)
      (more : Traced t ((t.kind id).behind token) ts ids ds) :
      Traced t b (token :: ts) (id :: ids) ((t.kind id).reports token ++ ds)
  /-- A node without a token. -/
  | lead {b : Behind} {ts : List Token} {id child : NodeId} {ids : List NodeId}
      {ds : List Diagnostic} (hleader : (t.kind id).leader? = some child)
      (hline : t.line id = t.line child) (hhead : ids.head? = some child)
      (more : Traced t b ts ids ds) : Traced t b ts (id :: ids) ds

namespace Behind

theorem isSettled_plain : plain.IsSettled := by
  intro mark h
  cases h

theorem isSettled_directive : directive.IsSettled := by
  intro mark h
  cases h

theorem isSettled_lost : lost.IsSettled := by
  intro mark h
  cases h

theorem admits_plain (k : Node.Kind) : plain.Admits k := by
  refine ⟨isSettled_plain, ?_⟩
  intro h
  cases h

end Behind

theorem Passes.ne_label {b b' : Behind} {token : Token} {ds : List Diagnostic}
    (h : Passes b token ds b') : token.kind ≠ .label := by
  intro hk
  cases h with
  | mark _ hmark =>
      rw [hk] at hmark
      cases hmark
  | named hnamed =>
      rw [hk] at hnamed
      rcases hnamed with hnamed | hnamed
      · cases hnamed
      · cases hnamed
  | directive _ hdirective => cases hk.symm.trans hdirective
  | argument hconst =>
      rw [hk] at hconst
      cases hconst
  | bareMarker _ hmarker =>
      rw [hk] at hmarker
      cases hmarker
  | skipped _ hlabel => exact hlabel hk
  | lost hlabel => exact hlabel hk

/-! ### Recovered labels -/

/-- Whether something is the report of a recovered label. -/
def Diagnostic.isRecovery (d : Diagnostic) : Bool := d.kind == .recoveredLabel

/-- The number of labels that were recovered. -/
def recoveries (ds : List Diagnostic) : Nat := ds.countP fun d => d.kind == .recoveredLabel

theorem recoveries_eq_length (ds : List Diagnostic) :
    recoveries ds = (ds.filter Diagnostic.isRecovery).length := List.countP_eq_length_filter

theorem recoveries_append (ds es : List Diagnostic) :
    recoveries (ds ++ es) = recoveries ds + recoveries es := List.countP_append

/-- Only a label that comes from another token is reported to be recovered. -/
theorem filter_isRecovery_reports (k : Node.Kind) (token : Token) :
    (k.reports token).filter Diagnostic.isRecovery =
      if k.isLabel = true ∧ token.kind ≠ .label then [.detachedLabel token] else [] := by
  cases k with
  | label text child type =>
      by_cases hk : token.kind = .label
      · simp [Node.Kind.reports, hk]
      · simp [Node.Kind.reports, Node.Kind.isLabel, Diagnostic.isRecovery, hk]
  | instruction mnemonic operand =>
      rw [Node.Kind.reports]
      split
      · rfl
      · rfl
  | root | list | data | decl | name | const | wrap | sum => rfl

theorem recoveries_reports (k : Node.Kind) (token : Token) :
    recoveries (k.reports token) = k.recovered token := by
  rw [recoveries_eq_length, filter_isRecovery_reports, Node.Kind.recovered]
  split
  · rfl
  · rfl

/-- A token without a node is not reported to be a recovered label. -/
theorem Passes.filter_isRecovery {b b' : Behind} {token : Token} {ds : List Diagnostic}
    (h : Passes b token ds b') : ds.filter Diagnostic.isRecovery = [] := by
  cases h with
  | @skipped _ _ d _ _ hd =>
      have hne : d.kind ≠ .recoveredLabel := by
        intro hk
        simp [Diagnostic.isError, Diagnostic.severity, hk, Diagnostic.Kind.severity] at hd
      simp [Diagnostic.isRecovery, hne]
  | mark | named | directive | argument | bareMarker | lost => rfl

theorem Passes.recoveries_eq {b b' : Behind} {token : Token} {ds : List Diagnostic}
    (h : Passes b token ds b') : recoveries ds = 0 := by
  rw [recoveries_eq_length, h.filter_isRecovery]
  rfl

namespace Traced

variable {t : Tree} {b : Behind} {ts us : List Token} {id child : NodeId}
  {ids ids' : List NodeId} {ds ds' : List Diagnostic}

theorem append (h : Traced t b ts ids ds)
    (h' : ∀ b : Behind, b.IsSettled → Traced t b us ids' ds') :
    Traced t b (ts ++ us) (ids ++ ids') (ds ++ ds') := by
  induction h with
  | nil hb => exact h' _ hb
  | pass hpass _ ih =>
      rw [List.append_assoc]
      exact .pass hpass ih
  | take hb hkind hline _ ih =>
      rw [List.cons_append, List.cons_append, List.append_assoc]
      refine .take hb (hkind.of_next ?_) hline ih
      intro u hu
      rw [List.head?_append, hu]
      rfl
  | lead hleader hline hhead _ ih =>
      rw [List.cons_append]
      refine .lead hleader hline ?_ ih
      rw [List.head?_append, hhead]
      rfl

/-- A token without a node or a report, alone. -/
theorem of_passes {b' : Behind} {token : Token} (h : Passes b token [] b') (hb' : b'.IsSettled) :
    Traced t b [token] [] [] := .pass h (.nil hb')

theorem of_isMark {token : Token} (hmark : token.kind.isMark = true) (b : Behind)
    (hb : b.IsSettled) : Traced t b [token] [] [] :=
  of_passes (.mark hb hmark) Behind.isSettled_plain

/-- What is given up, with a report for all of it. -/
theorem of_interior {token : Token} {d : Diagnostic} (h : Parser.Interior (token :: ts))
    (hd : d.isError = true) (b : Behind) (hb : b.IsSettled) :
    Traced t b (token :: ts) [] [d] := by
  have hlost (us : List Token) (hus : ∀ u ∈ us, u.kind ≠ .label) : Traced t .lost us [] [] := by
    induction us with
    | nil => exact .nil Behind.isSettled_lost
    | cons u us ih =>
        refine .pass (.lost (hus u List.mem_cons_self)) (ih ?_)
        intro v hv
        exact hus v (List.mem_cons_of_mem _ hv)
  refine .pass (.skipped hb (h token List.mem_cons_self).2 hd) (hlost ts ?_)
  intro u hu
  exact (h u (List.mem_cons_of_mem _ hu)).2

/-! ### What a trace says -/

/-- A node without a token has the line of the node that leads. -/
theorem line_eq (h : Traced t b ts ids ds) :
    ∀ id ∈ ids, ∀ child, (t.kind id).leader? = some child → t.line id = t.line child := by
  induction h with
  | nil =>
      intro id hid
      cases hid
  | pass _ _ ih => exact ih
  | take _ hkind _ _ ih =>
      intro id hid child hchild
      rcases List.mem_cons.1 hid with rfl | hid
      · rw [Node.Kind.leader?_of_hasToken hkind.hasToken] at hchild
        cases hchild
      · exact ih id hid child hchild
  | lead hleader hline _ _ ih =>
      intro id hid child hchild
      rcases List.mem_cons.1 hid with rfl | hid
      · rw [hleader] at hchild
        cases hchild
        exact hline
      · exact ih id hid child hchild

theorem exists_line_eq (h : Traced t b ts ids ds) :
    ∀ id ∈ ids, ∃ token ∈ ts, t.line id = token.line := by
  induction h with
  | nil =>
      intro id hid
      cases hid
  | pass _ _ ih =>
      intro id hid
      obtain ⟨token, htoken, hline⟩ := ih id hid
      exact ⟨token, List.mem_cons_of_mem _ htoken, hline⟩
  | take _ _ hline _ ih =>
      intro id hid
      rcases List.mem_cons.1 hid with rfl | hid
      · exact ⟨_, List.mem_cons_self, hline⟩
      · obtain ⟨token, htoken, hline⟩ := ih id hid
        exact ⟨token, List.mem_cons_of_mem _ htoken, hline⟩
  | lead _ hline hhead _ ih =>
      intro id hid
      rcases List.mem_cons.1 hid with rfl | hid
      · rw [hline]
        exact ih _ (List.mem_of_mem_head? hhead)
      · exact ih id hid

/-- Nodes come in the order of lines if the tokens do. -/
theorem pairwise_line (h : Traced t b ts ids ds) (hts : ts.Pairwise fun a b => a.line ≤ b.line) :
    (ids.map t.line).Pairwise (· ≤ ·) := by
  induction h with
  | nil => exact .nil
  | pass _ _ ih => exact ih (List.pairwise_cons.1 hts).2
  | take _ _ hline more ih =>
      obtain ⟨hfirst, hrest⟩ := List.pairwise_cons.1 hts
      refine List.pairwise_cons.2 ⟨?_, ih hrest⟩
      intro l hl
      obtain ⟨id', hid', rfl⟩ := List.mem_map.1 hl
      obtain ⟨u, hu, hline'⟩ := more.exists_line_eq id' hid'
      rw [hline, hline']
      exact hfirst u hu
  | @lead b ts id child ids ds _ hline hhead _ ih =>
      have hsorted := ih hts
      obtain ⟨ids', rfl⟩ : ∃ ids', ids = child :: ids' := by
        cases ids with
        | nil => cases hhead
        | cons child' ids' =>
            cases hhead
            exact ⟨ids', rfl⟩
      rw [List.map_cons] at hsorted ⊢
      refine List.pairwise_cons.2 ⟨?_, hsorted⟩
      intro l hl
      rw [hline]
      rcases List.mem_cons.1 hl with rfl | hl
      · exact Nat.le_refl _
      · exact (List.pairwise_cons.1 hsorted).1 l hl

end Traced

/-! ## Places -/

/-- Node `id` comes from the token at `place`, and has its line. -/
def StandsAt (t : Tree) (ts : List Token) (id : NodeId) (place : Nat) : Prop :=
  ∃ token, ts[place]? = some token ∧ (t.kind id).ComesFrom token ts[place + 1]? ∧
    t.line id = token.line

theorem StandsAt.lt_length {t : Tree} {ts : List Token} {id place : Nat}
    (h : StandsAt t ts id place) : place < ts.length := by
  obtain ⟨token, htoken, _⟩ := h
  exact (List.getElem?_eq_some_iff.1 htoken).1

/-- What it says about a label. -/
theorem StandsAt.of_isLabel {t : Tree} {ts : List Token} {id place : Nat}
    (h : StandsAt t ts id place) (hlabel : (t.kind id).isLabel = true) :
    ∃ token name child type, ts[place]? = some token ∧ token.Declares name ∧
      t.node id = ⟨.label name child type, token.line⟩ ∧
      (token.kind = .label ∨ token.kind = .name ∧ ts[place + 1]?.map Token.kind = some .colon) := by
  obtain ⟨token, htoken, hkind, hline⟩ := h
  have hnode : t.node id = ⟨t.kind id, t.line id⟩ := rfl
  cases hk : t.kind id with
  | label text child type =>
      rw [hk] at hkind hnode
      obtain ⟨hname, hfrom⟩ := hkind
      rw [hline] at hnode
      exact ⟨token, text, child, type, htoken, hname, hnode, hfrom⟩
  | root | list | data | decl | name | const | wrap | sum | instruction =>
      rw [hk] at hlabel
      cases hlabel

/-- Whether the token at `place` is a label. -/
def labelAt (ts : List Token) (place : Nat) : Bool := ts[place]?.map Token.kind == some .label

/-- The nodes of the kinds to `keep` among `ids` come from the tokens at `places`; `n` of
them are labels that come from other tokens. -/
structure Placed (t : Tree) (keep : Node.Kind → Bool) (ts : List Token) (ids : List NodeId)
    (n : Nat) (places : List Nat) : Prop where
  increasing : places.Pairwise (· < ·)
  stands : List.Forall₂ (StandsAt t ts) (ids.filter fun id => keep (t.kind id)) places
  labels : ∀ place, labelAt ts place = true → place ∈ places
  others : (∀ k, keep k = true → k.isLabel = true) →
    places.countP (fun place => !labelAt ts place) = n

namespace Placed

variable {t : Tree} {keep : Node.Kind → Bool} {ts : List Token} {ids : List NodeId} {n : Nat}
  {places : List Nat} {token : Token} {id : NodeId}

theorem countP_map_succ (token : Token) (ts : List Token) (places : List Nat) :
    (places.map (· + 1)).countP (fun place => !labelAt (token :: ts) place) =
      places.countP fun place => !labelAt ts place := by
  rw [List.countP_map]
  rfl

theorem stands_succ (h : List.Forall₂ (StandsAt t ts) ids places) :
    List.Forall₂ (StandsAt t (token :: ts)) ids (places.map (· + 1)) := by
  rw [List.forall₂_map_right_iff]
  exact h

theorem pairwise_succ (h : places.Pairwise (· < ·)) :
    (places.map (· + 1)).Pairwise (· < ·) :=
  List.pairwise_map.2 (h.imp fun hlt => Nat.succ_lt_succ hlt)

theorem lt_length (h : Placed t keep ts ids n places) : ∀ place ∈ places, place < ts.length := by
  have hflip : List.Forall₂ (fun place id => StandsAt t ts id place) places _ := h.stands.flip
  have hboth := (List.forall₂_and_left (p := fun place => place < ts.length) ..).1
    (hflip.imp fun _ _ hstands => ⟨hstands.lt_length, hstands⟩)
  exact hboth.1

/-- Each node that is kept has a place. -/
theorem exists_place (h : Placed t keep ts ids n places) :
    ∀ id ∈ ids, keep (t.kind id) = true → ∃ place, StandsAt t ts id place := by
  have hboth := (List.forall₂_and_left (p := fun id => ∃ place, StandsAt t ts id place) ..).1
    (h.stands.imp fun _ place hstands => ⟨⟨place, hstands⟩, hstands⟩)
  intro id hid hkeep
  exact hboth.1 id (List.mem_filter.2 ⟨hid, hkeep⟩)

theorem nil : Placed t keep [] [] 0 [] where
  increasing := .nil
  stands := .nil
  labels := by
    intro place hplace
    cases hplace
  others _ := rfl

/-- A token without a node that is kept. -/
theorem pass (h : Placed t keep ts ids n places) (hlabel : token.kind ≠ .label) :
    Placed t keep (token :: ts) ids n (places.map (· + 1)) where
  increasing := pairwise_succ h.increasing
  stands := stands_succ h.stands
  labels := by
    intro place hplace
    cases place with
    | zero =>
        have hkind : token.kind = .label := Option.some.inj (eq_of_beq hplace)
        exact absurd hkind hlabel
    | succ place => exact List.mem_map.2 ⟨place, h.labels place hplace, rfl⟩
  others := by
    intro hkeep
    rw [countP_map_succ]
    exact h.others hkeep

/-- A node that is not kept. -/
theorem cons_of_not_keep (h : Placed t keep ts ids n places) (hkeep : keep (t.kind id) = false) :
    Placed t keep ts (id :: ids) n places where
  increasing := h.increasing
  stands := by
    rw [List.filter_cons_of_neg (by rw [hkeep]; exact Bool.false_ne_true)]
    exact h.stands
  labels := h.labels
  others := h.others

/-- A token and its node, which is kept. -/
theorem take (h : Placed t keep ts ids n places) (hkeep : keep (t.kind id) = true)
    (hkind : (t.kind id).ComesFrom token ts.head?) (hline : t.line id = token.line) :
    Placed t keep (token :: ts) (id :: ids) ((t.kind id).recovered token + n)
      (0 :: places.map (· + 1)) where
  increasing := by
    refine List.pairwise_cons.2 ⟨?_, pairwise_succ h.increasing⟩
    intro place hplace
    obtain ⟨place, _, rfl⟩ := List.mem_map.1 hplace
    exact Nat.succ_pos _
  stands := by
    rw [List.filter_cons_of_pos (p := fun id => keep (t.kind id)) hkeep]
    refine .cons ⟨token, rfl, ?_, hline⟩ (stands_succ h.stands)
    rw [List.head?_eq_getElem?] at hkind
    exact hkind
  labels := by
    intro place hplace
    cases place with
    | zero => exact List.mem_cons_self
    | succ place =>
        exact List.mem_cons_of_mem _ (List.mem_map.2 ⟨place, h.labels place hplace, rfl⟩)
  others := by
    intro hlabel
    rw [List.countP_cons, countP_map_succ, h.others hlabel, Nat.add_comm]
    refine congrArg (· + n) ?_
    have hzero : labelAt (token :: ts) 0 = decide (token.kind = .label) := rfl
    rw [Node.Kind.recovered, hzero]
    by_cases hk : token.kind = .label
    · simp [hk]
    · simp [hk, hlabel _ hkeep]

end Placed

/-! ### What is reported to be recovered -/

/-- The nodes of the kinds to `keep` among `ids`, with their places. -/
abbrev placements (t : Tree) (keep : Node.Kind → Bool) (ids : List NodeId) (places : List Nat) :
    List (NodeId × Nat) :=
  (ids.filter fun id => keep (t.kind id)).zip places

/-- What is reported to be a recovered label is one, and comes from the token that is
reported; and a label that comes from no label token is reported. -/
structure Recovers (t : Tree) (keep : Node.Kind → Bool) (ts : List Token) (ids : List NodeId)
    (places : List Nat) (ds : List Diagnostic) : Prop where
  isLabel : ∀ d ∈ ds.filter Diagnostic.isRecovery, ∃ id place token,
    (id, place) ∈ placements t keep ids places ∧ (t.kind id).isLabel = true ∧
      ts[place]? = some token ∧ d = .detachedLabel token
  reported : ∀ id place token, (id, place) ∈ placements t keep ids places →
    (t.kind id).isLabel = true → ts[place]? = some token → token.kind ≠ .label →
      .detachedLabel token ∈ ds

namespace Recovers

variable {t : Tree} {keep : Node.Kind → Bool} {ts : List Token} {ids : List NodeId}
  {places : List Nat} {ds ds' : List Diagnostic} {id : NodeId}

theorem nil : Recovers t keep [] [] [] [] where
  isLabel := by
    intro d hd
    cases hd
  reported := by
    intro id place token hpair
    cases hpair

/-- Other reports play no part. -/
theorem append (h : Recovers t keep ts ids places ds')
    (hds : ds.filter Diagnostic.isRecovery = []) :
    Recovers t keep ts ids places (ds ++ ds') where
  isLabel := by
    rw [List.filter_append, hds, List.nil_append]
    exact h.isLabel
  reported := by
    intro id place token hpair hlabel htoken hother
    exact List.mem_append_right _ (h.reported id place token hpair hlabel htoken hother)

theorem pass (h : Recovers t keep ts ids places ds) (token : Token) :
    Recovers t keep (token :: ts) ids (places.map (· + 1)) ds where
  isLabel := by
    intro d hd
    obtain ⟨id, place, token', hpair, hlabel, htoken, rfl⟩ := h.isLabel d hd
    refine ⟨id, place + 1, token', ?_, hlabel, htoken, rfl⟩
    rw [placements, List.zip_map_right]
    exact List.mem_map.2 ⟨(id, place), hpair, rfl⟩
  reported := by
    intro id place token' hpair hlabel htoken hother
    rw [placements, List.zip_map_right] at hpair
    obtain ⟨⟨id', place'⟩, hmem, heq⟩ := List.mem_map.1 hpair
    cases heq
    exact h.reported id' place' token' hmem hlabel htoken hother

theorem cons_of_not_keep (h : Recovers t keep ts ids places ds)
    (hkeep : keep (t.kind id) = false) : Recovers t keep ts (id :: ids) places ds := by
  have hsame : placements t keep (id :: ids) places = placements t keep ids places := by
    rw [placements, List.filter_cons_of_neg (by rw [hkeep]; exact Bool.false_ne_true)]
  constructor
  · rw [hsame]
    exact h.isLabel
  · rw [hsame]
    exact h.reported

theorem take (h : Recovers t keep ts ids places ds) (hkeep : keep (t.kind id) = true)
    (token : Token) :
    Recovers t keep (token :: ts) (id :: ids) (0 :: places.map (· + 1))
      ((t.kind id).reports token ++ ds) := by
  have hall : placements t keep (id :: ids) (0 :: places.map (· + 1)) =
      (id, 0) :: placements t keep ids (places.map (· + 1)) := by
    rw [placements, List.filter_cons_of_pos (p := fun id => keep (t.kind id)) hkeep,
      List.zip_cons_cons]
  have hreports := filter_isRecovery_reports (t.kind id) token
  constructor
  · rw [hall]
    intro d hd
    rw [List.filter_append, hreports] at hd
    rcases List.mem_append.1 hd with hd | hd
    · split at hd
      next hlabel =>
        exact ⟨id, 0, token, List.mem_cons_self, hlabel.1, rfl, List.mem_singleton.1 hd⟩
      next => cases hd
    · obtain ⟨id', place, token', hpair, hlabel, htoken, hd⟩ := (h.pass token).isLabel d hd
      exact ⟨id', place, token', List.mem_cons_of_mem _ hpair, hlabel, htoken, hd⟩
  · rw [hall]
    intro id' place token' hpair hlabel htoken hother
    rcases List.mem_cons.1 hpair with heq | hpair
    · cases heq
      cases htoken
      rw [if_pos ⟨hlabel, hother⟩] at hreports
      exact List.mem_append_left _ (List.mem_of_mem_filter (hreports ▸ List.mem_cons_self))
    · exact List.mem_append_right _
        ((h.pass token).reported id' place token' hpair hlabel htoken hother)

end Recovers

/-- The nodes of a trace have places, and the recovered labels are those that are reported.
Which nodes are kept is free, as long as labels are among them and all of them come from
tokens. -/
theorem Traced.exists_recovers {t : Tree} (keep : Node.Kind → Bool) {b : Behind}
    {ts : List Token} {ids : List NodeId} {ds : List Diagnostic} (h : Traced t b ts ids ds)
    (hkeep : ∀ k, keep k = true → k.hasToken = true)
    (hlabels : ∀ k, k.isLabel = true → keep k = true) :
    ∃ places, Placed t keep ts ids (recoveries ds) places ∧
      Recovers t keep ts ids places ds := by
  induction h with
  | nil => exact ⟨[], .nil, .nil⟩
  | @pass b b' token ts ids ds ds' hpass _ ih =>
      obtain ⟨places, hplaces, hrecovers⟩ := ih
      rw [recoveries_append, hpass.recoveries_eq, Nat.zero_add]
      exact ⟨_, hplaces.pass hpass.ne_label,
        (hrecovers.pass token).append hpass.filter_isRecovery⟩
  | @take b token ts id ids ds _ hkind hline _ ih =>
      obtain ⟨places, hplaces, hrecovers⟩ := ih
      rw [recoveries_append, recoveries_reports]
      cases hid : keep (t.kind id) with
      | true => exact ⟨_, hplaces.take hid hkind hline, hrecovers.take hid token⟩
      | false =>
          have hother : (t.kind id).isLabel = false := by
            rw [Bool.eq_false_iff]
            intro h
            rw [hlabels _ h] at hid
            cases hid
          have htoken : token.kind ≠ .label := by
            intro h
            rw [hkind.isLabel h] at hother
            cases hother
          have hplain : (t.kind id).recovered token = 0 := by
            rw [Node.Kind.recovered, hother]
            rfl
          have hnone : ((t.kind id).reports token).filter Diagnostic.isRecovery = [] := by
            rw [filter_isRecovery_reports, hother]
            rfl
          rw [hplain, Nat.zero_add]
          exact ⟨_, (hplaces.pass htoken).cons_of_not_keep hid,
            ((hrecovers.pass token).cons_of_not_keep hid).append hnone⟩
  | @lead b ts id child ids ds hleader _ _ _ ih =>
      obtain ⟨places, hplaces, hrecovers⟩ := ih
      have hid : keep (t.kind id) = false := by
        rw [Bool.eq_false_iff]
        intro h
        rw [Node.Kind.leader?_of_hasToken (hkeep _ h)] at hleader
        cases hleader
      exact ⟨places, hplaces.cons_of_not_keep hid, hrecovers.cons_of_not_keep hid⟩

theorem Traced.exists_placed {t : Tree} (keep : Node.Kind → Bool) {b : Behind} {ts : List Token}
    {ids : List NodeId} {ds : List Diagnostic} (h : Traced t b ts ids ds)
    (hkeep : ∀ k, keep k = true → k.hasToken = true)
    (hlabels : ∀ k, k.isLabel = true → keep k = true) :
    ∃ places, Placed t keep ts ids (recoveries ds) places := by
  obtain ⟨places, hplaces, _⟩ := h.exists_recovers keep hkeep hlabels
  exact ⟨places, hplaces⟩

/-- Recovered labels are reported in order, once for each token at most. -/
theorem Traced.sublist_recovered {t : Tree} {b : Behind} {ts : List Token} {ids : List NodeId}
    {ds : List Diagnostic} (h : Traced t b ts ids ds) :
    List.Sublist (ds.filter Diagnostic.isRecovery) (ts.map .detachedLabel) := by
  induction h with
  | nil => exact List.Sublist.refl _
  | pass hpass _ ih =>
      rw [List.filter_append, hpass.filter_isRecovery, List.nil_append]
      exact ih.cons _
  | @take b token ts id ids ds _ _ _ _ ih =>
      rw [List.filter_append, filter_isRecovery_reports]
      split
      · exact ih.cons_cons _
      · exact ih.cons _
  | lead _ _ _ _ ih => exact ih

end Asm6502
