import Asm6502.Proofs.Parsing.Provenance
import Mathlib.Data.List.Sort

/-!
# Nothing is lost without an error

A token may have no node for three reasons: it only stands between others, it goes with a
directive, or it was given up, and then an error was reported.  So if all that was
reported are warnings, every mnemonic, name and numeral is found again in the tree, save
the numerals that directives take along, and each data marker is found too or there is a
warning that it has no data.

Such a trace is clean.  Its nodes have places like those of any trace (see
`Traced.exists_placed`); what is new is which places they have.

## Main results

* `Traced.exists_covering` — the places of the nodes of a clean trace.
* `Traced.countP_equals`, `Traced.countP_marker` — declarations and data, counted.
* `program_complete` — what a program without errors has in its tree.
-/

namespace Asm6502

/-! ## Kinds of tokens and kinds of nodes -/

namespace Token.Kind

def isInstruction : Kind → Bool
  | .instruction _ => true
  | _ => false

/-- The two data markers. -/
def isMarker : Kind → Bool
  | .dataBytes | .dataWords => true
  | _ => false

/-- The kinds of tokens that nodes come from, save the data markers, which may lack data. -/
def isCode : Kind → Bool
  | .label | .name | .instruction _ | .hexConst | .binConst | .decConst | .hash | .less | .greater
  | .parenLeft => true
  | _ => false

end Token.Kind

namespace Node.Kind

def isInstruction : Kind → Bool
  | .instruction _ _ => true
  | _ => false

def isData : Kind → Bool
  | .data _ _ => true
  | _ => false

def isDecl : Kind → Bool
  | .decl _ _ => true
  | _ => false

def isName : Kind → Bool
  | .name _ => true
  | _ => false

/-- An instruction that addresses memory, without an operand. -/
def lacksOperand : Kind → Bool
  | .instruction mnemonic none => mnemonic.operandClass == .memory
  | _ => false

/-- A kind of tokens and a kind of nodes that belong to the same classes. -/
structure Akin (kind : Token.Kind) (k : Kind) : Prop where
  instruction : kind.isInstruction = k.isInstruction
  marker : kind.isMarker = k.isData
  constant : kind.isConstant = k.isConst
  named : (kind == .name) = (k.isDecl || k.isName || k.isLabel && kind != .label)
  ne_equals : kind ≠ .equals
  ne_directive : kind ≠ .directive

/-- Nodes belong to the classes of the tokens from which they come. -/
theorem ComesFrom.akin {k : Kind} {token : Token} {next : Option Token}
    (h : k.ComesFrom token next) : Akin token.kind k := by
  cases k with
  | root => exact h.elim
  | list => exact h.elim
  | sum => exact h.elim
  | data width =>
      cases width with
      | byte | word =>
          have hk : token.kind = _ := h
          rw [hk]
          exact ⟨rfl, rfl, rfl, rfl, nofun, nofun⟩
  | decl =>
      rw [h.2.1]
      exact ⟨rfl, rfl, rfl, rfl, nofun, nofun⟩
  | label =>
      rcases h.2 with hk | ⟨hk, _⟩
      · rw [hk]
        exact ⟨rfl, rfl, rfl, rfl, nofun, nofun⟩
      · rw [hk]
        exact ⟨rfl, rfl, rfl, rfl, nofun, nofun⟩
  | name =>
      rw [h.2]
      exact ⟨rfl, rfl, rfl, rfl, nofun, nofun⟩
  | const =>
      have hconst := h.2
      generalize token.kind = kind at hconst
      cases kind with
      | hexConst | binConst | decConst => exact ⟨rfl, rfl, rfl, rfl, nofun, nofun⟩
      | _ => cases hconst
  | wrap wrapper child =>
      have hopening : wrapper.opening? = some token.kind := h
      generalize token.kind = kind at hopening
      cases wrapper with
      | immediate | indirect | loByte | hiByte =>
          cases hopening
          exact ⟨rfl, rfl, rfl, rfl, nofun, nofun⟩
      | indexedX | indexedY => cases hopening
  | instruction =>
      have hk : token.kind = _ := h
      rw [hk]
      exact ⟨rfl, rfl, rfl, rfl, nofun, nofun⟩

end Node.Kind

/-- The classes of nodes that come from tokens of their own. -/
theorem Node.Kind.hasToken_of_class {k : Node.Kind}
    (h : k.isInstruction = true ∨ k.isData = true ∨ k.isConst = true ∨ k.isDecl = true ∨
      k.isName = true ∨ k.isLabel = true) : k.hasToken = true := by
  cases k with
  | data | decl | label | name | const | instruction => rfl
  | root | list | wrap | sum => simp [isInstruction, isData, isConst, isDecl, isName, isLabel] at h

/-! ## Clean traces -/

/-- All that was reported are warnings. -/
def Clean (ds : List Diagnostic) : Prop := ∀ d ∈ ds, d.isError = false

/-- The number of missing operands and missing data. -/
def missing (ds : List Diagnostic) : Nat := ds.countP fun d => d.kind == .missingOperand

theorem missing_append (ds es : List Diagnostic) :
    missing (ds ++ es) = missing ds + missing es := List.countP_append

theorem missing_reports (k : Node.Kind) (token : Token) :
    missing (k.reports token) = if k.lacksOperand = true then 1 else 0 := by
  cases k with
  | instruction mnemonic operand =>
      cases operand with
      | none =>
          by_cases hclass : mnemonic.operandClass = .memory
          · simp [Node.Kind.reports, Node.Kind.lacksOperand, missing, hclass]
          · simp [Node.Kind.reports, Node.Kind.lacksOperand, missing, hclass]
      | some id => simp [Node.Kind.reports, Node.Kind.lacksOperand, missing]
  | label =>
      by_cases hk : token.kind = .label
      · simp [Node.Kind.reports, Node.Kind.lacksOperand, missing, hk]
      · simp [Node.Kind.reports, Node.Kind.lacksOperand, missing, hk]
  | root | list | data | decl | name | const | wrap | sum => rfl

/-- Whether an equals sign has to come next. -/
def Behind.isDeclared : Behind → Bool
  | .name .equals => true
  | _ => false

theorem Behind.IsSettled.isDeclared {b : Behind} (h : b.IsSettled) : b.isDeclared = false := by
  cases b with
  | name mark => exact absurd rfl (h mark)
  | plain | directive | lost => rfl

/-- What a token without a node can be if no error was reported, and what it counts for. -/
structure CleanPass (b : Behind) (token : Token) (ds : List Diagnostic) (b' : Behind) : Prop where
  ne_lost : b' ≠ .lost
  directive : b' = .directive ↔ token.kind = .directive
  code : token.kind.isCode = true → token.kind.isConstant = true ∧ b = .directive
  equals : (token.kind == .equals) = b.isDeclared ∧ b'.isDeclared = false
  marker : missing ds = if token.kind.isMarker = true then 1 else 0

/-- A mark needs no node. -/
theorem Token.Kind.of_isMark {kind : Token.Kind} (h : kind.isMark = true) :
    kind ≠ .directive ∧ kind ≠ .equals ∧ kind.isCode = false ∧ kind.isMarker = false := by
  cases kind with
  | comma | plus | minus | parenRight | xReg | yReg => exact ⟨nofun, nofun, rfl, rfl⟩
  | _ => cases h

theorem Token.Kind.of_isConstant {kind : Token.Kind} (h : kind.isConstant = true) :
    kind ≠ .directive ∧ kind ≠ .equals ∧ kind.isMarker = false := by
  cases kind with
  | hexConst | binConst | decConst => exact ⟨nofun, nofun, rfl⟩
  | _ => cases h

/-- A token that is no code, be it a directive or not. -/
theorem CleanPass.of_kind {b b' : Behind} {token : Token} {ds : List Diagnostic} {k : Token.Kind}
    (hk : token.kind = k) (hcode : k.isCode = false)
    (hbehind : b' = .plain ∧ k ≠ .directive ∨ b' = .directive ∧ k = .directive)
    (hequals : (k == .equals) = b.isDeclared)
    (hmarker : missing ds = if k.isMarker = true then 1 else 0) : CleanPass b token ds b' := by
  subst hk
  refine ⟨?_, ?_, ?_, ⟨hequals, ?_⟩, hmarker⟩
  · rcases hbehind with ⟨rfl, _⟩ | ⟨rfl, _⟩
    · nofun
    · nofun
  · rcases hbehind with ⟨rfl, hk⟩ | ⟨rfl, hk⟩
    · exact iff_of_false nofun hk
    · exact iff_of_true rfl hk
  · intro h
    rw [hcode] at h
    cases h
  · rcases hbehind with ⟨rfl, _⟩ | ⟨rfl, _⟩
    · rfl
    · rfl

theorem Passes.clean {b b' : Behind} {token : Token} {ds : List Diagnostic}
    (h : Passes b token ds b') (hb : b ≠ .lost) (hds : Clean ds) : CleanPass b token ds b' := by
  cases h with
  | mark hb hmark =>
      obtain ⟨hdirective, hequals, hcode, hmarker⟩ := Token.Kind.of_isMark hmark
      refine .of_kind rfl hcode (.inl ⟨rfl, hdirective⟩) ?_ ?_
      · rw [beq_false_of_ne hequals, hb.isDeclared]
      · rw [hmarker]
        rfl
  | named hk =>
      rcases hk with hk | hk
      · refine .of_kind hk rfl (.inl ⟨rfl, nofun⟩) ?_ rfl
        rw [hk]
        rfl
      · refine .of_kind hk rfl (.inl ⟨rfl, nofun⟩) ?_ rfl
        rw [hk]
        rfl
  | directive hb hk => exact .of_kind hk rfl (.inr ⟨rfl, rfl⟩) hb.isDeclared.symm rfl
  | argument hconst =>
      obtain ⟨hdirective, hequals, hmarker⟩ := Token.Kind.of_isConstant hconst
      refine ⟨nofun, iff_of_false nofun hdirective, fun _ => ⟨hconst, rfl⟩,
        ⟨beq_false_of_ne hequals, rfl⟩, ?_⟩
      rw [hmarker]
      rfl
  | bareMarker hb hk =>
      have hmarker : token.kind = .dataBytes ∨ token.kind = .dataWords := by
        unfold Syntax.markerWidth? at hk
        split at hk
        next hbytes => exact .inl hbytes
        next hwords => exact .inr hwords
        next => cases hk
      rcases hmarker with hk | hk
      · exact .of_kind hk rfl (.inl ⟨rfl, nofun⟩) hb.isDeclared.symm rfl
      · exact .of_kind hk rfl (.inl ⟨rfl, nofun⟩) hb.isDeclared.symm rfl
  | skipped _ _ hd =>
      rw [hds _ List.mem_cons_self] at hd
      cases hd
  | lost => exact absurd rfl hb

/-! ## Counting -/

namespace Traced

variable {t : Tree} {b : Behind} {ts : List Token} {ids : List NodeId} {ds : List Diagnostic}

/-- What can stand behind the token of a node. -/
theorem behind_ne (k : Node.Kind) (token : Token) :
    k.behind token ≠ .lost ∧ k.behind token ≠ .directive ∧
      (k.behind token).isDeclared = k.isDecl := by
  cases k with
  | label =>
      rw [Node.Kind.behind]
      split
      · exact ⟨nofun, nofun, rfl⟩
      · exact ⟨nofun, nofun, rfl⟩
  | root | list | data | decl | name | const | wrap | sum | instruction =>
      exact ⟨nofun, nofun, rfl⟩

theorem not_isDecl_of_leader? {k : Node.Kind} {child : NodeId} (h : k.leader? = some child) :
    k.isDecl = false ∧ k.isData = false ∧ k.lacksOperand = false := by
  cases k with
  | list | sum | wrap => exact ⟨rfl, rfl, rfl⟩
  | root | data | decl | label | name | const | instruction => cases h

/-- An equals sign makes a declaration, and a declaration has one. -/
theorem countP_equals (h : Traced t b ts ids ds) (hb : b ≠ .lost) (hds : Clean ds) :
    (ts.countP fun token => token.kind == .equals) =
      (ids.countP fun id => (t.kind id).isDecl) + if b.isDeclared = true then 1 else 0 := by
  induction h with
  | nil hsettled =>
      rw [hsettled.isDeclared]
      rfl
  | pass hpass _ ih =>
      have hclean := hpass.clean hb fun d hd => hds d (List.mem_append_left _ hd)
      have hmore := ih hclean.ne_lost fun d hd => hds d (List.mem_append_right _ hd)
      rw [hclean.equals.2] at hmore
      rw [List.countP_cons, hmore, hclean.equals.1, if_neg Bool.false_ne_true, Nat.add_zero]
  | take hadmits hkind _ _ ih =>
      obtain ⟨hlost, _, hdeclared⟩ := behind_ne (t.kind _) _
      have hmore := ih hlost fun d hd => hds d (List.mem_append_right _ hd)
      rw [hdeclared] at hmore
      rw [List.countP_cons, List.countP_cons, hmore, hadmits.1.isDeclared,
        beq_false_of_ne hkind.akin.ne_equals, if_neg Bool.false_ne_true]
  | lead hleader _ _ _ ih =>
      rw [List.countP_cons, ih hb hds, (not_isDecl_of_leader? hleader).1,
        if_neg Bool.false_ne_true, Nat.add_zero]

/-- A data marker makes a node, or its data is missing; and so may be an operand. -/
theorem countP_marker (h : Traced t b ts ids ds) (hb : b ≠ .lost) (hds : Clean ds) :
    (ts.countP fun token => token.kind.isMarker) + (ids.countP fun id => (t.kind id).lacksOperand) =
      (ids.countP fun id => (t.kind id).isData) + missing ds := by
  induction h with
  | nil => rfl
  | pass hpass _ ih =>
      have hclean := hpass.clean hb fun d hd => hds d (List.mem_append_left _ hd)
      have hmore := ih hclean.ne_lost fun d hd => hds d (List.mem_append_right _ hd)
      rw [List.countP_cons, missing_append, hclean.marker]
      omega
  | take _ hkind _ _ ih =>
      have hmore := ih (behind_ne _ _).1 fun d hd => hds d (List.mem_append_right _ hd)
      rw [List.countP_cons, List.countP_cons, List.countP_cons, missing_append, missing_reports,
        hkind.akin.marker]
      omega
  | lead hleader _ _ _ ih =>
      obtain ⟨_, hdata, hlacks⟩ := not_isDecl_of_leader? hleader
      rw [List.countP_cons, List.countP_cons, hdata, hlacks]
      exact ih hb hds

end Traced

/-! ## Which places nodes have -/

/-- Whether the token at `place` is of a kind with `p`. -/
def kindAt (ts : List Token) (p : Token.Kind → Bool) (place : Nat) : Bool :=
  ts[place]?.any fun token => p token.kind

/-- Whether the token at `place` is a numeral directly behind a directive; `front` says
whether there is one in front of the first token. -/
def argumentAt (front : Bool) (ts : List Token) (place : Nat) : Bool :=
  kindAt ts Token.Kind.isConstant place &&
    match place with
    | 0 => front
    | place + 1 => kindAt ts (· == .directive) place

theorem argumentAt_cons_succ (front : Bool) (token : Token) (ts : List Token) (place : Nat) :
    argumentAt front (token :: ts) (place + 1) =
      argumentAt (token.kind == .directive) ts place := by
  cases place <;> rfl

/-- The nodes at these places are those of all the code. -/
structure Covering (front : Bool) (ts : List Token) (places : List Nat) : Prop where
  code : ∀ place, kindAt ts Token.Kind.isCode place = true → argumentAt front ts place = false →
    place ∈ places
  arguments : ∀ place ∈ places, argumentAt front ts place = false

namespace Covering

variable {front : Bool} {token : Token} {ts : List Token} {places : List Nat}

/-- A token without a node. -/
theorem pass (h : Covering (token.kind == .directive) ts places)
    (hcode : token.kind.isCode = true → argumentAt front (token :: ts) 0 = true) :
    Covering front (token :: ts) (places.map (· + 1)) where
  code place hplace hargument := by
    cases place with
    | zero =>
        rw [hcode hplace] at hargument
        cases hargument
    | succ place =>
        rw [argumentAt_cons_succ] at hargument
        exact List.mem_map.2 ⟨place, h.code place hplace hargument, rfl⟩
  arguments place hplace := by
    obtain ⟨place, hmem, rfl⟩ := List.mem_map.1 hplace
    rw [argumentAt_cons_succ]
    exact h.arguments place hmem

/-- A token and its node. -/
theorem take (h : Covering (token.kind == .directive) ts places)
    (hargument : argumentAt front (token :: ts) 0 = false) :
    Covering front (token :: ts) (0 :: places.map (· + 1)) where
  code place hplace hother := by
    cases place with
    | zero => exact List.mem_cons_self
    | succ place =>
        rw [argumentAt_cons_succ] at hother
        exact List.mem_cons_of_mem _ (List.mem_map.2 ⟨place, h.code place hplace hother, rfl⟩)
  arguments place hplace := by
    rcases List.mem_cons.1 hplace with rfl | hplace
    · exact hargument
    · obtain ⟨place, hmem, rfl⟩ := List.mem_map.1 hplace
      rw [argumentAt_cons_succ]
      exact h.arguments place hmem

end Covering

/-- In a clean trace the nodes have the places of all the code. -/
theorem Traced.exists_covering {t : Tree} {b : Behind} {ts : List Token} {ids : List NodeId}
    {ds : List Diagnostic} {front : Bool} (h : Traced t b ts ids ds) (hb : b ≠ .lost)
    (hds : Clean ds) (hfront : b = .directive ↔ front = true) :
    ∃ places n, Placed t Node.Kind.hasToken ts ids n places ∧ Covering front ts places := by
  induction h generalizing front with
  | nil =>
      refine ⟨[], 0, .nil, ?_, ?_⟩
      · intro place hplace
        cases hplace
      · intro place hplace
        cases hplace
  | @pass b b' token ts ids ds ds' hpass _ ih =>
      have hclean := hpass.clean hb fun d hd => hds d (List.mem_append_left _ hd)
      have hnext : b' = .directive ↔ (token.kind == .directive) = true := by
        rw [hclean.directive, beq_iff_eq]
      obtain ⟨places, n, hplaces, hcovering⟩ := ih hclean.ne_lost
        (fun d hd => hds d (List.mem_append_right _ hd)) hnext
      refine ⟨_, n, hplaces.pass hpass.ne_label, hcovering.pass ?_⟩
      intro hcode
      obtain ⟨hconst, hdirective⟩ := hclean.code hcode
      simp [argumentAt, kindAt, hconst, hfront.1 hdirective]
  | @take b token ts id ids ds hadmits hkind hline _ ih =>
      have hakin := hkind.akin
      obtain ⟨hlost, hplain, _⟩ := behind_ne (t.kind id) token
      have hnext : (t.kind id).behind token = .directive ↔ (token.kind == .directive) = true := by
        simp [hplain, hakin.ne_directive]
      obtain ⟨places, n, hplaces, hcovering⟩ := ih hlost
        (fun d hd => hds d (List.mem_append_right _ hd)) hnext
      refine ⟨_, _, hplaces.take hkind.hasToken hkind hline, hcovering.take ?_⟩
      cases hfrontEq : front with
      | false => simp [argumentAt]
      | true =>
          have hconst := hadmits.2 (hfront.2 hfrontEq)
          simp [argumentAt, kindAt, hakin.constant, hconst]
  | lead hleader _ _ _ ih =>
      obtain ⟨places, n, hplaces, hcovering⟩ := ih hb hds hfront
      refine ⟨places, n, hplaces.cons_of_not_keep ?_, hcovering⟩
      rw [Bool.eq_false_iff]
      intro h
      rw [Node.Kind.leader?_of_hasToken h] at hleader
      cases hleader

/-! ## Sources -/

/-- The places of the tokens of the kinds with `p`, in order. -/
def placesOf (ts : List Token) (p : Token.Kind → Bool) : List Nat :=
  (List.range ts.length).filter (kindAt ts p)

theorem length_placesOf (ts : List Token) (p : Token.Kind → Bool) :
    (placesOf ts p).length = ts.countP fun token => p token.kind := by
  induction ts with
  | nil => rfl
  | cons token ts ih =>
      have hfirst : kindAt (token :: ts) p 0 = p token.kind := rfl
      have hrest : kindAt (token :: ts) p ∘ Nat.succ = kindAt ts p := rfl
      rw [placesOf, List.length_cons, List.range_succ_eq_map, List.filter_cons, List.filter_map,
        hfirst, hrest, List.countP_cons, ← ih]
      split
      · rw [List.length_cons, List.length_map]
        rfl
      · rw [List.length_map]
        rfl

theorem kindAt_imp {ts : List Token} {p q : Token.Kind → Bool} {place : Nat}
    (hpq : ∀ k, p k = true → q k = true) (h : kindAt ts p place = true) :
    kindAt ts q place = true := by
  obtain ⟨token, htoken, hp⟩ := (Option.any_eq_true _ _).1 h
  exact (Option.any_eq_true _ _).2 ⟨token, htoken, hpq _ hp⟩

/-- Only numerals go with directives. -/
theorem argumentAt_eq_false {front : Bool} {ts : List Token} {p : Token.Kind → Bool} {place : Nat}
    (hp : ∀ k, p k = true → k.isConstant = false) (h : kindAt ts p place = true) :
    argumentAt front ts place = false := by
  obtain ⟨token, htoken, hkind⟩ := (Option.any_eq_true _ _).1 h
  have hconst : kindAt ts Token.Kind.isConstant place = false := by
    rw [kindAt, htoken]
    exact hp _ hkind
  unfold argumentAt
  rw [hconst, Bool.false_and]

theorem StandsAt.akin {t : Tree} {ts : List Token} {id : NodeId} {place : Nat}
    (h : StandsAt t ts id place) :
    ∃ kind, Node.Kind.Akin kind (t.kind id) ∧ ∀ p, kindAt ts p place = p kind := by
  obtain ⟨token, htoken, hkind, _⟩ := h
  refine ⟨token.kind, hkind.akin, ?_⟩
  intro p
  rw [kindAt, htoken]
  rfl

/-- Different things can be told apart, so that each may be given its own number. -/
theorem exists_map_eq {α : Type} [DecidableEq α] {xs : List α} (hxs : xs.Nodup) {ns : List Nat}
    (hlength : xs.length = ns.length) : ∃ f : α → Nat, xs.map f = ns := by
  refine ⟨fun x => ns.getD (xs.idxOf x) 0, ?_⟩
  refine List.ext_getElem (by rw [List.length_map, hlength]) ?_
  intro i hi hi'
  rw [List.getElem_map, hxs.idxOf_getElem, List.getD_eq_getElem?_getD, List.getElem?_eq_getElem hi']
  rfl

/-- Increasing numbers below a bound, if all those with `p` are among them. -/
theorem filter_eq_filter_range {ns : List Nat} {n : Nat} {p : Nat → Bool}
    (hns : ns.Pairwise (· < ·)) (hlt : ∀ i ∈ ns, i < n) (hall : ∀ i, p i = true → i ∈ ns) :
    ns.filter p = (List.range n).filter p := by
  refine (hns.filter p).eq_of_mem_iff (List.pairwise_lt_range.filter p) ?_
  intro i
  rw [List.mem_filter, List.mem_filter, List.mem_range]
  constructor
  · rintro ⟨hi, hp⟩
    exact ⟨hlt i hi, hp⟩
  · rintro ⟨_, hp⟩
    exact ⟨hall i hp, hp⟩

/-- What is left of increasing numbers without some of them. -/
theorem length_filter_not_mem {ns ms : List Nat} (hns : ns.Pairwise (· < ·)) (h : ms.Sublist ns) :
    (ns.filter fun n => decide (n ∉ ms)).length + ms.length = ns.length := by
  have hms : ns.filter (fun n => decide (n ∈ ms)) = ms := by
    refine (hns.filter _).eq_of_mem_iff (hns.sublist h) ?_
    intro i
    simp only [List.mem_filter, decide_eq_true_eq]
    exact ⟨fun hi => hi.2, fun hi => ⟨h.subset hi, hi⟩⟩
  have hlength := List.length_eq_length_filter_add (l := ns) fun n => decide (n ∈ ms)
  simp only [hms, ← decide_not] at hlength
  omega

namespace Parser

/-- The nodes that the root leads to, of the kinds with `p`, in source order. -/
def Outcome.nodesOf (o : Outcome) (p : Node.Kind → Bool) : List NodeId :=
  o.tree.walk.filter fun id => p (o.tree.kind id)

/-- The root comes from no token, and counts for nothing. -/
theorem Outcome.nodesOf_eq {o : Outcome} {p : Node.Kind → Bool} (h : o.tree.Unshared)
    (hp : ∀ items, p (.root items) = false) :
    o.nodesOf p = (o.tree.items.flatMap o.tree.preorder).filter fun id => p (o.tree.kind id) := by
  have hzero : ¬ p (o.tree.kind 0) = true := by
    rw [h.rooted.kind_eq, hp]
    exact Bool.false_ne_true
  rw [nodesOf, o.tree.walk_eq, List.filter_cons_of_neg (p := fun id => p (o.tree.kind id)) hzero]

theorem Outcome.length_nodesOf {o : Outcome} {p : Node.Kind → Bool} (h : o.tree.Unshared)
    (hp : ∀ items, p (.root items) = false) :
    (o.nodesOf p).length =
      (o.tree.items.flatMap o.tree.preorder).countP fun id => p (o.tree.kind id) := by
  rw [nodesOf_eq h hp, List.countP_eq_length_filter]

/-- Each node of the tree comes from the token at its source, and nothing is missing. -/
structure Complete (o : Outcome) (ts : List Token) (source : NodeId → Nat) : Prop where
  /-- No two nodes have one source, and the nodes come in the order of their sources. -/
  increasing : ((o.nodesOf Node.Kind.hasToken).map source).Pairwise (· < ·)
  stands : ∀ id ∈ o.nodesOf Node.Kind.hasToken, StandsAt o.tree ts id (source id)
  instructions : (o.nodesOf Node.Kind.isInstruction).map source =
    placesOf ts Token.Kind.isInstruction
  data : ((o.nodesOf Node.Kind.isData).map source).Sublist (placesOf ts Token.Kind.isMarker)
  /-- The markers left over, and the instructions whose operand is missing. -/
  missing_eq : ((placesOf ts Token.Kind.isMarker).filter fun place =>
      decide (place ∉ (o.nodesOf Node.Kind.isData).map source)).length +
    (o.nodesOf Node.Kind.lacksOperand).length = missing o.diagnostics
  declarations : (o.nodesOf Node.Kind.isDecl).length = ts.countP fun token => token.kind == .equals
  /-- Names of declarations, of labels that come from no label token, and in expressions. -/
  names : (o.tree.walk.filter fun id => (o.tree.kind id).isDecl || (o.tree.kind id).isName ||
      (o.tree.kind id).isLabel && !kindAt ts (· == .label) (source id)).map source =
    placesOf ts (· == .name)
  constants : (o.nodesOf Node.Kind.isConst).map source =
    (placesOf ts Token.Kind.isConstant).filter fun place => !argumentAt false ts place
  /-- The same for all that nodes come from. -/
  code : ∀ place, kindAt ts Token.Kind.isCode place = true →
    argumentAt false ts place = true ∨ place ∈ (o.nodesOf Node.Kind.hasToken).map source

/-- The nodes and their sources, which are those of all the code. -/
structure Sourced (o : Outcome) (ts : List Token) (source : NodeId → Nat) : Prop where
  increasing : ((o.nodesOf Node.Kind.hasToken).map source).Pairwise (· < ·)
  stands : ∀ id ∈ o.nodesOf Node.Kind.hasToken, StandsAt o.tree ts id (source id)
  covering : Covering false ts ((o.nodesOf Node.Kind.hasToken).map source)

namespace Sourced

variable {o : Outcome} {ts : List Token} {source : NodeId → Nat}

/-- The sources of the nodes of a class are the sources with tokens of that class. -/
theorem map_filter_eq (h : Sourced o ts source) {keep : NodeId → Bool} {p : Nat → Bool}
    (hkeep : ∀ id, keep id = true → (o.tree.kind id).hasToken = true)
    (hclass : ∀ id kind, Node.Kind.Akin kind (o.tree.kind id) →
      (∀ q, kindAt ts q (source id) = q kind) → keep id = p (source id)) :
    (o.tree.walk.filter keep).map source =
      ((o.nodesOf Node.Kind.hasToken).map source).filter p := by
  have hboth : o.tree.walk.filter keep = (o.nodesOf Node.Kind.hasToken).filter keep := by
    rw [Outcome.nodesOf, List.filter_filter]
    refine List.filter_congr ?_
    intro id _
    cases hid : keep id with
    | false => rfl
    | true => rw [hkeep id hid, Bool.and_self]
  have hsame : ∀ id ∈ o.nodesOf Node.Kind.hasToken, keep id = (p ∘ source) id := by
    intro id hid
    obtain ⟨kind, hakin, hkind⟩ := (h.stands id hid).akin
    exact hclass id kind hakin hkind
  rw [hboth, List.filter_map, List.filter_congr hsame]

/-- No code is left out of the sources but what directives take along. -/
theorem filter_eq (h : Sourced o ts source) {p : Nat → Bool}
    (hp : ∀ place, p place = true →
      kindAt ts Token.Kind.isCode place = true ∧ argumentAt false ts place = false) :
    ((o.nodesOf Node.Kind.hasToken).map source).filter p = (List.range ts.length).filter p := by
  refine filter_eq_filter_range h.increasing ?_ ?_
  · intro place hplace
    obtain ⟨id, hid, rfl⟩ := List.mem_map.1 hplace
    exact (h.stands id hid).lt_length
  · intro place hplace
    exact h.covering.code place (hp place hplace).1 (hp place hplace).2

/-- A class of tokens that are all code, none of them numerals. -/
theorem map_filter_eq_placesOf (h : Sourced o ts source) {keep : NodeId → Bool}
    {p : Token.Kind → Bool} (hcode : ∀ k, p k = true → k.isCode = true)
    (hconst : ∀ k, p k = true → k.isConstant = false)
    (hkeep : ∀ id, keep id = true → (o.tree.kind id).hasToken = true)
    (hclass : ∀ id kind, Node.Kind.Akin kind (o.tree.kind id) →
      (∀ q, kindAt ts q (source id) = q kind) → keep id = p kind) :
    (o.tree.walk.filter keep).map source = placesOf ts p := by
  rw [placesOf, ← h.filter_eq fun place hplace =>
    ⟨kindAt_imp hcode hplace, argumentAt_eq_false hconst hplace⟩]
  refine h.map_filter_eq hkeep ?_
  intro id kind hakin hkind
  rw [hkind, hclass id kind hakin hkind]

theorem instructions (h : Sourced o ts source) :
    (o.nodesOf Node.Kind.isInstruction).map source = placesOf ts Token.Kind.isInstruction := by
  refine h.map_filter_eq_placesOf ?_ ?_ (fun id hid => Node.Kind.hasToken_of_class (.inl hid))
    fun _ _ hakin _ => hakin.instruction.symm
  · intro k hk
    cases k with
    | instruction => rfl
    | _ => cases hk
  · intro k hk
    cases k with
    | instruction => rfl
    | _ => cases hk

theorem names (h : Sourced o ts source) :
    (o.tree.walk.filter fun id => (o.tree.kind id).isDecl || (o.tree.kind id).isName ||
        (o.tree.kind id).isLabel && !kindAt ts (· == .label) (source id)).map source =
      placesOf ts (· == .name) := by
  refine h.map_filter_eq_placesOf ?_ ?_ ?_ ?_
  · intro k hk
    rw [beq_iff_eq.1 hk]
    rfl
  · intro k hk
    rw [beq_iff_eq.1 hk]
    rfl
  · intro id hid
    simp only [Bool.or_eq_true, Bool.and_eq_true] at hid
    rcases hid with (hdecl | hname) | ⟨hlabel, _⟩
    · exact Node.Kind.hasToken_of_class (.inr (.inr (.inr (.inl hdecl))))
    · exact Node.Kind.hasToken_of_class (.inr (.inr (.inr (.inr (.inl hname)))))
    · exact Node.Kind.hasToken_of_isLabel hlabel
  · intro id kind hakin hkind
    rw [hakin.named, hkind]
    rfl

theorem constants (h : Sourced o ts source) :
    (o.nodesOf Node.Kind.isConst).map source =
      (placesOf ts Token.Kind.isConstant).filter fun place => !argumentAt false ts place := by
  have hcode : ∀ k : Token.Kind, k.isConstant = true → k.isCode = true := by
    intro k hk
    cases k with
    | hexConst | binConst | decConst => rfl
    | _ => cases hk
  have hclass : (o.nodesOf Node.Kind.isConst).map source =
      ((o.nodesOf Node.Kind.hasToken).map source).filter (kindAt ts Token.Kind.isConstant) := by
    refine h.map_filter_eq
      (fun id hid => Node.Kind.hasToken_of_class (.inr (.inr (.inl hid)))) ?_
    intro id kind hakin hkind
    rw [hkind, hakin.constant]
  -- Among the sources no numeral goes with a directive.
  have hfree : ((o.nodesOf Node.Kind.hasToken).map source).filter
        (kindAt ts Token.Kind.isConstant) =
      ((o.nodesOf Node.Kind.hasToken).map source).filter fun place =>
        !argumentAt false ts place && kindAt ts Token.Kind.isConstant place := by
    refine List.filter_congr ?_
    intro place hplace
    rw [h.covering.arguments place hplace]
    rfl
  rw [hclass, hfree, placesOf, List.filter_filter, h.filter_eq]
  intro place hplace
  rw [Bool.and_eq_true, Bool.not_eq_true'] at hplace
  exact ⟨kindAt_imp hcode hplace.2, hplace.1⟩

theorem data (h : Sourced o ts source) :
    ((o.nodesOf Node.Kind.isData).map source).Sublist (placesOf ts Token.Kind.isMarker) := by
  have hclass : (o.nodesOf Node.Kind.isData).map source =
      ((o.nodesOf Node.Kind.hasToken).map source).filter (kindAt ts Token.Kind.isMarker) := by
    refine h.map_filter_eq (fun id hid => Node.Kind.hasToken_of_class (.inr (.inl hid))) ?_
    intro id kind hakin hkind
    rw [hkind, hakin.marker]
  have hrange : ((o.nodesOf Node.Kind.hasToken).map source).Sublist (List.range ts.length) := by
    refine List.sublist_of_subperm_of_pairwise (List.subperm_of_subset h.increasing.nodup ?_)
      h.increasing List.pairwise_lt_range
    intro place hplace
    obtain ⟨id, hid, rfl⟩ := List.mem_map.1 hplace
    exact List.mem_range.2 (h.stands id hid).lt_length
  rw [hclass]
  exact hrange.filter _

end Sourced

/-- A clean trace of all tokens tells the sources of the nodes. -/
theorem exists_sourced {o : Outcome} {ts : List Token} (hunshared : o.tree.Unshared)
    (htraced : Traced o.tree .plain ts (o.tree.items.flatMap o.tree.preorder) o.diagnostics)
    (hclean : Clean o.diagnostics) : ∃ source, Sourced o ts source := by
  obtain ⟨places, _, hplaces, hcovering⟩ := htraced.exists_covering nofun hclean
    (⟨nofun, nofun⟩ : Behind.plain = .directive ↔ false = true)
  have hstands : List.Forall₂ (StandsAt o.tree ts) (o.nodesOf Node.Kind.hasToken) places := by
    rw [Outcome.nodesOf_eq hunshared fun _ => rfl]
    exact hplaces.stands
  obtain ⟨source, hsource⟩ := exists_map_eq (hunshared.nodup_walk.filter _) hstands.length_eq
  have hsource : (o.nodesOf Node.Kind.hasToken).map source = places := hsource
  subst hsource
  rw [List.forall₂_map_right_iff] at hstands
  exact ⟨source, hplaces.increasing, List.forall₂_same.1 hstands, hcovering⟩

/-- And so it tells that nothing is missing. -/
theorem exists_complete {o : Outcome} {ts : List Token} (hunshared : o.tree.Unshared)
    (htraced : Traced o.tree .plain ts (o.tree.items.flatMap o.tree.preorder) o.diagnostics)
    (hclean : Clean o.diagnostics) : ∃ source, Complete o ts source := by
  obtain ⟨source, h⟩ := exists_sourced hunshared htraced hclean
  have hequals := htraced.countP_equals nofun hclean
  have hmarkers := htraced.countP_marker nofun hclean
  have hleft := length_filter_not_mem (List.pairwise_lt_range.filter _) h.data
  have hall := length_placesOf ts Token.Kind.isMarker
  rw [← Outcome.length_nodesOf hunshared fun _ => rfl] at hequals
  rw [← Outcome.length_nodesOf hunshared fun _ => rfl,
    ← Outcome.length_nodesOf hunshared fun _ => rfl, ← hall, placesOf] at hmarkers
  rw [List.length_map] at hleft
  refine ⟨source, h.increasing, h.stands, h.instructions, h.data, ?_, hequals.symm, h.names,
    h.constants, ?_⟩
  · rw [placesOf]
    omega
  · intro place hcode
    cases hargument : argumentAt false ts place with
    | true => exact .inl rfl
    | false => exact .inr (h.covering.code place hcode hargument)

/-- A program without errors is found again in its tree: each instruction, each name, each
numeral that no directive takes along, each sign, and all data but what is reported to be
missing. -/
theorem program_complete (limit : Nat) (ts : List Token)
    (h : (program limit ts).hasErrors = false) :
    (∀ id, id ∈ (program limit ts).tree.walk ↔ (program limit ts).tree.Reaches id) ∧
      (program limit ts).tree.walk.Nodup ∧
        ∃ source, Complete (program limit ts) (ts.takeWhile TokenStream.isProper) source := by
  have hunshared := program_unshared limit ts
  have htraced := program_traced limit ts
  have hclean : Clean (program limit ts).diagnostics := by
    intro d hd
    rw [Bool.eq_false_iff]
    exact List.any_eq_false.1 h d hd
  refine ⟨fun _ => hunshared.mem_walk_iff, hunshared.nodup_walk, ?_⟩
  exact exists_complete hunshared htraced hclean

/-- A directive with a numeral, a declaration, a label with a detached colon, a marker
without data, and a mnemonic without an operand. -/
def warnedTokens : List Token :=
  [⟨.directive, ".org", ⟨1, 1⟩⟩, ⟨.hexConst, "$80", ⟨1, 6⟩⟩, ⟨.name, "n", ⟨2, 1⟩⟩,
    ⟨.equals, "=", ⟨2, 3⟩⟩, ⟨.decConst, "2", ⟨2, 5⟩⟩, ⟨.name, "go", ⟨3, 1⟩⟩,
    ⟨.colon, ":", ⟨3, 4⟩⟩, ⟨.dataBytes, ".db", ⟨4, 3⟩⟩, ⟨.instruction .sta, "STA", ⟨5, 3⟩⟩,
    ⟨.instruction .lda, "LDA", ⟨6, 3⟩⟩, ⟨.name, "n", ⟨6, 7⟩⟩]

/-- The three warnings say what is missing from its tree. -/
theorem program_complete_warnedTokens :
    (program 1 warnedTokens).hasErrors = false ∧
      (program 1 warnedTokens).diagnostics.map Diagnostic.kind =
        [.recoveredLabel, .missingOperand, .missingOperand] ∧
      ∃ source, Complete (program 1 warnedTokens) (warnedTokens.takeWhile TokenStream.isProper)
        source := by
  have hnone : (program 1 warnedTokens).hasErrors = false := by decide +kernel
  exact ⟨hnone, by decide +kernel, (program_complete 1 warnedTokens hnone).2.2⟩

end Parser

end Asm6502
