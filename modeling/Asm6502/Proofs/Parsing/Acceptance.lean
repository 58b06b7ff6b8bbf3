import Asm6502.Proofs.Parsing.Grammar
import Asm6502.Proofs.Parsing.Provenance
import Asm6502.Tree.Labels

/-!
# What is accepted without a word

If nothing at all is reported about a program, its tokens are a sentence of the grammar,
with one licence: a list of data may be closed by a comma, and nothing tells that an
expression is missing behind it.

How many lists are closed that way can be told from the tokens alone, for these are the
commas that dangle; and it can be told from the tree, for all other commas are those of
indexed operands and those between the values of a list.

## Main results

* `Syntax.Expression.derives` — a canonical expression is derived by the grammar.
* `program_isSentence` — the programs that are accepted, and the commas in them.
-/

namespace Asm6502

open Grammar
open scoped Computability

/-- The kinds of tokens. -/
def kinds (ts : List Token) : List Token.Kind := ts.map Token.kind

theorem kinds_append (ts us : List Token) : kinds (ts ++ us) = kinds ts ++ kinds us :=
  List.map_append

namespace Syntax

/-! ## Expressions and operands -/

theorem sign_of_signWrapper? {k : Token.Kind} {w : Wrapper} (h : signWrapper? k = some w) :
    k = .hash ∨ k = .less ∨ k = .greater := by
  cases k with
  | hash | less | greater => simp
  | _ => cases h

theorem sign_of_sumOperator? {k : Token.Kind} {operator : SumOperator}
    (h : Parser.sumOperator? k = some operator) : k = .plus ∨ k = .minus := by
  cases k with
  | plus | minus => simp
  | _ => cases h

theorem register_of_indexWrapper? {k : Token.Kind} {w : Wrapper}
    (h : Parser.indexWrapper? k = some w) : [k] ∈ one .xReg + one .yReg := by
  cases k with
  | xReg => exact .inl rfl
  | yReg => exact .inr rfl
  | _ => cases h

namespace Expression

/-- Sums group to the left, so what stands on the right of one is a primary. -/
theorem derives (e : Expression) (hc : e.Canonical) :
    Derives .expression (kinds e.tokens) ∧
      (e.isSum = false → Derives .primary (kinds e.tokens)) := by
  have both {ks : List Token.Kind} {p : Prop} (h : Derives .primary ks) :
      Derives .expression ks ∧ (p → Derives .primary ks) := ⟨.first h, fun _ => h⟩
  induction e with
  | name t isName =>
      have hk : kinds (name t isName).tokens = [.name] := congrArg (fun k => [k]) isName
      rw [hk]
      exact both .name
  | const t isConst => exact both (.constant isConst)
  | signed sign wrapper isSign body ih =>
      exact both (.signed (sign_of_signWrapper? isSign) (ih hc).1)
  | parens opening isOpening body closing isClosing ih =>
      have hk : kinds (parens opening isOpening body closing isClosing).tokens =
          .parenLeft :: (kinds body.tokens ++ [.parenRight]) := by
        simp [tokens, kinds, isOpening, isClosing]
      rw [hk]
      exact both (.parens (ih hc).1)
  | sum left sign operator isSign right ihLeft ihRight =>
      obtain ⟨hleft, hright, _, hgroups⟩ := hc
      have hk : kinds (sum left sign operator isSign right).tokens =
          kinds left.tokens ++ sign.kind :: kinds right.tokens := by
        simp [tokens, kinds]
      rw [hk]
      refine ⟨.more (ihLeft hleft).1 (sign_of_sumOperator? isSign) ((ihRight hright).2 hgroups), ?_⟩
      intro hsum
      cases hsum

theorem mem_expression {e : Expression} (hc : e.Canonical) :
    kinds e.tokens ∈ Grammar.expression := (e.derives hc).1

end Expression

theorem Operand.mem_operand {o : Operand} (hc : o.expression.Canonical) :
    kinds o.tokens ∈ Grammar.operand := by
  cases o with
  | plain e =>
      have hnone : [] ∈ 1 + one .comma * (one .xReg + one .yReg) := .inl rfl
      have h := Language.append_mem_mul (Expression.mem_expression hc) hnone
      rwa [List.append_nil] at h
  | indexed e comma isComma register wrapper isRegister =>
      have hindex : [.comma, register.kind] ∈ 1 + one .comma * (one .xReg + one .yReg) :=
        .inr (Language.append_mem_mul (singleton_mem_one _) (register_of_indexWrapper? isRegister))
      have hk : kinds (indexed e comma isComma register wrapper isRegister).tokens =
          kinds e.tokens ++ [.comma, register.kind] := by
        simp [tokens, kinds, isComma]
      rw [hk]
      exact Language.append_mem_mul (Expression.mem_expression hc) hindex

/-! ## Items -/

/-- A mnemonic and what stands behind it, if no operand is missing. -/
theorem Arguments.mem_instruction {c : OperandClass} {m : Mnemonic} (hm : m.operandClass = c)
    (a : Arguments c) (hc : ∀ o ∈ a.operand?, o.expression.Canonical)
    (hmissing : ¬ (c = .memory ∧ a.operand? = none)) :
    .instruction m :: kinds a.tokens ∈ Grammar.instruction := by
  have hmnemonic : [.instruction m] ∈ mnemonic c := ⟨m, hm, rfl⟩
  cases a with
  | implied => exact .inl (.inl (.inl hmnemonic))
  | memory operand =>
      cases operand with
      | none => exact absurd ⟨rfl, rfl⟩ hmissing
      | some o =>
          have hclass : [.instruction m] ∈ mnemonic .memory + mnemonic .accumulator :=
            .inl hmnemonic
          exact .inl (.inr (Language.append_mem_mul hclass (o.mem_operand (hc o rfl))))
  | accumulator operand =>
      cases operand with
      | none => exact .inr hmnemonic
      | some o =>
          have hclass : [.instruction m] ∈ mnemonic .memory + mnemonic .accumulator :=
            .inr hmnemonic
          exact .inl (.inr (Language.append_mem_mul hclass (o.mem_operand (hc o rfl))))
  | target t isName =>
      have hname : kinds (target t isName).tokens ∈ one .name := congrArg (fun k => [k]) isName
      exact .inl (.inl (.inr (Language.append_mem_mul hmnemonic hname)))

/-- A data directive is closed by its last comma, if it has one too many. -/
theorem mem_data {marker : Token} {width : DataWidth} {first : Expression}
    {further : List Further} (isMarker : markerWidth? marker.kind = some width)
    (trailing : Option { comma : Token // comma.kind = .comma })
    (hc : ∀ e ∈ first :: further.map Further.expression, e.Canonical) :
    kinds (Item.data marker width isMarker first further trailing).tokens ∈
      Grammar.data {kinds (trailing.map Subtype.val).toList} := by
  have hmarker : [marker.kind] ∈ one .dataBytes + one .dataWords := by
    generalize marker.kind = k at isMarker
    cases k with
    | dataBytes => exact .inl rfl
    | dataWords => exact .inr rfl
    | _ => cases isMarker
  have hfirst : kinds first.tokens ∈ expression :=
    Expression.mem_expression (hc first List.mem_cons_self)
  have hfurther : (further.map fun f => .comma :: kinds f.expression.tokens).flatten ∈
      (one .comma * expression)∗ := by
    refine Language.join_mem_kstar ?_
    intro ks hks
    obtain ⟨f, hf, rfl⟩ := List.mem_map.1 hks
    have hvalue := Expression.mem_expression
      (hc f.expression (List.mem_cons_of_mem _ (List.mem_map_of_mem hf)))
    exact Language.append_mem_mul (singleton_mem_one .comma) hvalue
  have hk : kinds (Item.data marker width isMarker first further trailing).tokens =
      [marker.kind] ++ (kinds first.tokens ++
        ((further.map fun f => .comma :: kinds f.expression.tokens).flatten ++
          kinds (trailing.map Subtype.val).toList)) := by
    have hcommas : kinds (further.flatMap fun f => f.comma :: f.expression.tokens) =
        (further.map fun f => .comma :: kinds f.expression.tokens).flatten := by
      rw [kinds, List.map_flatMap, List.flatMap_def]
      refine congrArg List.flatten (List.map_congr_left ?_)
      intro f _
      rw [List.map_cons, f.isComma]
      rfl
    rw [Item.tokens, kinds_append, kinds_append, hcommas, List.append_assoc]
    rfl
  rw [hk]
  exact Language.append_mem_mul hmarker
    (Language.append_mem_mul hfirst (Language.append_mem_mul hfurther rfl))

/-! ## Commas -/

/-- A kind that a table knows apart from commas is none. -/
theorem ne_comma {α : Type} (table : Token.Kind → α) {k : Token.Kind}
    (h : table k ≠ table .comma) : k ≠ .comma := by
  rintro rfl
  exact h rfl

theorem Expression.count_comma {e : Expression} (hc : e.Canonical) :
    (kinds e.tokens).count .comma = 0 :=
  List.count_eq_zero.2 (plain_of_mem_expression (mem_expression hc)).comma

/-- The commas in front of index registers. -/
def Operand.commas : Operand → Nat
  | plain _ => 0
  | indexed _ _ _ _ _ _ => 1

/-- The commas in front of index registers, or between values. -/
def Item.commas : Item → Nat
  | instruction _ _ _ arguments => (arguments.operand?.map Operand.commas).getD 0
  | data _ _ _ _ further _ => further.length

def Entry.commas : Entry → Nat
  | declaration _ => 0
  | labelled s => (s.items.map Item.commas).sum

theorem Operand.count_comma {o : Operand} (hc : o.expression.Canonical) :
    (kinds o.tokens).count .comma = o.commas := by
  cases o with
  | plain e => exact Expression.count_comma hc
  | indexed e comma isComma register wrapper isRegister =>
      have hregister : register.kind ≠ .comma := by
        refine ne_comma Parser.indexWrapper? ?_
        rw [isRegister]
        nofun
      have hk : kinds (indexed e comma isComma register wrapper isRegister).tokens =
          kinds e.tokens ++ [.comma, register.kind] := by
        simp [tokens, kinds, isComma]
      have he : (kinds e.tokens).count .comma = 0 := Expression.count_comma hc
      rw [hk, List.count_append, he, List.count_cons_self, List.count_cons_of_ne hregister]
      rfl

theorem Arguments.count_comma {c : OperandClass} (a : Arguments c)
    (hc : ∀ o ∈ a.operand?, o.expression.Canonical) :
    (kinds a.tokens).count .comma = (a.operand?.map Operand.commas).getD 0 := by
  have optional (operand : Option Operand) (hc : ∀ o ∈ operand, o.expression.Canonical) :
      (kinds ((operand.map Operand.tokens).getD [])).count .comma =
        (operand.map Operand.commas).getD 0 := by
    cases operand with
    | none => rfl
    | some o => exact o.count_comma (hc o rfl)
  cases a with
  | implied => rfl
  | memory operand => exact optional operand hc
  | accumulator operand => exact optional operand hc
  | target t isName =>
      have hk : kinds (target t isName).tokens = [.name] := congrArg (fun k => [k]) isName
      rw [hk]
      rfl

theorem count_comma_further {further : List Further}
    (hc : ∀ f ∈ further, f.expression.Canonical) :
    (kinds (further.flatMap fun f => f.comma :: f.expression.tokens)).count .comma =
      further.length := by
  induction further with
  | nil => rfl
  | cons f further ih =>
      have hk : kinds (f.comma :: f.expression.tokens) = .comma :: kinds f.expression.tokens := by
        rw [← f.isComma]
        rfl
      rw [List.flatMap_cons, kinds_append, hk, List.count_append, List.count_cons_self,
        Expression.count_comma (hc f List.mem_cons_self),
        ih fun f hf => hc f (List.mem_cons_of_mem _ hf), List.length_cons]
      omega

/-- All commas of a list of data but the one that may close it stand between values. -/
theorem count_comma_data {marker : Token} {width : DataWidth} {first : Expression}
    {further : List Further} (isMarker : markerWidth? marker.kind = some width)
    (trailing : Option { comma : Token // comma.kind = .comma })
    (hc : ∀ e ∈ first :: further.map Further.expression, e.Canonical) :
    (kinds (Item.data marker width isMarker first further trailing).tokens).count .comma =
      further.length + (kinds (trailing.map Subtype.val).toList).count .comma := by
  have hmarker : marker.kind ≠ .comma := by
    refine ne_comma markerWidth? ?_
    rw [isMarker]
    nofun
  have hfurther : ∀ f ∈ further, f.expression.Canonical := by
    intro f hf
    exact hc _ (List.mem_cons_of_mem _ (List.mem_map_of_mem hf))
  have hfirst : (kinds (marker :: first.tokens)).count .comma = 0 := by
    have hvalue := Expression.count_comma (hc first List.mem_cons_self)
    exact (List.count_cons_of_ne hmarker).trans hvalue
  rw [Item.tokens, kinds_append, kinds_append, List.count_append, List.count_append, hfirst,
    count_comma_further hfurther, Nat.zero_add]

/-! ## Accepted phrases -/

/-- A phrase of a language that depends on what may close a list of data: with the licence
to close it by a comma the phrase belongs to the language, and without it too if no comma
dangles.  The number is that of its commas, without those that dangle. -/
structure Accepted (l : Language Token.Kind → Language Token.Kind) (n : Nat)
    (ks : List Token.Kind) : Prop where
  fresh : fresh ks = true
  licensed : ks ∈ l (1 + one .comma)
  proper : dangling ks = 0 → ks ∈ l 1
  commas : ks.count .comma = n + dangling ks

namespace Accepted

variable {l l' : Language Token.Kind → Language Token.Kind} {n n' : Nat}
  {ks ks' : List Token.Kind}

/-- What has no lists needs no licence. -/
theorem of_settled (h : Settled ks) (hmem : ∀ closing, ks ∈ l closing)
    (hcommas : ks.count .comma = n) : Accepted l n ks where
  fresh := h.fresh
  licensed := hmem _
  proper _ := hmem 1
  commas := by rw [hcommas, h.dangling, Nat.add_zero]

theorem append (h : Accepted l n ks) (h' : Accepted l' n' ks') :
    Accepted (fun closing => l closing * l' closing) (n + n') (ks ++ ks') where
  fresh := fresh_append_of_fresh h.fresh h'.fresh
  licensed := Language.append_mem_mul h.licensed h'.licensed
  proper hnone := by
    rw [dangling_append h'.fresh, Nat.add_eq_zero_iff] at hnone
    exact Language.append_mem_mul (h.proper hnone.1) (h'.proper hnone.2)
  commas := by
    rw [List.count_append, h.commas, h'.commas, dangling_append h'.fresh]
    omega

theorem flatten {α : Type} {c : α → Nat} {f : α → List Token.Kind} {parts : List α}
    (h : ∀ part ∈ parts, Accepted l (c part) (f part)) :
    Accepted (fun closing => (l closing)∗) (parts.map c).sum (parts.map f).flatten := by
  induction parts with
  | nil => exact ⟨rfl, Language.nil_mem_kstar _, fun _ => Language.nil_mem_kstar _, rfl⟩
  | cons part parts ih =>
      have hall := (h part List.mem_cons_self).append
        (ih fun p hp => h p (List.mem_cons_of_mem _ hp))
      have hmore (closing : Language Token.Kind) : l closing * (l closing)∗ ≤ (l closing)∗ :=
        mul_kstar_le_kstar
      exact ⟨hall.fresh, hmore _ hall.licensed, fun hnone => hmore _ (hall.proper hnone),
        hall.commas⟩

theorem imp (h : Accepted l n ks) (hl : ∀ closing, ∀ ks ∈ l closing, ks ∈ l' closing) :
    Accepted l' n ks where
  fresh := h.fresh
  licensed := hl _ _ h.licensed
  proper hnone := hl _ _ (h.proper hnone)
  commas := h.commas

end Accepted

theorem constant_of_isConstant {k : Token.Kind} (h : k.isConstant = true) :
    [k] ∈ one .hexConst + one .binConst + one .decConst := by
  cases k with
  | hexConst => exact .inl (.inl rfl)
  | binConst => exact .inl (.inr rfl)
  | decConst => exact .inr rfl
  | _ => cases h

theorem Directive.accepted (d : Directive) :
    Accepted (fun _ => Grammar.directive) 0 (kinds d.tokens) := by
  obtain ⟨token, isDirective, argument⟩ := d
  have hargument : kinds (argument.map Subtype.val).toList ∈
        1 + (one .hexConst + one .binConst + one .decConst) ∧
      (kinds (argument.map Subtype.val).toList).count .comma = 0 := by
    cases argument with
    | none => exact ⟨.inl rfl, rfl⟩
    | some argument =>
        obtain ⟨t, isConst⟩ := argument
        have hother : t.kind ≠ .comma := by
          refine ne_comma Token.Kind.isConstant ?_
          rw [isConst]
          nofun
        exact ⟨.inr (constant_of_isConstant isConst), List.count_cons_of_ne hother⟩
  have hk : kinds (Directive.tokens ⟨token, isDirective, argument⟩) =
      [.directive] ++ kinds (argument.map Subtype.val).toList := by
    rw [← isDirective]
    rfl
  have hmem : kinds (Directive.tokens ⟨token, isDirective, argument⟩) ∈ Grammar.directive := by
    rw [hk]
    exact Language.append_mem_mul (singleton_mem_one _) hargument.1
  refine .of_settled (settled_of_mem_directive hmem) (fun _ => hmem) ?_
  rw [hk, List.count_append, hargument.2]
  rfl

theorem Item.accepted {i : Item} (hreports : i.reports = [])
    (hc : ∀ e ∈ i.expressions, e.Canonical) :
    Accepted (fun closing => Grammar.instruction + Grammar.data closing) i.commas
      (kinds i.tokens) := by
  cases i with
  | instruction t m isMnemonic a =>
      have hmissing : ¬ (m.operandClass = .memory ∧ a.operand? = none) := by
        intro h
        rw [reports, if_pos h] at hreports
        cases hreports
      have hcanonical : ∀ o ∈ a.operand?, o.expression.Canonical := by
        intro o ho
        refine hc o.expression ?_
        rw [expressions, show a.operand? = some o from ho]
        exact List.mem_singleton_self _
      have hmem := a.mem_instruction rfl hcanonical hmissing
      have hk : kinds (Item.instruction t m isMnemonic a).tokens =
          .instruction m :: kinds a.tokens := by
        rw [← isMnemonic]
        rfl
      rw [hk]
      refine .of_settled (settled_of_mem_instruction hmem) (fun _ => .inl hmem) ?_
      rw [List.count_cons_of_ne (by simp), a.count_comma hcanonical]
      rfl
  | data marker width isMarker first further trailing =>
      have hmem := mem_data isMarker trailing hc
      have hcommas := count_comma_data isMarker trailing hc
      cases trailing with
      | none =>
          obtain ⟨hfresh, hdangling⟩ := dangling_of_mem_data (c := []) (by simp) hmem
          refine ⟨hfresh, .inr (data_mono (.inl rfl) hmem), fun _ => .inr hmem, ?_⟩
          rw [hcommas, hdangling]
          rfl
      | some comma =>
          have hcomma : kinds ((some comma).map Subtype.val).toList = [.comma] :=
            congrArg (fun k => [k]) comma.2
          rw [hcomma] at hmem hcommas
          obtain ⟨hfresh, hdangling⟩ := dangling_of_mem_data (c := [.comma]) (by simp) hmem
          refine ⟨hfresh, .inr (data_mono (.inr rfl) hmem), ?_, ?_⟩
          · intro hnone
            rw [hdangling] at hnone
            cases hnone
          · rw [hcommas, hdangling]
            rfl

def BlockPart.commas (p : BlockPart) : Nat := (p.item?.map Item.commas).getD 0

/-- A stretch of a block about which nothing is reported. -/
theorem BlockPart.accepted {p : BlockPart} (hreports : p.reports = [])
    (hc : ∀ i ∈ p.item?, ∀ e ∈ i.expressions, e.Canonical) :
    Accepted blockPart p.commas (kinds p.tokens) := by
  cases p with
  | directive d => exact d.accepted.imp fun _ _ h => .inr h
  | item i => exact (Item.accepted hreports (hc i rfl)).imp fun _ _ h => .inl h
  | bareMarker | stalled | givenUp => cases hreports

theorem kinds_flatMap {α : Type} (f : α → List Token) (xs : List α) :
    kinds (xs.flatMap f) = (xs.map fun x => kinds (f x)).flatten := by
  rw [kinds, List.map_flatMap, List.flatMap_def]
  rfl

/-- What is not picked counts for nothing. -/
theorem sum_map_filterMap {α β : Type} (pick : α → Option β) (count : β → Nat) (xs : List α) :
    (xs.map fun x => ((pick x).map count).getD 0).sum = ((xs.filterMap pick).map count).sum := by
  induction xs with
  | nil => rfl
  | cons x xs ih =>
      rw [List.map_cons, List.sum_cons, ih]
      cases hx : pick x with
      | none => rw [List.filterMap_cons_none hx, Option.map_none, Option.getD_none, Nat.zero_add]
      | some y => rw [List.filterMap_cons_some hx, List.map_cons, List.sum_cons, Option.map_some,
          Option.getD_some]

theorem accepted_label {t : Token} (h : t.kind = .label) :
    Accepted (fun _ => one .label) 0 [t.kind] := by
  rw [h]
  exact .of_settled (settled_of_mem_label (singleton_mem_one _)) (fun _ => singleton_mem_one _) rfl

theorem accepted_labels {labels : List Token} (h : ∀ t ∈ labels, t.kind = .label) :
    Accepted (fun _ => (one .label)∗) 0 (kinds labels) := by
  have hlabels := Accepted.flatten (c := fun _ => 0) fun t ht => accepted_label (h t ht)
  have hk : (labels.map fun t => [t.kind]).flatten = kinds labels := by
    rw [← List.flatMap_def]
    exact List.flatMap_pure_eq_map _ _
  have hnone : (labels.map fun _ => 0).sum = 0 := by simp
  rwa [hk, hnone] at hlabels

theorem Declaration.accepted {d : Declaration} (hc : d.value.Canonical) :
    Accepted (fun _ => Grammar.declaration) 0 (kinds d.tokens) := by
  have hk : kinds d.tokens = [.name] ++ ([.equals] ++ kinds d.value.tokens) := by
    rw [← d.isName, ← d.isEquals]
    rfl
  have hmem : kinds d.tokens ∈ Grammar.declaration := by
    rw [hk]
    exact Language.append_mem_mul (singleton_mem_one _)
      (Language.append_mem_mul (singleton_mem_one _) (Expression.mem_expression hc))
  refine .of_settled (settled_of_mem_declaration hmem) (fun _ => hmem) ?_
  rw [hk, List.count_append, List.count_append, Expression.count_comma hc]
  rfl

def Statement.commas (st : Statement) : Nat := (st.entry?.map Entry.commas).getD 0

/-- A stretch of a program about which nothing is reported. -/
theorem Statement.accepted {st : Statement} (hreports : st.reports = [])
    (hc : ∀ entry ∈ st.entry?, ∀ e ∈ entry.expressions, e.Canonical) :
    Accepted Grammar.statement st.commas (kinds st.tokens) := by
  cases st with
  | directive d => exact d.accepted.imp fun _ _ h => .inl (.inl h)
  | declaration d =>
      have hvalue := hc _ rfl d.value (List.mem_singleton_self _)
      exact (Declaration.accepted hvalue).imp fun _ _ h => .inl (.inr h)
  | labelled heading nested areLabels parts =>
      obtain ⟨hheading, hparts⟩ := List.append_eq_nil_iff.1 hreports
      cases heading with
      | detached => cases hheading
      | label t isLabel =>
          have hblock : Accepted (fun closing => (blockPart closing)∗)
              (parts.map BlockPart.commas).sum (kinds (parts.flatMap BlockPart.tokens)) := by
            rw [kinds_flatMap]
            refine .flatten ?_
            intro p hp
            refine BlockPart.accepted (List.flatMap_eq_nil_iff.1 hparts p hp) ?_
            intro i hi e he
            exact hc _ rfl e (List.mem_flatMap.2 ⟨i, List.mem_filterMap.2 ⟨p, hp, hi⟩, he⟩)
          have hall := (accepted_label isLabel).append ((accepted_labels areLabels).append hblock)
          have hk : kinds (labelled (.label t isLabel) nested areLabels parts).tokens =
              [t.kind] ++ (kinds nested ++ kinds (parts.flatMap BlockPart.tokens)) := by
            rw [tokens, kinds_append, kinds_append, List.append_assoc]
            rfl
          have hcommas : (labelled (.label t isLabel) nested areLabels parts).commas =
              0 + (0 + (parts.map BlockPart.commas).sum) := by
            rw [Nat.zero_add, Nat.zero_add]
            exact (sum_map_filterMap BlockPart.item? Item.commas parts).symm
          rw [hk, hcommas]
          exact hall.imp fun _ _ h => .inr h
  | givenUp | skipped => cases hreports

/-- An account that reports nothing tells a sentence. -/
theorem accepted_account {account : List Statement}
    (hreports : account.flatMap Statement.reports = [])
    (hc : ∀ entry ∈ account.filterMap Statement.entry?, ∀ e ∈ entry.expressions, e.Canonical) :
    Accepted Grammar.program ((account.filterMap Statement.entry?).map Entry.commas).sum
      (kinds (account.flatMap Statement.tokens)) := by
  rw [kinds_flatMap, ← sum_map_filterMap]
  refine Accepted.flatten (c := Statement.commas) ?_
  intro st hst
  refine Statement.accepted (List.flatMap_eq_nil_iff.1 hreports st hst) ?_
  intro entry hentry
  exact hc entry (List.mem_filterMap.2 ⟨st, hst, hentry⟩)

/-! ## Commas of a tree -/

/-- The number of commas that a node of the kind stands for: one in front of an index
register, and one between each two values of a list of data. -/
def commasOf (t : Tree) : Node.Kind → Nat
  | .wrap wrapper _ => if wrapper.isIndex then 1 else 0
  | .data _ head => (t.listItems head).length - 1
  | _ => 0

variable {t : Tree} {id : NodeId}

/-- The number of commas that nodes and all that they lead to stand for. -/
def commasBelow (t : Tree) (ids : List NodeId) : Nat :=
  ((ids.flatMap t.preorder).map fun id => commasOf t (t.kind id)).sum

theorem commasBelow_cons (t : Tree) (id : NodeId) (ids : List NodeId) :
    commasBelow t (id :: ids) = commasBelow t [id] + commasBelow t ids := by
  rw [commasBelow, commasBelow, commasBelow, List.flatMap_cons, List.flatMap_singleton,
    List.map_append, List.sum_append_nat]

/-- A node and what it owns. -/
theorem commasBelow_of_node {n : Node} (ht : t.Descends) (hnode : t.node id = n)
    (hn : ∀ items, n.kind ≠ .root items) :
    commasBelow t [id] = commasOf t n.kind + commasBelow t n.kind.children := by
  have hkind : t.kind id = n.kind := congrArg Node.kind hnode
  rw [commasBelow, List.flatMap_singleton, preorder_of_node ht hnode hn, List.map_cons,
    List.sum_cons, hkind]
  rfl

/-- A node that stands for no comma itself. -/
theorem commasBelow_children {n : Node} (ht : t.Descends) (hnode : t.node id = n)
    (hn : ∀ items, n.kind ≠ .root items) (hzero : commasOf t n.kind = 0) :
    commasBelow t [id] = commasBelow t n.kind.children := by
  rw [commasBelow_of_node ht hnode hn, hzero, Nat.zero_add]

/-- The cells of a list stand for nothing. -/
theorem commasBelow_of_lists {head : Option NodeId} {ids : List NodeId} (ht : t.Descends)
    (h : t.Lists head ids) : commasBelow t head.toList = commasBelow t ids := by
  induction ids generalizing head with
  | nil =>
      rw [show head = none from h]
      rfl
  | cons item ids ih =>
      obtain ⟨cell, next, rfl, hnode, hmore⟩ := h
      calc commasBelow t [cell]
        _ = commasBelow t (item :: next.toList) := commasBelow_children ht hnode (by simp) rfl
        _ = commasBelow t [item] + commasBelow t ids := by rw [commasBelow_cons, ih hmore]
        _ = commasBelow t (item :: ids) := (commasBelow_cons t item ids).symm

/-- The list of a data directive can be read along its cells. -/
theorem listItems_of_lists {head : NodeId} {ids : List NodeId} (ht : t.Descends)
    (h : t.Lists (some head) ids) : t.listItems head = ids := by
  induction ids generalizing head with
  | nil => cases h
  | cons item ids ih =>
      obtain ⟨cell, next, ⟨⟩, hnode, hmore⟩ := h
      have hkind : t.kind head = .list item next := congrArg Node.kind hnode
      have hlt : ∀ n ∈ next, n < head := by
        intro n hn
        refine (ht head (Tree.isInner_of_kind hkind (by simp)) n ?_).1
        rw [Tree.children, hkind]
        exact List.mem_cons_of_mem _ (Option.mem_toList.2 hn)
      rw [Tree.listItems_list hkind hlt]
      cases next with
      | none =>
          cases ids with
          | nil => rfl
          | cons => obtain ⟨_, _, ⟨⟩, _⟩ := hmore
      | some next => exact congrArg (item :: ·) (ih hmore)

/-- What stands for as many commas as the phrases it shows. -/
theorem commasBelow_of_shown {α : Type} {R : NodeId → α → Prop} {count : α → Nat}
    {ids : List NodeId} {xs : List α} (h : List.Forall₂ R ids xs)
    (hcount : ∀ id x, R id x → commasBelow t [id] = count x) :
    commasBelow t ids = (xs.map count).sum := by
  induction h with
  | nil => rfl
  | @cons id x ids xs hx _ ih =>
      rw [commasBelow_cons, hcount id x hx, ih]
      rfl

theorem Expression.ShownAt.commas (ht : t.Descends) {e : Expression} (h : e.ShownAt t id) :
    commasBelow t [id] = 0 := by
  induction e generalizing id with
  | name token isName => exact commasBelow_children ht h (by simp) rfl
  | const token isConst => exact commasBelow_children ht h (by simp) rfl
  | signed sign wrapper isSign body ih =>
      obtain ⟨child, hnode, hbody⟩ := h
      have hzero : commasOf t (.wrap wrapper child) = 0 := by
        rw [commasOf, isIndex_of_isSign (isSign_of_signWrapper? isSign)]
        rfl
      exact (commasBelow_children ht hnode (by simp) hzero).trans (ih hbody)
  | parens opening isOpening body closing isClosing ih =>
      obtain ⟨child, hnode, hbody⟩ := h
      exact (commasBelow_children ht hnode (by simp) rfl).trans (ih hbody)
  | sum left sign operator isSign right ihLeft ihRight =>
      obtain ⟨l, r, hnode, hleft, hright⟩ := h
      rw [commasBelow_children ht hnode (by simp) rfl, Node.Kind.children, commasBelow_cons,
        ihLeft hleft, ihRight hright]

theorem Operand.ShownAt.commas (ht : t.Descends) {o : Operand} (h : o.ShownAt t id) :
    commasBelow t [id] = o.commas := by
  cases o with
  | plain e => exact Expression.ShownAt.commas ht h
  | indexed e comma isComma register wrapper isRegister =>
      obtain ⟨child, hnode, he⟩ := h
      rw [commasBelow_of_node ht hnode (by simp), commasOf,
        isIndex_of_indexWrapper? isRegister, Node.Kind.children, he.commas ht]
      rfl

theorem Arguments.ShownAt.commas (ht : t.Descends) {c : OperandClass} {a : Arguments c}
    {id? : Option NodeId} (h : a.ShownAt t id?) :
    commasBelow t id?.toList = (a.operand?.map Operand.commas).getD 0 := by
  have optional (o? : Option Operand) (h : Operand.ShownIfAny t o? id?) :
      commasBelow t id?.toList = (o?.map Operand.commas).getD 0 := by
    cases o? with
    | none =>
        rw [show id? = none from h]
        rfl
    | some o =>
        obtain ⟨id, rfl, ho⟩ := h
        exact ho.commas ht
  cases a with
  | implied => exact optional none h
  | memory operand => exact optional operand h
  | accumulator operand => exact optional operand h
  | target token isName =>
      obtain ⟨id, rfl, hnode⟩ := h
      exact commasBelow_children ht hnode (by simp) rfl

theorem Item.ShownAt.commas (ht : t.Descends) {i : Item} (h : i.ShownAt t id) :
    commasBelow t [id] = i.commas := by
  cases i with
  | instruction token mnemonic isMnemonic arguments =>
      obtain ⟨operand, hnode, harguments⟩ := h
      exact (commasBelow_children ht hnode (by simp) rfl).trans (harguments.commas ht)
  | data marker width isMarker first further trailing =>
      obtain ⟨head, ids, hnode, hlists, hshown⟩ := h
      have hvalues : commasBelow t ids = 0 := by
        rw [commasBelow_of_shown hshown fun id e he => he.commas ht, List.map_const',
          List.sum_replicate_nat, Nat.mul_zero]
      have hcells : commasBelow t [head] = 0 := (commasBelow_of_lists ht hlists).trans hvalues
      have hlength : ids.length = further.length + 1 := by
        rw [hshown.length_eq, List.length_cons, List.length_map]
      rw [commasBelow_of_node ht hnode (by simp), commasOf, listItems_of_lists ht hlists, hlength,
        Node.Kind.children, hcells]
      rfl

theorem LabelsShownAt.commas (ht : t.Descends) {child id? : Option NodeId} {labels : List Token}
    (h : LabelsShownAt t child labels id?) :
    commasBelow t id?.toList = commasBelow t child.toList := by
  induction labels generalizing id? with
  | nil => rw [show id? = child from h]
  | cons token labels ih =>
      obtain ⟨id, _, next, rfl, _, hnode, hmore⟩ := h
      exact (commasBelow_children ht hnode (by simp) rfl).trans (ih hmore)

theorem Entry.ShownAt.commas (ht : t.Descends) {entry : Entry} (h : entry.ShownAt t id) :
    commasBelow t [id] = entry.commas := by
  cases entry with
  | declaration d =>
      obtain ⟨child, hnode, hvalue⟩ := h
      exact (commasBelow_children ht hnode (by simp) rfl).trans (hvalue.commas ht)
  | labelled s =>
      obtain ⟨head, ids, hlists, hshown, hlabels⟩ := h
      calc commasBelow t [id]
        _ = commasBelow t head.toList := hlabels.commas ht
        _ = commasBelow t ids := commasBelow_of_lists ht hlists
        _ = (s.items.map Item.commas).sum :=
            commasBelow_of_shown hshown fun id i hi => hi.commas ht

end Syntax

namespace Parser

open Syntax

/-- A program about which nothing is reported is a sentence of the grammar, but for lists
of data that are closed by a comma; it is one of the grammar proper just if no comma
dangles.  All commas that do not dangle are found in the tree: the walk lists what the root
leads to, each node once, and they stand in front of an index register or between values
of a list. -/
theorem program_isSentence (limit : Nat) (ts : List Token)
    (hreports : (program limit ts).diagnostics = []) :
    let tree := (program limit ts).tree
    let ks := kinds (ts.takeWhile TokenStream.isProper)
    ks ∈ Grammar.program (1 + one .comma) ∧ (ks ∈ Grammar.program 1 ↔ dangling ks = 0) ∧
      (∀ id, id ∈ tree.walk ↔ tree.Reaches id) ∧ tree.walk.Nodup ∧
      ks.count .comma = (tree.walk.map fun id => commasOf tree (tree.kind id)).sum + dangling ks := by
  intro tree ks
  have hunshared := program_unshared limit ts
  obtain ⟨_, s', account, _, _, hprogram, haccount, hahead⟩ := program_accounts limit ts
  have hnone : account.flatMap Statement.reports = [] := by
    rw [← haccount.diagnostics_eq, ← hreports, hprogram]
  have htokens : ks = kinds (account.flatMap Statement.tokens) := by
    show kinds _ = _
    rw [haccount.tokens_eq, hahead, List.append_nil]
  have haccepted := accepted_account hnone haccount.shows.canonical
  rw [← htokens] at haccepted
  refine ⟨haccepted.licensed, ⟨dangling_of_mem_program, haccepted.proper⟩,
    fun _ => hunshared.mem_walk_iff, hunshared.nodup_walk, ?_⟩
  have htree : tree = s'.tree := by
    show (program limit ts).tree = _
    rw [hprogram]
  have hitems : commasBelow s'.tree s'.tree.items =
      ((account.filterMap Statement.entry?).map Entry.commas).sum :=
    commasBelow_of_shown haccount.shows.shown fun id entry h => h.commas haccount.shows.descends
  have hroot : commasOf s'.tree (s'.tree.kind 0) = 0 := by
    rw [haccount.shows.rooted.kind_eq]
    rfl
  rw [haccepted.commas, ← hitems, htree, Tree.walk_eq, List.map_cons, List.sum_cons, hroot,
    Nat.zero_add]
  rfl

/-- An indexed operand, and a list of two values. -/
def separatedTokens : List Token :=
  [⟨.label, "d:", ⟨1, 1⟩⟩, ⟨.instruction .lda, "lda", ⟨2, 3⟩⟩, ⟨.name, "d", ⟨2, 7⟩⟩,
    ⟨.comma, ",", ⟨2, 8⟩⟩, ⟨.xReg, "x", ⟨2, 9⟩⟩, ⟨.dataBytes, ".db", ⟨3, 3⟩⟩,
    ⟨.hexConst, "$01", ⟨3, 7⟩⟩, ⟨.comma, ",", ⟨3, 10⟩⟩, ⟨.hexConst, "$02", ⟨3, 12⟩⟩]

/-- No comma dangles in it, so both of its commas are in the tree. -/
theorem program_isSentence_separatedTokens :
    let tree := (program 1 separatedTokens).tree
    (program 1 separatedTokens).diagnostics = [] ∧
      kinds separatedTokens ∈ Grammar.program 1 ∧
      2 = (tree.walk.map fun id => commasOf tree (tree.kind id)).sum := by
  have hreports : (program 1 separatedTokens).diagnostics = [] := by decide +kernel
  obtain ⟨_, hproper, _, _, hcommas⟩ := program_isSentence 1 separatedTokens hreports
  exact ⟨hreports, hproper.2 (by decide +kernel), hcommas⟩

/-- A list of data that is closed by a comma. -/
def closedTokens : List Token :=
  [⟨.label, "d:", ⟨1, 1⟩⟩, ⟨.dataBytes, ".db", ⟨2, 3⟩⟩, ⟨.hexConst, "$01", ⟨2, 7⟩⟩,
    ⟨.comma, ",", ⟨2, 10⟩⟩]

/-- Nothing is reported about it, but it is no sentence of the grammar proper, and its comma
is not in the tree. -/
theorem closedTokens_not_mem :
    let tree := (program 1 closedTokens).tree
    (program 1 closedTokens).diagnostics = [] ∧ kinds closedTokens ∉ Grammar.program 1 ∧
      (kinds closedTokens).count .comma = 1 ∧
      (tree.walk.map fun id => commasOf tree (tree.kind id)).sum = 0 := by
  refine ⟨by decide +kernel, ?_, by decide +kernel, by decide +kernel⟩
  intro hmem
  have hnone := dangling_of_mem_program hmem
  revert hnone
  decide +kernel

end Parser

end Asm6502
