import Asm6502.Token
import Mathlib.Algebra.GroupWithZero.Nat
import Mathlib.Computability.Language

/-!
# The grammar of programs

What programs are made of, as languages over the kinds of tokens: texts and places play no
part.  A product of languages is one behind the other, a sum is a choice, `1` is nothing at
all and a star is any number of times.  Only expressions nest, so they are the only part
that is told by rules.

Lists of data are separated by commas.  Whether one more comma may close a list is left
open here; the grammar proper is the one where nothing closes it.  A comma at the end of a
list can be told by what follows: something new starts there, or nothing follows at all.
Such commas dangle.

## Main results

* `dangling_append` — commas dangle in front of a new phrase, or in it.
* `dangling_of_mem_program` — in the grammar proper no comma dangles.
-/

namespace Asm6502.Grammar

open scoped Computability

/-! ## The languages -/

/-- One token of the kind. -/
def one (k : Token.Kind) : Language Token.Kind := {[k]}

theorem singleton_mem_one (k : Token.Kind) : [k] ∈ one k := rfl

/-- What nests. -/
inductive Nonterminal where
  | expression
  | primary

/-- The rules of what nests: an expression is primaries with plus or minus signs between
them. -/
inductive Derives : Nonterminal → List Token.Kind → Prop where
  | first {ks : List Token.Kind} (h : Derives .primary ks) : Derives .expression ks
  | more {ks ks' : List Token.Kind} {sign : Token.Kind} (h : Derives .expression ks)
      (hsign : sign = .plus ∨ sign = .minus) (h' : Derives .primary ks') :
      Derives .expression (ks ++ sign :: ks')
  | name : Derives .primary [.name]
  | constant {k : Token.Kind} (hk : k.isConstant = true) : Derives .primary [k]
  | signed {sign : Token.Kind} {ks : List Token.Kind}
      (hsign : sign = .hash ∨ sign = .less ∨ sign = .greater) (h : Derives .expression ks) :
      Derives .primary (sign :: ks)
  | parens {ks : List Token.Kind} (h : Derives .expression ks) :
      Derives .primary (.parenLeft :: (ks ++ [.parenRight]))

def expression : Language Token.Kind := {ks | Derives .expression ks}

/-- An expression, optionally indexed. -/
def operand : Language Token.Kind := expression * (1 + one .comma * (one .xReg + one .yReg))

/-- The mnemonics of a class. -/
def mnemonic (c : OperandClass) : Language Token.Kind :=
  {ks | ∃ m : Mnemonic, m.operandClass = c ∧ ks = [.instruction m]}

def instruction : Language Token.Kind :=
  mnemonic .implied + mnemonic .target * one .name +
    (mnemonic .memory + mnemonic .accumulator) * operand + mnemonic .accumulator

/-- A data directive, with what closes its list. -/
def data (closing : Language Token.Kind) : Language Token.Kind :=
  (one .dataBytes + one .dataWords) * (expression * ((one .comma * expression)∗ * closing))

def directive : Language Token.Kind :=
  one .directive * (1 + (one .hexConst + one .binConst + one .decConst))

def declaration : Language Token.Kind := one .name * (one .equals * expression)

/-- An item of a code block, or a directive. -/
def blockPart (closing : Language Token.Kind) : Language Token.Kind :=
  instruction + data closing + directive

def labelSection (closing : Language Token.Kind) : Language Token.Kind :=
  one .label * ((one .label)∗ * (blockPart closing)∗)

def statement (closing : Language Token.Kind) : Language Token.Kind :=
  directive + declaration + labelSection closing

def program (closing : Language Token.Kind) : Language Token.Kind := (statement closing)∗

theorem data_mono {c ks : List Token.Kind} {closing : Language Token.Kind} (hc : c ∈ closing)
    (h : ks ∈ data {c}) : ks ∈ data closing := by
  obtain ⟨marker, hmarker, list, hlist, rfl⟩ := Language.mem_mul.1 h
  obtain ⟨first, hfirst, rest, hrest, rfl⟩ := Language.mem_mul.1 hlist
  obtain ⟨further, hfurther, c', hclosing, rfl⟩ := Language.mem_mul.1 hrest
  rw [show c' = c from hclosing]
  exact Language.append_mem_mul hmarker
    (Language.append_mem_mul hfirst (Language.append_mem_mul hfurther hc))

/-! ## Dangling commas -/

/-- Whether something new starts here, or nothing follows. -/
def fresh : List Token.Kind → Bool
  | [] | .label :: _ | .directive :: _ | .dataBytes :: _ | .dataWords :: _ | .instruction _ :: _
  | .name :: .equals :: _ => true
  | _ => false

/-- The number of commas behind which something new starts, or nothing follows. -/
def dangling : List Token.Kind → Nat
  | [] => 0
  | k :: ks => (if k = .comma ∧ fresh ks = true then 1 else 0) + dangling ks

variable {ks ks' : List Token.Kind}

theorem head?_ne_equals_of_fresh (h : fresh ks = true) : ks.head? ≠ some .equals := by
  cases ks with
  | nil => nofun
  | cons k ks =>
      rintro ⟨⟩
      cases h

/-- What starts behind is of no matter to what starts here. -/
theorem fresh_append (hne : ks ≠ []) (h : ks'.head? ≠ some .equals) :
    fresh (ks ++ ks') = fresh ks := by
  cases ks with
  | nil => exact absurd rfl hne
  | cons k ks =>
      cases k with
      | name =>
          cases ks with
          | nil =>
              cases ks' with
              | nil => rfl
              | cons k' ks' =>
                  cases k' with
                  | equals => exact absurd rfl h
                  | _ => rfl
          | cons k' ks => cases k' <;> rfl
      | _ => rfl

theorem fresh_append_of_fresh (h : fresh ks = true) (h' : fresh ks' = true) :
    fresh (ks ++ ks') = true := by
  by_cases hne : ks = []
  · rw [hne]
    exact h'
  · rw [fresh_append hne (head?_ne_equals_of_fresh h')]
    exact h

/-- Where something new starts, commas dangle in front of it or behind. -/
theorem dangling_append (h : fresh ks' = true) :
    dangling (ks ++ ks') = dangling ks + dangling ks' := by
  induction ks with
  | nil => rw [List.nil_append, dangling, Nat.zero_add]
  | cons k ks ih =>
      have hfresh : fresh (ks ++ ks') = fresh ks := by
        by_cases hne : ks = []
        · rw [hne]
          exact h
        · exact fresh_append hne (head?_ne_equals_of_fresh h)
      rw [List.cons_append, dangling, dangling, ih, hfresh, Nat.add_assoc]

/-- Without commas none dangles. -/
theorem dangling_append_of_not_mem (h : .comma ∉ ks) : dangling (ks ++ ks') = dangling ks' := by
  induction ks with
  | nil => rfl
  | cons k ks ih =>
      have hk : k ≠ .comma := fun hk => h (hk ▸ List.mem_cons_self)
      rw [List.cons_append, dangling, if_neg fun hboth => hk hboth.1, Nat.zero_add,
        ih fun hmem => h (List.mem_cons_of_mem _ hmem)]

/-! ## Expressions -/

/-- Kinds with which an expression can start. -/
def starts : Token.Kind → Bool
  | .name | .hexConst | .binConst | .decConst | .hash | .less | .greater | .parenLeft => true
  | _ => false

/-- Neither a comma nor an equals sign, but something an expression can start with in
front. -/
structure Plain (ks : List Token.Kind) : Prop where
  start : ∃ k more, ks = k :: more ∧ starts k = true
  comma : .comma ∉ ks
  equals : .equals ∉ ks

theorem starts_of_isConstant {k : Token.Kind} (h : k.isConstant = true) :
    starts k = true := by
  cases k with
  | hexConst | binConst | decConst => rfl
  | _ => cases h

namespace Plain

theorem single {k : Token.Kind} (hk : starts k = true) : Plain [k] := by
  refine ⟨⟨k, [], rfl, hk⟩, ?_, ?_⟩
  · intro hmem
    rw [← List.mem_singleton.1 hmem] at hk
    cases hk
  · intro hmem
    rw [← List.mem_singleton.1 hmem] at hk
    cases hk

theorem append (h : Plain ks) (hcomma : .comma ∉ ks') (hequals : .equals ∉ ks') :
    Plain (ks ++ ks') := by
  obtain ⟨⟨k, more, rfl, hk⟩, hc, he⟩ := h
  refine ⟨⟨k, more ++ ks', rfl, hk⟩, ?_, ?_⟩
  · intro hmem
    rcases List.mem_append.1 hmem with hmem | hmem
    · exact hc hmem
    · exact hcomma hmem
  · intro hmem
    rcases List.mem_append.1 hmem with hmem | hmem
    · exact he hmem
    · exact hequals hmem

/-- A comma in front of an expression does not dangle. -/
theorem fresh_eq_false (h : Plain ks) (h' : ks'.head? ≠ some .equals) :
    fresh (ks ++ ks') = false := by
  obtain ⟨⟨k, more, rfl, hk⟩, _, hequals⟩ := h
  rw [fresh_append (List.cons_ne_nil _ _) h']
  cases k with
  | name =>
      cases more with
      | nil => rfl
      | cons k' more =>
          cases k' with
          | equals => exact absurd (List.mem_cons_of_mem _ List.mem_cons_self) hequals
          | _ => rfl
  | hexConst | binConst | decConst | hash | less | greater | parenLeft => rfl
  | _ => cases hk

end Plain

theorem Derives.plain {n : Nonterminal} (h : Derives n ks) : Plain ks := by
  induction h with
  | first _ ih => exact ih
  | @more ks ks' sign _ hsign _ ih ih' =>
      have hother : sign ≠ .comma ∧ sign ≠ .equals := by
        rcases hsign with rfl | rfl
        · exact ⟨nofun, nofun⟩
        · exact ⟨nofun, nofun⟩
      refine ih.append ?_ ?_
      · intro hmem
        rcases List.mem_cons.1 hmem with heq | hmem
        · exact hother.1 heq.symm
        · exact ih'.comma hmem
      · intro hmem
        rcases List.mem_cons.1 hmem with heq | hmem
        · exact hother.2 heq.symm
        · exact ih'.equals hmem
  | name => exact .single rfl
  | constant hk => exact .single (starts_of_isConstant hk)
  | @signed sign ks hsign _ ih =>
      have hstart : starts sign = true := by
        rcases hsign with rfl | rfl | rfl
        · rfl
        · rfl
        · rfl
      exact (Plain.single hstart).append ih.comma ih.equals
  | @parens ks _ ih =>
      have hopening : Plain [.parenLeft] := .single rfl
      have hclosing : Plain (ks ++ [.parenRight]) := ih.append (by simp) (by simp)
      exact hopening.append hclosing.comma hclosing.equals

theorem plain_of_mem_expression (h : ks ∈ expression) : Plain ks := Derives.plain h

/-! ## The grammar proper -/

/-- A phrase that starts something new and in which no comma dangles. -/
structure Settled (ks : List Token.Kind) : Prop where
  fresh : fresh ks = true
  dangling : dangling ks = 0

theorem Settled.append (h : Settled ks) (h' : Settled ks') : Settled (ks ++ ks') where
  fresh := fresh_append_of_fresh h.fresh h'.fresh
  dangling := by rw [dangling_append h'.fresh, h.dangling, h'.dangling]

theorem settled_of_mem_kstar {l : Language Token.Kind} (hl : ∀ ks ∈ l, Settled ks)
    (h : ks ∈ l∗) : Settled ks := by
  obtain ⟨parts, rfl, hparts⟩ := Language.mem_kstar.1 h
  clear h
  induction parts with
  | nil => exact ⟨rfl, rfl⟩
  | cons part parts ih =>
      exact (hl part (hparts part List.mem_cons_self)).append
        (ih fun p hp => hparts p (List.mem_cons_of_mem _ hp))

theorem dangling_of_mem_expression (h : ks ∈ expression) : dangling (ks ++ ks') = dangling ks' :=
  dangling_append_of_not_mem (plain_of_mem_expression h).comma

/-- The comma in front of an index register does not dangle. -/
theorem dangling_of_mem_operand (h : ks ∈ operand) : dangling ks = 0 := by
  obtain ⟨e, he, index, hindex, rfl⟩ := Language.mem_mul.1 h
  rw [dangling_of_mem_expression he]
  rcases hindex with rfl | hindex
  · rfl
  · obtain ⟨_, rfl, _, rfl | rfl, rfl⟩ := Language.mem_mul.1 hindex
    · rfl
    · rfl

theorem settled_of_mem_instruction (h : ks ∈ instruction) : Settled ks := by
  rcases h with ((h | h) | h) | h
  · obtain ⟨m, _, rfl⟩ := h
    exact ⟨rfl, rfl⟩
  · obtain ⟨_, ⟨m, _, rfl⟩, _, rfl, rfl⟩ := Language.mem_mul.1 h
    exact ⟨rfl, rfl⟩
  · obtain ⟨_, ⟨m, _, rfl⟩ | ⟨m, _, rfl⟩, o, ho, rfl⟩ := Language.mem_mul.1 h
    · exact ⟨rfl, (dangling_append_of_not_mem (by simp)).trans (dangling_of_mem_operand ho)⟩
    · exact ⟨rfl, (dangling_append_of_not_mem (by simp)).trans (dangling_of_mem_operand ho)⟩
  · obtain ⟨m, _, rfl⟩ := h
    exact ⟨rfl, rfl⟩

/-- In a list of data only what closes it can dangle. -/
theorem dangling_of_mem_data {c : List Token.Kind} (hc : c.head? ≠ some .equals)
    (h : ks ∈ data {c}) : fresh ks = true ∧ dangling ks = dangling c := by
  obtain ⟨marker, hmarker, list, hlist, rfl⟩ := Language.mem_mul.1 h
  obtain ⟨first, hfirst, rest, hrest, rfl⟩ := Language.mem_mul.1 hlist
  obtain ⟨further, hfurther, c', hclosing, rfl⟩ := Language.mem_mul.1 hrest
  obtain ⟨parts, rfl, hparts⟩ := Language.mem_kstar.1 hfurther
  rw [show c' = c from hclosing]
  have hcommas : (parts.flatten ++ c).head? ≠ some .equals ∧
      dangling (parts.flatten ++ c) = dangling c := by
    clear hfurther hrest hlist h
    induction parts with
    | nil => exact ⟨hc, rfl⟩
    | cons part parts ih =>
        obtain ⟨hhead, hdangling⟩ := ih fun p hp => hparts p (List.mem_cons_of_mem _ hp)
        obtain ⟨_, rfl, e, he, rfl⟩ := Language.mem_mul.1 (hparts part List.mem_cons_self)
        refine ⟨nofun, ?_⟩
        have hfresh := (plain_of_mem_expression he).fresh_eq_false hhead
        have hnext : dangling (e ++ (parts.flatten ++ c)) = dangling (parts.flatten ++ c) :=
          dangling_of_mem_expression he
        rw [List.flatten_cons, List.append_assoc, List.append_assoc, List.singleton_append,
          dangling, hfresh, hnext, hdangling]
        simp
  have hall : dangling (first ++ (parts.flatten ++ c)) = dangling c := by
    rw [dangling_of_mem_expression hfirst, hcommas.2]
  rcases hmarker with rfl | rfl
  · exact ⟨rfl, (dangling_append_of_not_mem (by simp)).trans hall⟩
  · exact ⟨rfl, (dangling_append_of_not_mem (by simp)).trans hall⟩

theorem settled_of_mem_directive (h : ks ∈ directive) : Settled ks := by
  obtain ⟨_, rfl, argument, hargument, rfl⟩ := Language.mem_mul.1 h
  rcases hargument with rfl | (rfl | rfl) | rfl
  · exact ⟨rfl, rfl⟩
  · exact ⟨rfl, rfl⟩
  · exact ⟨rfl, rfl⟩
  · exact ⟨rfl, rfl⟩

theorem settled_of_mem_declaration (h : ks ∈ declaration) : Settled ks := by
  obtain ⟨_, rfl, _, hvalue, rfl⟩ := Language.mem_mul.1 h
  obtain ⟨_, rfl, e, he, rfl⟩ := Language.mem_mul.1 hvalue
  have hnone : dangling (e ++ []) = dangling [] := dangling_of_mem_expression he
  rw [List.append_nil] at hnone
  have hequals : dangling ([.equals] ++ e) = 0 :=
    (dangling_append_of_not_mem (by simp)).trans hnone
  exact ⟨rfl, (dangling_append_of_not_mem (by simp)).trans hequals⟩

theorem settled_of_mem_blockPart (h : ks ∈ blockPart 1) : Settled ks := by
  rcases h with (h | h) | h
  · exact settled_of_mem_instruction h
  · obtain ⟨hfresh, hdangling⟩ := dangling_of_mem_data (c := []) nofun h
    exact ⟨hfresh, hdangling⟩
  · exact settled_of_mem_directive h

theorem settled_of_mem_label (h : ks ∈ one .label) : Settled ks := by
  rw [show ks = [.label] from h]
  exact ⟨rfl, rfl⟩

theorem settled_of_mem_statement (h : ks ∈ statement 1) : Settled ks := by
  rcases h with (h | h) | h
  · exact settled_of_mem_directive h
  · exact settled_of_mem_declaration h
  · obtain ⟨label, hlabel, rest, hrest, rfl⟩ := Language.mem_mul.1 h
    obtain ⟨nested, hnested, parts, hparts, rfl⟩ := Language.mem_mul.1 hrest
    exact (settled_of_mem_label hlabel).append
      ((settled_of_mem_kstar (fun _ => settled_of_mem_label) hnested).append
        (settled_of_mem_kstar (fun _ => settled_of_mem_blockPart) hparts))

/-- In the grammar proper no comma dangles. -/
theorem dangling_of_mem_program (h : ks ∈ program 1) : dangling ks = 0 :=
  (settled_of_mem_kstar (fun _ => settled_of_mem_statement) h).dangling

end Asm6502.Grammar
