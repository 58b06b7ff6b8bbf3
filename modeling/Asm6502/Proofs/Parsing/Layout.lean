import Asm6502.Proofs.Parsing.Runs
import Asm6502.Proofs.Parsing.Syntax

/-!
# Laying a program out in lines

A program can be written down in many ways, of which some are read otherwise.  An
instruction without an operand takes the next expression on its line for one, and
labels without a block chain up with the labels behind them.  The layout here
avoids both.  Every chain of labels, every item of a block and every declaration
has a line of its own, and behind labels without a block stands a line with a
directive, which leaves no trace in the tree but ends the chain.

`LaidOut` says which lines a program has, and `OnOwnLines` that the tokens stand
accordingly.  How the lines are numbered, and where on its line a token stands, is
left open.

## Main results

* `LaidOut.startsEntry` — where the lines of a program start, an entry starts.
* `LaidOut.proper` — none of its tokens is an end.
-/

namespace Asm6502.Syntax

/-! ## Canonical programs -/

/-- A label as it is written: the name that it declares, and a colon. -/
def IsLabelToken (t : Token) : Prop := t.kind = .label ∧ t.text = t.declaredName ++ ":"

instance (t : Token) : Decidable (IsLabelToken t) :=
  inferInstanceAs (Decidable (t.kind = .label ∧ t.text = t.declaredName ++ ":"))

instance Expression.decidableCanonical : (e : Expression) → Decidable e.Canonical
  | name _ _ | const _ _ => .isTrue trivial
  | signed _ _ _ body => decidableCanonical body
  | parens _ _ body _ _ => decidableCanonical body
  | sum left _ _ _ right =>
    have := decidableCanonical left
    have := decidableCanonical right
    inferInstanceAs (Decidable (left.Canonical ∧ right.Canonical ∧ left.isOpen = false ∧
      right.isSum = false))

namespace Item

/-- Whether a data directive ends with a comma that nothing stands behind. -/
def endsWithComma : Item → Bool
  | instruction _ _ _ _ => false
  | data _ _ _ _ _ trailing => trailing.isSome

/-- An item of canonical expressions, none of which is missing. -/
structure Canonical (i : Item) : Prop where
  expressions : ∀ e ∈ i.expressions, e.Canonical
  complete : i.endsWithComma = false

instance (i : Item) : Decidable i.Canonical :=
  decidable_of_iff ((∀ e ∈ i.expressions, e.Canonical) ∧ i.endsWithComma = false)
    ⟨fun h => ⟨h.1, h.2⟩, fun h => ⟨h.expressions, h.complete⟩⟩

end Item

namespace Entry

/-- The labels are labels indeed, and everything else is canonical. -/
def Canonical : Entry → Prop
  | declaration d => d.value.Canonical
  | labelled s => (∀ t ∈ s.heading :: s.nested, IsLabelToken t) ∧ ∀ i ∈ s.items, i.Canonical

instance : (entry : Entry) → Decidable entry.Canonical
  | declaration d => inferInstanceAs (Decidable d.value.Canonical)
  | labelled s =>
    inferInstanceAs (Decidable ((∀ t ∈ s.heading :: s.nested, IsLabelToken t) ∧
      ∀ i ∈ s.items, i.Canonical))

theorem Canonical.expressions {entry : Entry} (h : entry.Canonical) :
    ∀ e ∈ entry.expressions, e.Canonical := by
  intro e he
  cases entry with
  | declaration d =>
      rw [List.mem_singleton.1 he]
      exact h
  | labelled s =>
      obtain ⟨i, hi, he⟩ := List.mem_flatMap.1 he
      exact (h.2 i hi).expressions e he

/-- What is reported about an entry. -/
def reports : Entry → List Diagnostic
  | declaration _ => []
  | labelled s => s.items.flatMap Item.reports

end Entry

/-! ## Lines -/

/-- The program is written in these lines. -/
inductive LaidOut : List Entry → List (List Token) → Prop where
  | done : LaidOut [] []
  | declaration {d : Declaration} {p : List Entry} {lines : List (List Token)}
      (more : LaidOut p lines) : LaidOut (.declaration d :: p) (d.tokens :: lines)
  /-- Labels in front of a block. -/
  | block {s : Section} {p : List Entry} {lines : List (List Token)} (hitems : s.items ≠ [])
      (more : LaidOut p lines) :
      LaidOut (.labelled s :: p)
        ((s.heading :: s.nested) :: (s.items.map Item.tokens ++ lines))
  /-- Labels without a block, and the directive that ends the chain. -/
  | bare {s : Section} {p : List Entry} {lines : List (List Token)} {gap : Token}
      (hitems : s.items = []) (hgap : gap.kind = .directive) (more : LaidOut p lines) :
      LaidOut (.labelled s :: p) ((s.heading :: s.nested) :: [gap] :: lines)

/-- The tokens of a line stand on one line of the text, and what follows does not. -/
def OnOwnLines : List (List Token) → Prop
  | [] => True
  | l :: ls =>
    (∃ n, (∀ t ∈ l, t.line = n) ∧ ∀ t ∈ ls.flatten.head?, t.line ≠ n) ∧ OnOwnLines ls

theorem OnOwnLines.of_append {before lines : List (List Token)}
    (h : OnOwnLines (before ++ lines)) : OnOwnLines lines := by
  induction before with
  | nil => exact h
  | cons l before ih => exact ih h.2

/-- Every entry has a line, and no line is empty. -/
theorem LaidOut.length_le {p : List Entry} {lines : List (List Token)} (h : LaidOut p lines) :
    p.length ≤ lines.flatten.length := by
  induction h with
  | done => exact Nat.le_refl _
  | declaration _ ih =>
      simp only [List.flatten_cons, Declaration.tokens, List.length_append, List.length_cons]
      omega
  | block _ _ ih =>
      simp only [List.flatten_cons, List.flatten_append, List.length_append, List.length_cons]
      omega
  | bare _ _ _ ih =>
      simp only [List.flatten_cons, List.length_append, List.length_cons]
      omega

/-! ## First tokens -/

/-- No token, or those that an entry starts with. -/
def StartsEntry : List Token → Prop
  | [] => True
  | t :: ts => t.kind = .label ∨ t.kind = .name ∧ ∃ equals more, ts = equals :: more ∧
      equals.kind = .equals

theorem eq_of_markerWidth? {k : Token.Kind} {width : DataWidth} (h : markerWidth? k = some width) :
    k = .dataBytes ∨ k = .dataWords := by
  cases k with
  | dataBytes => exact .inl rfl
  | dataWords => exact .inr rfl
  | _ => cases h

/-- The first token of an item is a mnemonic or a data marker. -/
theorem Item.exists_tokens_eq_cons (i : Item) : ∃ t ts, i.tokens = t :: ts ∧ t.line = i.line ∧
    ((∃ m, t.kind = .instruction m) ∨ t.kind = .dataBytes ∨ t.kind = .dataWords) := by
  cases i with
  | instruction t mnemonic isMnemonic arguments =>
      exact ⟨t, arguments.tokens, rfl, rfl, .inl ⟨mnemonic, isMnemonic⟩⟩
  | data marker width isMarker first further trailing =>
      exact ⟨marker, _, rfl, rfl, .inr (eq_of_markerWidth? isMarker)⟩

theorem LaidOut.startsEntry {p : List Entry} {lines : List (List Token)} (h : LaidOut p lines)
    (hp : ∀ entry ∈ p, entry.Canonical) : StartsEntry lines.flatten := by
  have heading {s : Section} {p : List Entry} (hp : ∀ entry ∈ .labelled s :: p, entry.Canonical) :
      s.heading.kind = .label := ((hp _ List.mem_cons_self).1 _ List.mem_cons_self).1
  cases h with
  | done => exact trivial
  | @declaration d => exact .inr ⟨d.isName, d.equals, _, rfl, d.isEquals⟩
  | block => exact .inl (heading hp)
  | bare => exact .inl (heading hp)

/-! ## No end among the tokens -/

/-- None of the tokens is an end. -/
def Proper (ts : List Token) : Prop := ∀ t ∈ ts, t.kind ≠ .eof

namespace Proper

variable {t : Token} {ts us : List Token}

theorem nil : Proper [] := fun _ ht => absurd ht List.not_mem_nil

theorem cons (ht : t.kind ≠ .eof) (hts : Proper ts) : Proper (t :: ts) := by
  intro u hu
  rcases List.mem_cons.1 hu with rfl | hu
  · exact ht
  · exact hts u hu

theorem append (hts : Proper ts) (hus : Proper us) : Proper (ts ++ us) := by
  intro u hu
  rcases List.mem_append.1 hu with hu | hu
  · exact hts u hu
  · exact hus u hu

theorem flatMap {α : Type} {f : α → List Token} {xs : List α} (h : ∀ x ∈ xs, Proper (f x)) :
    Proper (xs.flatMap f) := by
  intro u hu
  obtain ⟨x, hx, hu⟩ := List.mem_flatMap.1 hu
  exact h x hx u hu

end Proper

theorem proper_of_interior {ts : List Token} (h : Parser.Interior ts) : Proper ts :=
  fun t ht => (h t ht).1

theorem LaidOut.proper {p : List Entry} {lines : List (List Token)} (h : LaidOut p lines)
    (hp : ∀ entry ∈ p, entry.Canonical) : Proper lines.flatten := by
  have labels {s : Section} {p : List Entry}
      (hp : ∀ entry ∈ .labelled s :: p, entry.Canonical) : Proper (s.heading :: s.nested) := by
    intro t ht
    rw [((hp _ List.mem_cons_self).1 t ht).1]
    decide
  have tail {entry : Entry} {p : List Entry} (hp : ∀ e ∈ entry :: p, e.Canonical) :
      ∀ e ∈ p, e.Canonical := fun e he => hp e (List.mem_cons_of_mem _ he)
  induction h with
  | done => exact .nil
  | @declaration d p lines _ ih =>
      have hname : d.name.kind ≠ .eof := by rw [d.isName]; decide
      have hequals : d.equals.kind ≠ .eof := by rw [d.isEquals]; decide
      have hvalue := proper_of_interior d.value.interior
      exact .append (.cons hname (.cons hequals hvalue)) (ih (tail hp))
  | @block s p lines _ _ ih =>
      rw [List.flatten_cons, List.flatten_append, ← List.flatMap_def]
      have hitems : ∀ i ∈ s.items, Proper i.tokens := fun i _ => proper_of_interior i.interior
      exact (labels hp).append (.append (.flatMap hitems) (ih (tail hp)))
  | bare _ hgap _ ih =>
      exact (labels hp).append (.cons (by rw [hgap]; decide) (ih (tail hp)))

end Asm6502.Syntax
