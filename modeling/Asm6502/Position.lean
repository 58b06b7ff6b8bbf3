/-!
# Positions in a source text

A position is the line and the column of a character. Both count from one, and
a column counts characters, whatever their width on screen or in memory.

Reading a character moves the position behind it: a line feed starts the next
line, every other character takes one column. A carriage return is an ordinary
character here, so the two line-ending conventions give the same line numbers.

## Main results

* `Position.after_append` — reading two texts in a row is reading their
  concatenation.
* `Position.compare_eq_lt` — the comparison of two positions is the order of
  reading: line first, column second.
-/

namespace Asm6502

/-- The line and the column of a character, both counted from one. -/
structure Position where
  line : Nat
  column : Nat
  deriving DecidableEq, Repr

namespace Position

/-- The first character of a text stands at line one, column one. -/
def start : Position := ⟨1, 1⟩

instance : Inhabited Position := ⟨start⟩

/-- The next column of the same line. -/
def nextColumn (p : Position) : Position := ⟨p.line, p.column + 1⟩

/-- The first column of the next line. -/
def nextLine (p : Position) : Position := ⟨p.line + 1, 1⟩

/-- The position behind the character `c` that stands at `p`. -/
def advance (p : Position) (c : Char) : Position :=
  if c = '\n' then p.nextLine else p.nextColumn

/-- The position behind the text `cs` that starts at `p`. -/
def after (p : Position) (cs : List Char) : Position := cs.foldl advance p

@[simp] theorem after_nil (p : Position) : p.after [] = p := rfl

@[simp] theorem after_cons (p : Position) (c : Char) (cs : List Char) :
    p.after (c :: cs) = (p.advance c).after cs := rfl

theorem after_append (p : Position) (xs ys : List Char) :
    p.after (xs ++ ys) = (p.after xs).after ys := List.foldl_append

/-! ## The order of reading -/

instance : LT Position where
  lt p q := p.line < q.line ∨ p.line = q.line ∧ p.column < q.column

instance (p q : Position) : Decidable (p < q) :=
  inferInstanceAs (Decidable (p.line < q.line ∨ p.line = q.line ∧ p.column < q.column))

/-- Lines decide first; on one line the columns do. -/
def order (p q : Position) : Ordering :=
  (compare p.line q.line).then (compare p.column q.column)

instance : Ord Position := ⟨order⟩

theorem compare_eq_lt {p q : Position} : compare p q = .lt ↔ p < q := by
  show (compare p.line q.line).then (compare p.column q.column) = .lt ↔
    p.line < q.line ∨ p.line = q.line ∧ p.column < q.column
  rw [Ordering.then_eq_lt, Nat.compare_eq_lt, Nat.compare_eq_eq, Nat.compare_eq_lt]

/-- Every character read leads further into the text. -/
theorem lt_advance (p : Position) (c : Char) : p < p.advance c := by
  show p.line < (p.advance c).line ∨
    p.line = (p.advance c).line ∧ p.column < (p.advance c).column
  unfold advance
  split
  · exact .inl (Nat.lt_succ_self _)
  · exact .inr ⟨rfl, Nat.lt_succ_self _⟩

/-- A position is written `line:column`. -/
instance : ToString Position where
  toString p := toString p.line ++ ":" ++ toString p.column

end Position

end Asm6502
