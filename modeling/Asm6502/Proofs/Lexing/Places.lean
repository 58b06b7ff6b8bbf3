import Asm6502.Position
import Mathlib.Data.List.Induction

/-!
# The position behind a text

`Position.after` walks over a text character by character.  Read from the start
of a source, the place it reaches can be told without walking: the line is one
more than the number of line feeds passed, and the column is one more than the
number of characters passed since the last of them.

## Main results

* `Position.start_after` — walking and counting agree on every text.
* `Position.lt_after` — a text with at least one character leads further.
* `Position.line_after` — the line feeds of a text tell how many lines it leads down.
-/

namespace Asm6502.Position

/-- The line reached behind the text `before`: one, and one for each line feed. -/
def lineBehind (before : List Char) : Nat := 1 + before.count '\n'

/-- The column reached behind the text `before`: one, and one for each character
since the last line feed, or since the start if there is none. -/
def columnBehind (before : List Char) : Nat :=
  1 + (before.reverse.takeWhile (· != '\n')).length

/-- The position of the character that stands behind the text `before`. -/
def behind (before : List Char) : Position := ⟨lineBehind before, columnBehind before⟩

theorem behind_append_singleton (before : List Char) (c : Char) :
    behind (before ++ [c]) = (behind before).advance c := by
  by_cases hc : c = '\n'
  · subst hc
    simp [behind, lineBehind, columnBehind, advance, nextLine, Nat.add_assoc]
  · simp [behind, lineBehind, columnBehind, advance, nextColumn, hc, Nat.add_assoc]

/-- Walking over a text from the start reaches the place that counting gives. -/
theorem start_after (before : List Char) : start.after before = behind before := by
  induction before using List.reverseRecOn with
  | nil => rfl
  | append_singleton before c ih =>
      rw [after_append, ih, behind_append_singleton]
      rfl

/-- Counting may be interrupted anywhere and gone on with by walking. -/
theorem behind_after (before cs : List Char) :
    (behind before).after cs = behind (before ++ cs) := by
  rw [← start_after, ← start_after, after_append]

protected theorem lt_trans {p q r : Position} (hpq : p < q) (hqr : q < r) : p < r := by
  show p.line < r.line ∨ p.line = r.line ∧ p.column < r.column
  rcases hpq with hline | ⟨hline, hcolumn⟩ <;>
    rcases hqr with hline' | ⟨hline', hcolumn'⟩ <;> omega

protected theorem ne_of_lt {p q : Position} (h : p < q) : p ≠ q := by
  rintro rfl
  rcases h with hline | ⟨_, hcolumn⟩
  · exact Nat.lt_irrefl _ hline
  · exact Nat.lt_irrefl _ hcolumn

theorem lt_after (p : Position) {cs : List Char} (h : cs ≠ []) : p < p.after cs := by
  induction cs generalizing p with
  | nil => exact absurd rfl h
  | cons c cs ih =>
      rw [after_cons]
      by_cases hcs : cs = []
      · subst hcs
        exact lt_advance p c
      · exact Position.lt_trans (lt_advance p c) (ih (p.advance c) hcs)

/-- Each line feed read leads one line down, and nothing else does. -/
theorem line_after (p : Position) (cs : List Char) :
    (p.after cs).line = p.line + cs.count '\n' := by
  induction cs generalizing p with
  | nil => rfl
  | cons c cs ih =>
      rw [after_cons, ih]
      by_cases hc : c = '\n'
      · simp [hc, advance, nextLine, Nat.add_assoc, Nat.add_comm 1]
      · simp [hc, advance, nextColumn]

end Asm6502.Position
