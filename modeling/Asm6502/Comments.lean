import Std.Data.TreeMap.Lemmas

/-!
# The comments of a source text

A comment table keeps one comment for each line on which a comment starts.
Whoever prints a line of the source may *claim* its comment; a claimed comment
leaves the table, so that it is never attached to a second place.

The view of a table is the look-up `at?`, and every operation is described by
what it does to that view.

## Main results

* `at?_record`, `at?_erase`, `at?_empty` — the operations through the view.
* `claim_fst`, `claim_snd` — claiming answers the look-up and erases the line.
-/

namespace Asm6502

/-- At most one comment for each line. -/
structure Comments where
  entries : Std.TreeMap Nat String

namespace Comments

/-- No comments. -/
def empty : Comments := ⟨∅⟩

instance : Inhabited Comments := ⟨empty⟩

/-- Forgets all comments, before those of another text are recorded. -/
def reset (_ : Comments) : Comments := empty

/-- The comment of `line`, if the table still has it. -/
def at? (t : Comments) (line : Nat) : Option String := t.entries[line]?

/-- The table with the comment of `line` set to `text`, whatever was there. -/
def record (t : Comments) (line : Nat) (text : String) : Comments :=
  ⟨t.entries.insert line text⟩

/-- The table without the comment of `line`. -/
def erase (t : Comments) (line : Nat) : Comments := ⟨t.entries.erase line⟩

/-- Takes the comment of `line` out of the table. -/
def claim (t : Comments) (line : Nat) : Option String × Comments :=
  (t.at? line, t.erase line)

/-- The number of lines that have a comment. -/
def size (t : Comments) : Nat := t.entries.size

/-- The lines that have a comment, in ascending order, with their comments. -/
def toList (t : Comments) : List (Nat × String) := t.entries.toList

/-- Records several comments, in the order of the list. -/
def recordAll (t : Comments) (found : List (Nat × String)) : Comments :=
  found.foldl (fun t e => t.record e.1 e.2) t

/-! ## The operations through the view -/

@[simp] theorem at?_empty (line : Nat) : empty.at? line = none := by
  simp [at?, empty]

@[grind =] theorem at?_record (t : Comments) (line : Nat) (text : String) (k : Nat) :
    (t.record line text).at? k = if line = k then some text else t.at? k := by
  simp [at?, record, Std.TreeMap.getElem?_insert]

@[grind =] theorem at?_erase (t : Comments) (line k : Nat) :
    (t.erase line).at? k = if line = k then none else t.at? k := by
  simp [at?, erase, Std.TreeMap.getElem?_erase]

@[simp] theorem claim_fst (t : Comments) (line : Nat) : (t.claim line).1 = t.at? line := rfl

@[simp] theorem claim_snd (t : Comments) (line : Nat) : (t.claim line).2 = t.erase line := rfl

end Comments

end Asm6502
