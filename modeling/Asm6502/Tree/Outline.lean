import Asm6502.Comments
import Asm6502.Tree.Walk

/-!
# Outlines

The outline of a tree has one line for each node but the root, in source order,
indented by its level. Four blanks make a level, up to a fixed limit: deeper
levels share that indentation, so the outline of a deep tree stays of linear
size.

A dump is the outline with comments. Labels, declarations, data directives and
instructions claim the comment of the source line they were read from and show
it behind their heading; a claimed comment is gone from the table.

## Main results

* `dump_eq_foldl` — a dump goes through the visits of the walk one after another.
-/

namespace Asm6502

namespace Wrapper

/-- The heading of a wrapped expression. -/
def heading : Wrapper → String
  | .immediate => "immediate:"
  | .indirect => "indirect:"
  | .indexedX => "indexed x:"
  | .indexedY => "indexed y:"
  | .loByte => "low byte:"
  | .hiByte => "high byte:"

end Wrapper

namespace SumOperator

/-- The heading of a sum or a difference. -/
def heading : SumOperator → String
  | .add => "add:"
  | .subtract => "subtract:"

end SumOperator

namespace DataWidth

/-- The heading of a data directive. -/
def heading : DataWidth → String
  | .byte => "data:"
  | .word => "data (16 bit):"

end DataWidth

namespace Node

/-- The heading of a node in an outline; the root has none. -/
def heading? (n : Node) : Option String :=
  match n.kind with
  | .root _ => none
  | .list _ _ => some "list element:"
  | .data width _ => some width.heading
  | .decl name _ => some ("decl: " ++ name ++ " =")
  | .label name _ type => some ("label: " ++ name ++ " [" ++ type.name ++ "]")
  | .name text => some ("name: " ++ text)
  | .const text => some ("constant: " ++ text)
  | .wrap wrapper _ => some wrapper.heading
  | .sum operator _ _ => some operator.heading
  | .instruction m _ =>
    some ("instruction (line " ++ toString n.line ++ ") " ++ toString m.code ++ " "
      ++ m.name ++ ":")

/-- Whether a node claims the comment of its source line. -/
def claimsComment (n : Node) : Bool :=
  match n.kind with
  | .data _ _ | .decl _ _ | .label _ _ _ | .instruction _ _ => true
  | .root _ | .list _ _ | .name _ | .const _ | .wrap _ _ | .sum _ _ _ => false

end Node

namespace Tree

/-- One line of an outline. -/
structure OutlineLine where
  level : Nat
  heading : String
  /-- The source line whose comment is shown behind the heading. -/
  claims : Option Nat
  deriving DecidableEq, Repr

/-- The blanks that one level adds. -/
def indentStep : Nat := 4

/-- The most blanks that a line starts with. -/
def indentLimit : Nat := 256

/-- The blanks in front of a heading at the given level. -/
def indentation (level : Nat) : String :=
  String.ofList (List.replicate (min (indentStep * level) indentLimit) ' ')

/-- A line as it is written, with the comment that it shows, if any. -/
def OutlineLine.render (l : OutlineLine) (comment : Option String) : String :=
  indentation l.level ++ l.heading ++ (comment.map ("  " ++ ·)).getD "" ++ "\n"

/-- The line of a node shown at the given level; none for a root. -/
def outlineLine? (t : Tree) (v : Visit) : Option OutlineLine :=
  let n := t.node v.id
  n.heading?.map fun heading =>
    ⟨v.level, heading, if n.claimsComment then some n.line else none⟩

/-- A text being written and the comments not claimed yet. -/
structure Dump where
  text : String
  unclaimed : Comments

/-- Writes one more line, which claims its comment. -/
def Dump.write (d : Dump) (l : OutlineLine) : Dump :=
  match l.claims with
  | none => { d with text := d.text ++ l.render none }
  | some line =>
    let (comment, left) := d.unclaimed.claim line
    ⟨d.text ++ l.render comment, left⟩

/-- Writes the line of a visit, if it has one. -/
def Dump.visit (t : Tree) (d : Dump) (v : Visit) : Dump :=
  match t.outlineLine? v with
  | none => d
  | some l => d.write l

/-- The outline of the tree, with the comments of the table where they belong, and
the comments that no line claimed. -/
def dump (t : Tree) (comments : Comments) : Dump :=
  t.foldDown (Dump.visit t) ⟨"", comments⟩ t.itemVisits

/-- The outline of the tree without comments. -/
def outline (t : Tree) : String := (t.dump .empty).text

theorem dump_eq_foldl (t : Tree) (comments : Comments) :
    t.dump comments = t.visits.foldl (Dump.visit t) ⟨"", comments⟩ := by
  rw [dump, foldDown_eq_foldl, visits_eq]

end Tree

end Asm6502
