import Asm6502.Scan

/-!
# Reading one token at a time

A cursor is a place in a source text. `Cursor.next` reads the token there and
leaves the cursor behind it, recording the comments it passes. Two places are
never left: the end of the text, which is read as the end token again and again,
and a character that can start no lexeme, which is the same error each time.

Reading token by token gives what scanning the whole text gives.
-/

namespace Asm6502

/-- A place in a text: its position and the text from there on. -/
structure Cursor where
  position : Position
  rest : List Char
  deriving DecidableEq, Repr

namespace Cursor

/-- The first character of a text. -/
def start (text : String) : Cursor := ⟨.start, text.toList⟩

/-- What is read at a place where no lexeme starts. -/
def halt (c : Cursor) : Except LexicalError Token :=
  match c.rest with
  | [] => .ok (.endAt c.position)
  | found :: _ => .error ⟨found, c.position⟩

/-- Reads the next token that the dialect keeps. Answers the token or the error,
the cursor behind it, and the table with the comments passed on the way. -/
def next (d : Dialect) (c : Cursor) (table : Comments) :
    Except LexicalError Token × Cursor × Comments :=
  match _h : Lexeme.next? c.rest with
  | none => (c.halt, c, table)
  | some (x, rest) =>
    let behind : Cursor := ⟨c.position.after x.text, rest⟩
    let piece : Piece := ⟨x, c.position⟩
    let table := table.recordAll piece.comment?.toList
    match piece.token? with
    | some t => if d.drops t then behind.next d table else (.ok t, behind, table)
    | none => behind.next d table
termination_by c.rest.length
decreasing_by all_goals exact Lexeme.length_lt_of_next? _h

/-- The first `n` answers of repeated reading. -/
def take (d : Dialect) : Nat → Cursor → Comments → List (Except LexicalError Token)
  | 0, _, _ => []
  | n + 1, c, table =>
    let (answer, behind, table) := c.next d table
    answer :: take d n behind table

end Cursor

end Asm6502
