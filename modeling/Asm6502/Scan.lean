import Asm6502.Comments
import Asm6502.Lexeme

/-!
# Scanning a source text

A scan splits a text into lexemes from left to right and gives each one the
position of its first character. It stops at the end of the text, or in front of
the first character that can start no lexeme.

Everything a text means lexically is read off its scan: the comments with the
lines they start on, the tokens, and the error, if scanning stopped early. The
comments in front of an error count, the tokens do not.

A dialect may drop the addressing prefixes `z:` and `a:`, which some tools write
in front of operands and which look exactly like labels. Dropping them is a
filter on the tokens and changes nothing else.

## Main results

* `scanFrom_of_next?_eq_some`, `scanFrom_of_next?_eq_none` — the two equations of
  scanning; the accumulator of `scanOnto` is invisible.
* `scanFrom_append_rest` — the pieces and the unread rest make up the text.
-/

namespace Asm6502

/-- A lexeme and the position of its first character. -/
structure Piece where
  lexeme : Lexeme
  position : Position
  deriving DecidableEq, Repr

namespace Piece

/-- The token whose text the piece is, if it is one. -/
def token? (x : Piece) : Option Token :=
  match x.lexeme.kind with
  | .token k => some ⟨k, String.ofList x.lexeme.text, x.position⟩
  | .blank | .comment => none

/-- The line and the text of the comment, if the piece is one. -/
def comment? (x : Piece) : Option (Nat × String) :=
  match x.lexeme.kind with
  | .comment => some (x.position.line, String.ofList x.lexeme.text)
  | .blank | .token _ => none

end Piece

/-- The pieces of a text, the position where scanning stopped, and the text that
was left there. -/
structure Scan where
  pieces : List Piece
  stop : Position
  rest : List Char
  deriving DecidableEq, Repr

/-- Scans the text `cs` that starts at `p`, after the pieces `done`, of which the
last comes first. -/
def scanOnto (done : List Piece) (p : Position) (cs : List Char) : Scan :=
  match _h : Lexeme.next? cs with
  | none => ⟨done.reverse, p, cs⟩
  | some (x, rest) => scanOnto (⟨x, p⟩ :: done) (p.after x.text) rest
termination_by cs.length
decreasing_by exact Lexeme.length_lt_of_next? _h

/-- Scans the text `cs` that starts at `p`. -/
def scanFrom (p : Position) (cs : List Char) : Scan := scanOnto [] p cs

/-- Scans a whole text. -/
def scan (text : String) : Scan := scanFrom .start text.toList

/-! ## The equations of scanning -/

/-- A scan with more pieces in front. -/
def Scan.prepend (before : List Piece) (s : Scan) : Scan :=
  { s with pieces := before ++ s.pieces }

theorem scanOnto_of_eq_none {done : List Piece} {p : Position} {cs : List Char}
    (h : Lexeme.next? cs = none) : scanOnto done p cs = ⟨done.reverse, p, cs⟩ := by
  rw [scanOnto]
  split
  next => rfl
  next x rest h' => rw [h] at h'; cases h'

theorem scanOnto_of_eq_some {done : List Piece} {p : Position} {cs rest : List Char}
    {x : Lexeme} (h : Lexeme.next? cs = some (x, rest)) :
    scanOnto done p cs = scanOnto (⟨x, p⟩ :: done) (p.after x.text) rest := by
  rw [scanOnto]
  split
  next h' => rw [h] at h'; cases h'
  next x' rest' h' => rw [h] at h'; cases h'; rfl

/-- The pieces handed to `scanOnto` end up in front, in reading order. -/
theorem scanOnto_eq_prepend (done : List Piece) (p : Position) (cs : List Char) :
    scanOnto done p cs = (scanFrom p cs).prepend done.reverse := by
  unfold scanFrom
  induction cs using Lexeme.text_induction generalizing done p with
  | stuck cs h => simp [scanOnto_of_eq_none h, Scan.prepend]
  | split cs x rest h ih =>
    rw [scanOnto_of_eq_some h, scanOnto_of_eq_some h, ih, ih [_]]
    simp [Scan.prepend]

theorem scanFrom_of_next?_eq_none {p : Position} {cs : List Char}
    (h : Lexeme.next? cs = none) : scanFrom p cs = ⟨[], p, cs⟩ :=
  scanOnto_of_eq_none h

theorem scanFrom_of_next?_eq_some {p : Position} {cs rest : List Char} {x : Lexeme}
    (h : Lexeme.next? cs = some (x, rest)) :
    scanFrom p cs = (scanFrom (p.after x.text) rest).prepend [⟨x, p⟩] := by
  rw [scanFrom, scanOnto_of_eq_some h, scanOnto_eq_prepend]
  rfl

/-- Nothing of the text is lost: the pieces, in order, and the unread rest. -/
theorem scanFrom_append_rest (p : Position) (cs : List Char) :
    (scanFrom p cs).pieces.flatMap (·.lexeme.text) ++ (scanFrom p cs).rest = cs := by
  induction cs using Lexeme.text_induction generalizing p with
  | stuck cs h => simp [scanFrom_of_next?_eq_none h]
  | split cs x rest h ih =>
    have hrest := ih (p.after x.text)
    simp [scanFrom_of_next?_eq_some h, Scan.prepend, List.append_assoc, hrest,
      Lexeme.append_of_next? h]

/-! ## What a scan tells -/

/-- The lexical choices a user has. -/
structure Dialect where
  /-- Whether `z:` and `a:` are dropped instead of being read as labels. -/
  dropsPrefixes : Bool := true
  deriving DecidableEq, Repr, Inhabited

/-- Whether the dialect drops the token: it looks like a label, but is one of the
two addressing prefixes. -/
def Dialect.drops (d : Dialect) (t : Token) : Bool :=
  d.dropsPrefixes && t.kind == .label && (t.text == "z:" || t.text == "a:")

/-- A character that can start no lexeme, and its position. -/
structure LexicalError where
  found : Char
  position : Position
  deriving DecidableEq, Repr

/-- The wording of a lexical error. -/
def LexicalError.message (e : LexicalError) : String :=
  toString e.position ++ ": invalid character '" ++ e.found.toString ++ "'"

namespace Scan

/-- The tokens that the dialect keeps, without the end of the text. -/
def tokens (s : Scan) (d : Dialect) : List Token :=
  (s.pieces.filterMap Piece.token?).filter fun t => !d.drops t

/-- The comments with the lines they start on. -/
def comments (s : Scan) : List (Nat × String) := s.pieces.filterMap Piece.comment?

/-- The character in front of which scanning stopped early, if it did. -/
def error? (s : Scan) : Option LexicalError :=
  s.rest.head?.map fun c => ⟨c, s.stop⟩

/-- All tokens with the end of the text behind them, or the error. -/
def result (s : Scan) (d : Dialect) : Except LexicalError (List Token) :=
  match s.error? with
  | none => .ok (s.tokens d ++ [.endAt s.stop])
  | some e => .error e

end Scan

/-- The tokens of a text, and the table with its comments recorded. The comments
in front of an error are recorded as well. -/
def tokenize (d : Dialect) (text : String) (table : Comments) :
    Except LexicalError (List Token) × Comments :=
  let s := scan text
  (s.result d, table.recordAll s.comments)

end Asm6502
