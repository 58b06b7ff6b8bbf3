import Asm6502.Mnemonic
import Asm6502.Position

/-!
# Tokens

A token is a lexical unit of a source text: its kind, its text exactly as
written, and the position of its first character. Comments and blanks are no
tokens. The end of the text counts as a token of its own kind, so that a reader
of tokens always has a current one.
-/

namespace Asm6502

namespace Token

/-- The lexical categories. -/
inductive Kind where
  /-- The end of the text. -/
  | eof
  /-- A dotted word other than the two data markers. -/
  | directive
  /-- An identifier, or a quoted string taken as an opaque name. -/
  | name
  /-- An identifier with a colon directly behind it. -/
  | label
  /-- The data marker `.db`. -/
  | dataBytes
  /-- The data marker `.dw`. -/
  | dataWords
  /-- A dollar sign and hexadecimal digits. -/
  | hexConst
  /-- A percent sign and binary digits. -/
  | binConst
  /-- Decimal digits. -/
  | decConst
  /-- A mnemonic. -/
  | instruction (mnemonic : Mnemonic)
  | equals | comma | hash | plus | minus | less | greater | parenLeft | parenRight
  /-- A colon that is not attached to a name. -/
  | colon
  /-- The index register `x`. -/
  | xReg
  /-- The index register `y`. -/
  | yReg
  deriving DecidableEq, Repr, Inhabited

namespace Kind

/-- The kind of a punctuation character, if it is one. -/
def ofPunctuation? : Char → Option Kind
  | '=' => some .equals
  | ',' => some .comma
  | '#' => some .hash
  | '+' => some .plus
  | '-' => some .minus
  | '<' => some .less
  | '>' => some .greater
  | '(' => some .parenLeft
  | ')' => some .parenRight
  | ':' => some .colon
  | _ => none

/-- The three kinds of numerals. -/
def isConstant : Kind → Bool
  | .hexConst | .binConst | .decConst => true
  | _ => false

/-- How messages speak of a kind: punctuation and data markers are quoted, the
rest is described. -/
def describe : Kind → String
  | .eof => "end of input"
  | .directive => "directive"
  | .name => "name"
  | .label => "label"
  | .dataBytes => "'.db'"
  | .dataWords => "'.dw'"
  | .hexConst => "hex constant"
  | .binConst => "binary constant"
  | .decConst => "decimal constant"
  | .instruction m => "instruction " ++ m.name
  | .equals => "'='"
  | .comma => "','"
  | .hash => "'#'"
  | .plus => "'+'"
  | .minus => "'-'"
  | .less => "'<'"
  | .greater => "'>'"
  | .parenLeft => "'('"
  | .parenRight => "')'"
  | .colon => "':'"
  | .xReg => "register x"
  | .yReg => "register y"

end Kind

end Token

/-- A lexical unit of a source text. -/
structure Token where
  kind : Token.Kind
  /-- The text exactly as written, a label with its colon. -/
  text : String
  /-- Where the first character stands. -/
  position : Position
  deriving DecidableEq, Repr, Inhabited

namespace Token

/-- The line of the first character. -/
def line (t : Token) : Nat := t.position.line

/-- The end of the text, found at `p`. It has no characters. -/
def endAt (p : Position) : Token := ⟨.eof, "", p⟩

/-- The line a token listing shows for a token; the end has no text to quote. -/
def describe (t : Token) : String :=
  toString t.position ++ ": " ++ t.kind.describe ++
    if t.kind = .eof then "" else " '" ++ t.text ++ "'"

/-- The name that a label token or a plain name declares: its text without the
one colon that may end it. -/
def declaredName (t : Token) : String :=
  let cs := t.text.toList
  if cs.getLast? = some ':' then String.ofList cs.dropLast else t.text

end Token

end Asm6502
