import Asm6502.Text.Alphabetic
import Asm6502.Text.Numeric

/-!
# Character classes

The classes of characters that decide where a lexeme begins and where it ends.
Below U+0080 each class is a short explicit rule; from there on the two letter
classes follow the Unicode properties, looked up in tables of ranges.

A class is a Boolean function, so it can be handed to `List.takeWhile` and
evaluated on a concrete character.
-/

namespace Asm6502.Text

/-- Whether the code point of `c` lies in one of the closed ranges. -/
def inRanges (ranges : List (Nat × Nat)) (c : Char) : Bool :=
  ranges.any fun r => decide (r.1 ≤ c.toNat ∧ c.toNat ≤ r.2)

/-- The Unicode property Alphabetic. -/
def isAlphabetic (c : Char) : Bool :=
  if c.toNat < 128 then c.isAlpha else inRanges alphabeticRanges c

/-- The Unicode general categories Nd, Nl and No. -/
def isNumeric (c : Char) : Bool :=
  if c.toNat < 128 then c.isDigit else inRanges numericRanges c

/-- A letter or a number of any script. -/
def isAlphanumeric (c : Char) : Bool := isAlphabetic c || isNumeric c

/-- The separators of the language: space, tab, carriage return, line feed.
Other Unicode blanks separate nothing; they are errors. -/
def isBlank (c : Char) : Bool := c == ' ' || c == '\t' || c == '\r' || c == '\n'

/-- What a name may start with: a letter or an underscore. -/
def isWordStart (c : Char) : Bool := isAlphabetic c || c == '_'

/-- What a name may go on with: a letter, a number or an underscore. -/
def isWordChar (c : Char) : Bool := isAlphanumeric c || c == '_'

/-- What a directive goes on with behind its first dot: letters and dots. -/
def isDirectiveChar (c : Char) : Bool := isAlphabetic c || c == '.'

/-- The digits zero and one. -/
def isBinaryDigit (c : Char) : Bool := c == '0' || c == '1'

/-- The hexadecimal digits, in either case. -/
def isHexDigit (c : Char) : Bool :=
  c.isDigit || decide ('a' ≤ c ∧ c ≤ 'f') || decide ('A' ≤ c ∧ c ≤ 'F')

/-- The two characters that open and close a quoted string. -/
def isQuote (c : Char) : Bool := c == '\x22' || c == '\x27'

end Asm6502.Text
