import Asm6502.Parser.Program
import Asm6502.Scan
import Asm6502.Tree.Links

/-!
# Reading a source text

A source text is scanned, its tokens are read as a program, and the parent links
of the tree are made to follow its owners. Only a lexical error makes this fail;
all other problems are diagnostics beside the tree.

The comments are recorded in a table that may have been used before. Reading starts
with a reset of this table, so a text's comments never mix with those of a text read
before it.
-/

namespace Asm6502

/-- How a source text is to be read. -/
structure ReadOptions where
  dialect : Dialect := {}
  /-- How deep signs and parentheses may nest in an expression. -/
  nestingLimit : Nat := Parser.defaultLimit
  deriving DecidableEq, Repr, Inhabited

/-- The wording of a failure to read a text because of a lexical error. -/
def LexicalError.reading (e : LexicalError) : String := "Lexer error: " ++ e.message

/-- Reads a source text, with a table for its comments that may still hold others.
Answers the tree and the diagnostics, or the lexical error, and the comments of the
text, in the latter case those in front of the error. -/
def readInto (o : ReadOptions) (table : Comments) (text : String) :
    Except LexicalError Parser.Outcome × Comments :=
  let (tokens, comments) := tokenize o.dialect text table.reset
  (tokens.map fun ts =>
    let outcome := Parser.program o.nestingLimit ts
    { outcome with tree := outcome.tree.normalize.tree },
   comments)

/-- Reads a source text with a new table. -/
def readSource (o : ReadOptions) (text : String) :
    Except LexicalError Parser.Outcome × Comments :=
  readInto o .empty text

end Asm6502
