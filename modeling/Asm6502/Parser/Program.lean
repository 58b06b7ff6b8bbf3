import Asm6502.Parser.Block

/-!
# Programs

A program is a run of directives, declarations and label sections. A declaration
sets a name to the value of an expression. A section is a label with a code
block; labels that directly follow each other nest, and the innermost one gets
the block.

Reading a program never fails. A statement that cannot be read is reported and
given up, a token that starts no statement is reported and skipped, and a name
with a detached colon is taken for a label, with a warning.

## Why reading ends

Statements are read one after another, and each of them passes at least one
token. The number of statements is bounded beforehand by twice the number of
tokens, the end included; the bound makes reading end by construction, and
reaching it would be reported like any other problem.
-/

namespace Asm6502.Parser

/-- A declaration: a name, an equals sign and an expression. -/
def declaration (limit : Nat) : Parser NodeId := do
  let name ← current
  advance
  let equals ← current
  advance
  let value ← required (expression limit limit) equals
  add (.decl name.text value) name.line

/-- Adds a label for a token, in front of the given child. -/
def addLabel (token : Token) (child : Option NodeId) (s : State) : NodeId × State :=
  s.add (.label token.declaredName child .unclassified) token.line

/-- Reads what follows the label `token`, which has been passed, and adds the label
as an item of the root. -/
def labelSection (limit : Nat) (token : Token) (s : State) : State :=
  let isLabel (t : Token) : Bool := t.kind == .label
  let nested := s.stream.ahead.takeWhile isLabel
  let inner : State :=
    { s with stream := ⟨s.stream.ahead.dropWhile isLabel, s.stream.finish⟩ }
  let (child, s) := nested.foldr
    (fun token (child, s) =>
      let (id, s) := addLabel token child s
      (some id, s))
    (block limit inner)
  let (id, s) := addLabel token child s
  s.pushItem id

/-- Reads one statement, of which at least one token is left. -/
def statement (limit : Nat) (s : State) : State :=
  let token := s.current
  match token.kind with
  | .directive => s.skipDirective
  | .label => labelSection limit token s.advance
  | .name =>
    match s.stream.advance.current.kind with
    | .equals =>
      match declaration limit s with
      | .ok id s => s.pushItem id
      | .error e s => s.recover e
    | .colon =>
      labelSection limit token (s.advance.advance.diagnose (.detachedLabel token))
    | _ => s.skip .strayName
  | _ => s.skip .noStatement

/-- Reads statements to the end of the tokens, with the given number of attempts
left of all. -/
def statements (limit attempts : Nat) : Nat → State → State
  | 0, s =>
    if s.current.kind = .eof then s
    else s.diagnose (.gaveUp s.current.position attempts)
  | left + 1, s =>
    if s.current.kind = .eof then s
    else statements limit attempts left (statement limit s)

/-- What reading a program gives: a tree, which is always usable, and what had to
be reported on the way. -/
structure Outcome where
  tree : Tree
  diagnostics : List Diagnostic
  deriving DecidableEq, Repr

/-- Whether parts of the source may be missing from the tree. -/
def Outcome.hasErrors (o : Outcome) : Bool := o.diagnostics.any Diagnostic.isError

/-- The nesting limit that is used where none is given. -/
def defaultLimit : Nat := 256

/-- Reads the program that a list of tokens is, with expressions nested up to the
limit. -/
def program (limit : Nat) (ts : List Token) : Outcome :=
  let start := State.start ts
  let attempts := 2 * (start.remaining + 1)
  let s := statements limit attempts attempts start
  ⟨s.tree, s.diagnostics.toList⟩

end Asm6502.Parser
