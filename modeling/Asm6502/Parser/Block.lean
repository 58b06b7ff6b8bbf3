import Asm6502.Parser.Expression

/-!
# Code blocks

A code block is a run of instructions and data directives, up to the next label
or declaration. Directives inside a block are passed over, and so is, with a
report, a token that fits nowhere. A failure inside an item ends the block.

What an instruction or a data marker works on stands on its line; only the name
behind a branch may stand on the next one. A missing operand leaves an
instruction without one, and a marker without data leaves no node; both are
reported.
-/

namespace Asm6502.Parser

/-- The operand behind the mnemonic `token`, of the class that the mnemonic
takes. -/
def operandOf (limit : Nat) (token : Token) : OperandClass → Parser (Option NodeId)
  | .implied => return none
  | .memory => do
    let operand ← onLineOf token
    if operand.isNone then
      diagnose (.noOperand token)
    return operand
  | .accumulator => onLineOf token
  | .target => do
    let target ← expect .name
    return some (← add (.name target.text) target.line)
where
  /-- An operand, unless the line of the mnemonic has ended. -/
  onLineOf (token : Token) : Parser (Option NodeId) := do
    if (← current).line = token.line then operand limit else return none

/-- An instruction with the given mnemonic. -/
def instruction (limit : Nat) (m : Mnemonic) : Parser (Option NodeId) := do
  let token ← current
  advance
  let operand ← operandOf limit token m.operandClass
  return some (← add (.instruction m operand) token.line)

/-- The rest of a data list behind the expressions `done`, of which the last comes
first: commas, each with an expression behind it, at most as many as the bound has
tokens. A comma with no expression ends the list. -/
def dataRest (limit : Nat) : List Token → List NodeId → Parser (List NodeId)
  | [], done => return done.reverse
  | _ :: bound, done => do
    if (← current).kind = .comma then
      advance
      match ← expression limit limit with
      | some id => dataRest limit bound (id :: done)
      | none => return done.reverse
    else
      return done.reverse

/-- The expressions of a data directive, as an ordered list. -/
def dataList (limit : Nat) : Parser (Option NodeId) := do
  match ← expression limit limit with
  | none => return none
  | some first => addList (← dataRest limit (← ahead) [first])

/-- A data directive of the given width. -/
def data (limit : Nat) (width : DataWidth) : Parser (Option NodeId) := do
  let marker ← current
  advance
  let values ← if (← current).line = marker.line then dataList limit else pure none
  match values with
  | some head => return some (← add (.data width head) marker.line)
  | none =>
    diagnose (.noData marker)
    return none

/-- The parser of the item that a token of the given kind starts in a code block;
none if it starts none. -/
def item? (limit : Nat) : Token.Kind → Option (Parser (Option NodeId))
  | .instruction m => some (instruction limit m)
  | .dataBytes => some (data limit .byte)
  | .dataWords => some (data limit .word)
  | _ => none

/-- Reads the items of a code block behind the items `done`, of which the last comes
first, in at most as many steps as the bound has tokens. -/
def blockItems (limit : Nat) : List Token → List NodeId → State → List NodeId × State
  | [], done, s => (done.reverse, s)
  | _ :: bound, done, s =>
    if endsBlock s.stream then (done.reverse, s)
    else if s.current.kind = .directive then blockItems limit bound done s.skipDirective
    else match item? limit s.current.kind with
      | none => blockItems limit bound done (s.skip .stall)
      | some item =>
        match item s with
        | .ok found s => blockItems limit bound (found.toList ++ done) s
        | .error e s => (done.reverse, s.recover e)

/-- Reads a code block. Answers the first cell of the list of its items, if it has
any. -/
def block (limit : Nat) (s : State) : Option NodeId × State :=
  let (items, s) := blockItems limit s.stream.ahead [] s
  s.addList items

end Asm6502.Parser
