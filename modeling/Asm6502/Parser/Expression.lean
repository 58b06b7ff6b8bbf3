import Asm6502.Parser.State

/-!
# Expressions and operands

An expression is a chain of primaries joined by plus and minus signs, which
group to the left. A primary is a name, a numeral, an expression in parentheses,
or an expression behind a number sign, a less sign or a greater sign. Such a sign
applies to the whole chain behind it.

Expressions nest up to a limit. The parser of an expression is given by recursion
on the levels left, so it ends whatever the tokens are; the chain on one level
ends because each link of it passes a token.

An operand is an expression, which a comma and an index register may follow.

A parser here answers `none`, and reads nothing, where no expression starts.
-/

namespace Asm6502.Parser

/-- The operator between two primaries that a token stands for. -/
def sumOperator? : Token.Kind → Option SumOperator
  | .plus => some .add
  | .minus => some .subtract
  | _ => none

/-- The index that a register adds to an operand. -/
def indexWrapper? : Token.Kind → Option Wrapper
  | .xReg => some .indexedX
  | .yReg => some .indexedY
  | _ => none

/-- An expression that has to be there, because `after` stands in front of it. -/
def required (expression : Parser (Option NodeId)) (after : Token) : Parser NodeId := do
  match ← expression with
  | some id => return id
  | none => throw (.noExpression after.text (← current).position)

/-- A node for the current token alone. -/
def leaf (kind : Node.Kind) : Parser (Option NodeId) := do
  let token ← current
  advance
  return some (← add kind token.line)

/-- A sign and the expression that it applies to. -/
def signed (expression : Parser (Option NodeId)) (wrapper : Wrapper) :
    Parser (Option NodeId) := do
  let sign ← current
  advance
  let child ← required expression sign
  return some (← add (.wrap wrapper child) sign.line)

/-- An expression in parentheses. -/
def parenthesised (expression : Parser (Option NodeId)) : Parser (Option NodeId) := do
  let opening ← current
  advance
  let child ← required expression opening
  let _ ← expect .parenRight
  return some (← add (.wrap .indirect child) opening.line)

/-- A primary, in which `expression` reads what lies one level deeper. -/
def primary (expression : Parser (Option NodeId)) : Parser (Option NodeId) := do
  let token ← current
  match token.kind with
  | .name => leaf (.name token.text)
  | .hexConst | .binConst | .decConst => leaf (.const token.text)
  | .hash => signed expression .immediate
  | .less => signed expression .loByte
  | .greater => signed expression .hiByte
  | .parenLeft => parenthesised expression
  | _ => return none

/-- The rest of a chain behind its part `left`, of at most as many links as the bound
has tokens. -/
def sumRest (expression : Parser (Option NodeId)) : List Token → NodeId → Parser NodeId
  | [], left => pure left
  | _ :: bound, left => do
    let token ← current
    match sumOperator? token.kind with
    | none => return left
    | some operator =>
      advance
      let right ← required (primary expression) token
      let whole ← add (.sum operator left right) (← lineOf left)
      sumRest expression bound whole

/-- A chain of primaries. -/
def sum (expression : Parser (Option NodeId)) : Parser (Option NodeId) := do
  match ← primary expression with
  | none => return none
  | some left => return some (← sumRest expression (← ahead) left)

/-- An expression where the given number of levels is left of the limit. -/
def expression (limit : Nat) : Nat → Parser (Option NodeId)
  | 0 => fun s => .error (.tooDeep limit s.current.position) s
  | levels + 1 => fun s => sum (expression limit levels) s

/-- An expression, optionally indexed. -/
def operand (limit : Nat) : Parser (Option NodeId) := do
  match ← expression limit limit with
  | none => return none
  | some id =>
    if (← current).kind = .comma then
      advance
      let register ← current
      match indexWrapper? register.kind with
      | none => throw (.unexpected "index register x or y" register)
      | some wrapper =>
        advance
        return some (← add (.wrap wrapper id) (← lineOf id))
    else
      return some id

end Asm6502.Parser
