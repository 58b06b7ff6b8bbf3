import Asm6502.Diagnostic
import Asm6502.TokenStream
import Asm6502.Tree.Basic

/-!
# The state of a parser

A parser reads tokens, adds nodes to a tree and reports problems. The state it
works on holds the three: the tokens ahead, the tree so far, and the diagnostics
in the order in which they were reported.

A parser may fail. It then leaves the state as it was at the point of failure:
tokens read stay read, and nodes added stay in the tree, though nothing owns
them. Whoever started the parser reports the failure and seeks the next token
that can start a statement.

## Main results

* `State.resync_startsStatement` — seeking ends at the start of a statement.
-/

namespace Asm6502

namespace Parser

/-! ## Failures -/

/-- Why a parser cannot go on. -/
inductive Failure where
  /-- Another token was expected here. -/
  | unexpected (expected : String) (found : Token)
  /-- An expression has to follow the text `after`. -/
  | noExpression (after : String) (position : Position)
  /-- The expression nests more than `limit` levels deep. -/
  | tooDeep (limit : Nat) (position : Position)
  deriving DecidableEq, Repr

namespace Failure

/-- Where the parser stopped. -/
def position : Failure → Position
  | .unexpected _ found => found.position
  | .noExpression _ position => position
  | .tooDeep _ position => position

/-- What is wrong, without the place. -/
def reason : Failure → String
  | .unexpected expected found => "expected " ++ expected ++ ", found " ++ found.kind.describe
  | .noExpression after _ => "expected expression after '" ++ after ++ "'"
  | .tooDeep limit _ => "expression nested deeper than " ++ toString limit ++ " levels"

/-- The full wording, which starts with the place. -/
def message (e : Failure) : String := toString e.position ++ ": " ++ e.reason

/-- The kind of diagnostic that reports the failure. -/
def kind : Failure → Diagnostic.Kind
  | .unexpected _ _ | .noExpression _ _ => .unexpectedToken
  | .tooDeep _ _ => .nestingTooDeep

/-- The diagnostic that reports the failure. -/
def diagnostic (e : Failure) : Diagnostic := ⟨e.kind, e.position, e.message⟩

@[simp] theorem kind_diagnostic (e : Failure) : e.diagnostic.kind = e.kind := rfl

theorem kind_eq (e : Failure) : e.kind = .unexpectedToken ∨ e.kind = .nestingTooDeep := by
  cases e with
  | unexpected | noExpression => exact .inl rfl
  | tooDeep => exact .inr rfl

end Failure

/-! ## Places where a statement can start -/

/-- Whether the current token clearly starts a statement, or there is none left. A
name does if a colon or an equals sign follows it. -/
def startsStatement (s : TokenStream) : Bool :=
  match s.current.kind with
  | .label | .directive | .eof => true
  | .name => s.advance.current.kind == .colon || s.advance.current.kind == .equals
  | _ => false

/-- Whether the current token ends a code block. Directives do not, a block goes on
behind them. -/
def endsBlock (s : TokenStream) : Bool :=
  s.current.kind != .directive && startsStatement s

/-- The place nearest ahead where a statement can start. -/
def seekStatement (finish : Position) : List Token → TokenStream
  | [] => ⟨[], finish⟩
  | t :: ts =>
    if startsStatement ⟨t :: ts, finish⟩ then ⟨t :: ts, finish⟩ else seekStatement finish ts

/-! ## States -/

/-- What a parser works on. -/
structure State where
  stream : TokenStream
  tree : Tree
  diagnostics : Array Diagnostic
  deriving DecidableEq, Repr

namespace State

/-- In front of the first token, with an empty tree. -/
def start (ts : List Token) : State := ⟨.ofTokens ts, .empty, #[]⟩

/-- The token to be read next. -/
def current (s : State) : Token := s.stream.current

/-- The number of tokens ahead. -/
def remaining (s : State) : Nat := s.stream.length

/-- Passes the current token. -/
def advance : State → State
  | ⟨stream, tree, diagnostics⟩ => ⟨stream.advance, tree, diagnostics⟩

/-- Reports a problem. -/
def diagnose (d : Diagnostic) : State → State
  | ⟨stream, tree, diagnostics⟩ => ⟨stream, tree, diagnostics.push d⟩

/-- Adds a node. Answers its number. -/
def add (kind : Node.Kind) (line : Nat) : State → NodeId × State
  | ⟨stream, tree, diagnostics⟩ =>
    let (id, tree) := tree.add kind line
    (id, ⟨stream, tree, diagnostics⟩)

/-- Adds the cells of an ordered list. Answers the first one. -/
def addList (items : List NodeId) : State → Option NodeId × State
  | ⟨stream, tree, diagnostics⟩ =>
    let (head, tree) := tree.addList items
    (head, ⟨stream, tree, diagnostics⟩)

/-- Makes a node the last item of the root. -/
def pushItem (id : NodeId) : State → State
  | ⟨stream, tree, diagnostics⟩ => ⟨stream, tree.pushItem id, diagnostics⟩

/-- Passes tokens up to a place where a statement can start. -/
def resync : State → State
  | ⟨stream, tree, diagnostics⟩ =>
    ⟨seekStatement stream.finish stream.ahead, tree, diagnostics⟩

/-- Reports a failure and seeks a place to go on. -/
def recover (e : Failure) (s : State) : State := (s.diagnose e.diagnostic).resync

/-- Passes the current token and reports that it was skipped. -/
def skip (report : Token → Diagnostic) (s : State) : State :=
  (s.diagnose (report s.current)).advance

/-- Passes a directive and the one numeral that may follow it. Directives leave no
trace in the tree. -/
def skipDirective (s : State) : State :=
  let behind := s.advance
  if behind.current.kind.isConstant then behind.advance else behind

end State

theorem startsStatement_seekStatement (finish : Position) (ts : List Token) :
    startsStatement (seekStatement finish ts) = true := by
  induction ts with
  | nil => rfl
  | cons t ts ih =>
    unfold seekStatement
    split
    next h => exact h
    next => exact ih

theorem State.resync_startsStatement (s : State) : startsStatement s.resync.stream = true :=
  startsStatement_seekStatement s.stream.finish s.stream.ahead

end Parser

/-! ## Parsers -/

/-- A parser reads from a state and changes it, and answers a value or fails. -/
abbrev Parser (α : Type) := EStateM Parser.Failure Parser.State α

namespace Parser

/-- The token to be read next. -/
def current : Parser Token := fun s => .ok s.current s

/-- Passes the current token. -/
def advance : Parser Unit := fun s => .ok () s.advance

/-- Reports a problem and goes on. -/
def diagnose (d : Diagnostic) : Parser Unit := fun s => .ok () (s.diagnose d)

/-- Adds a node. -/
def add (kind : Node.Kind) (line : Nat) : Parser NodeId := fun s =>
  let (id, s) := s.add kind line
  .ok id s

/-- Adds the cells of an ordered list. -/
def addList (items : List NodeId) : Parser (Option NodeId) := fun s =>
  let (head, s) := s.addList items
  .ok head s

/-- The line of a node added before. -/
def lineOf (id : NodeId) : Parser Nat := fun s => .ok (s.tree.line id) s

/-- The tokens ahead. Loops take them as a bound: each round passes at least one, so
as many rounds as there are tokens are enough. -/
def ahead : Parser (List Token) := fun s => .ok s.stream.ahead s

/-- Passes a token of the given kind, or fails. -/
def expect (kind : Token.Kind) : Parser Token := do
  let token ← current
  if token.kind = kind then
    advance
    return token
  else
    throw (.unexpected kind.describe token)

end Parser

end Asm6502
