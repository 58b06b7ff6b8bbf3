import Asm6502.Token

/-!
# Diagnostics

A diagnostic reports a problem in the source that reading went on from: what
kind of problem it was, where, and what was done about it. Each kind has a fixed
severity. The functions that build the diagnostics of a reader state their
wording in one place.
-/

namespace Asm6502

/-- How bad a problem is. -/
inductive Severity where
  /-- The tree is still complete. -/
  | warning
  /-- Parts of the source may be missing from the tree. -/
  | error
  deriving DecidableEq, Repr

/-- How listings show a severity. -/
def Severity.name : Severity → String
  | .warning => "warning"
  | .error => "error"

namespace Diagnostic

/-- The problems that reading recovers from. -/
inductive Kind where
  /-- A statement was given up because of an unexpected token. -/
  | unexpectedToken
  /-- A token that starts no statement was skipped. -/
  | skippedToken
  /-- A name with a colon some way behind it was taken for a label. -/
  | recoveredLabel
  /-- A token that fits nowhere in a code block was skipped. -/
  | structuralStall
  /-- Reading was given up altogether. -/
  | recoveryExhausted
  /-- An instruction or a data marker lacks what it works on. -/
  | missingOperand
  /-- An expression nests deeper than allowed. -/
  | nestingTooDeep
  deriving DecidableEq, Repr

namespace Kind

/-- How listings show a kind. -/
def name : Kind → String
  | .unexpectedToken => "unexpected-token"
  | .skippedToken => "skipped-token"
  | .recoveredLabel => "recovered-label"
  | .structuralStall => "structural-stall"
  | .recoveryExhausted => "recovery-exhausted"
  | .missingOperand => "missing-operand"
  | .nestingTooDeep => "nesting-too-deep"

/-- All kinds. -/
def all : List Kind :=
  [ .unexpectedToken, .skippedToken, .recoveredLabel, .structuralStall
  , .recoveryExhausted, .missingOperand, .nestingTooDeep ]

/-- Where the intent of the source is clear, a warning is enough. -/
def severity : Kind → Severity
  | .recoveredLabel | .missingOperand => .warning
  | .unexpectedToken | .skippedToken | .structuralStall | .recoveryExhausted
  | .nestingTooDeep => .error

end Kind

end Diagnostic

/-- A problem in the source that reading went on from. -/
structure Diagnostic where
  kind : Diagnostic.Kind
  position : Position
  message : String
  deriving DecidableEq, Repr

namespace Diagnostic

/-- The severity of its kind. -/
def severity (d : Diagnostic) : Severity := d.kind.severity

/-- Whether the diagnostic is of error severity. -/
def isError (d : Diagnostic) : Bool := d.severity == .error

/-- The line a listing shows for a diagnostic. -/
def describe (d : Diagnostic) : String :=
  toString d.position ++ ": " ++ d.severity.name ++ " [" ++ d.kind.name ++ "]: " ++ d.message

/-! ## The diagnostics of a reader -/

/-- The report on a skipped token, with the reason why it was skipped. -/
private def skip (kind : Kind) (t : Token) (reason : String) : Diagnostic :=
  ⟨kind, t.position, "skipped " ++ t.kind.describe ++ " '" ++ t.text ++ "': " ++ reason⟩

/-- A name that neither an equals sign nor a colon follows was skipped. -/
def strayName (t : Token) : Diagnostic := skip .skippedToken t "not a declaration or label"

/-- A token that can start no statement was skipped. -/
def noStatement (t : Token) : Diagnostic := skip .skippedToken t "cannot start a statement"

/-- A token that fits nowhere in a code block was skipped. -/
def stall (t : Token) : Diagnostic :=
  skip .structuralStall t "not an instruction or data directive"

/-- A name and a detached colon were taken for a label. -/
def detachedLabel (name : Token) : Diagnostic :=
  ⟨.recoveredLabel, name.position,
    "treating '" ++ name.text ++ " :' as label '" ++ name.text ++ "'"⟩

/-- A mnemonic that needs an operand has none on its line. -/
def noOperand (mnemonic : Token) : Diagnostic :=
  ⟨.missingOperand, mnemonic.position, "'" ++ mnemonic.text ++ "' without operand"⟩

/-- A data marker has no data on its line. -/
def noData (marker : Token) : Diagnostic :=
  ⟨.missingOperand, marker.position, "'" ++ marker.text ++ "' without data"⟩

/-- Reading was given up at `p` after the given number of statements. -/
def gaveUp (p : Position) (attempts : Nat) : Diagnostic :=
  ⟨.recoveryExhausted, p, "gave up after " ++ toString attempts ++ " attempts"⟩

/-! ## The kinds of these diagnostics -/

@[simp] theorem kind_strayName (t : Token) : (strayName t).kind = .skippedToken := rfl

@[simp] theorem kind_noStatement (t : Token) : (noStatement t).kind = .skippedToken := rfl

@[simp] theorem kind_stall (t : Token) : (stall t).kind = .structuralStall := rfl

@[simp] theorem kind_detachedLabel (t : Token) : (detachedLabel t).kind = .recoveredLabel := rfl

@[simp] theorem kind_noOperand (t : Token) : (noOperand t).kind = .missingOperand := rfl

@[simp] theorem kind_noData (t : Token) : (noData t).kind = .missingOperand := rfl

end Diagnostic

end Asm6502
