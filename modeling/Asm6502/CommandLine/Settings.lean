import Asm6502.SourceUnit

/-!
# Settings from a command line

The arguments of the program are paths, flags and options with a value, in any
order. An option has its value attached behind an equals sign or as the next
argument. Behind a double dash every argument is a path, and a single dash is
always one.

Arguments are read from left to right. What has been collected is *settled*,
that is checked and entered into the settings, only when it is certain to be
complete: paths and the value of an option wait until another flag or option, or
a path behind an option, or the end is reached. An argument that is not known at
all, or a flag with a value attached, is reported before anything that waits.

Of a waiting option, first a missing value is reported, then a repetition, then a
value that is not valid.
-/

namespace Asm6502.CommandLine

/-- What is shown for each source text. -/
inductive Emit where
  /-- The outline of its tree, with comments. -/
  | tree
  /-- Its tokens. -/
  | tokens
  deriving DecidableEq, Repr, Inhabited

/-- The word for it on the command line. -/
def Emit.ofWord? : String → Option Emit
  | "tree" => some .tree
  | "tokens" => some .tokens
  | _ => none

/-- What the program is asked to do. -/
structure Settings where
  inputs : List String
  emit : Emit := .tree
  /-- Whether a diagnostic of error severity makes the program fail. -/
  strict : Bool := false
  options : ReadOptions := {}
  deriving DecidableEq, Repr, Inhabited

/-- Why a command line is refused. -/
inductive UsageError where
  /-- No path is given. -/
  | missingInput
  /-- A value is missing, empty, or not one of the words that are allowed. -/
  | invalidValue
  /-- A value that has to be a number is none, or is too large. -/
  | invalidNumber
  /-- No flag or option has this name. -/
  | unknownArgument
  /-- A flag or an option is given twice. -/
  | repeated
  /-- A flag has a value attached. -/
  | unexpectedValue
  /-- The user asks for help instead. -/
  | helpRequested
  deriving DecidableEq, Repr

/-- The wording of a usage error. -/
def UsageError.message : UsageError → String
  | .missingInput => "no source file given"
  | .invalidValue => "missing or invalid value"
  | .invalidNumber => "not a valid number"
  | .unknownArgument => "unknown argument"
  | .repeated => "argument given more than once"
  | .unexpectedValue => "this flag takes no value"
  | .helpRequested =>
    "arguments: [--emit tree|tokens] [--keep-addressing-prefixes] [--max-depth N] [--strict] FILE..."

/-! ## The form of an argument -/

/-- What an argument looks like. -/
inductive Argument where
  /-- The double dash, behind which all arguments are paths. -/
  | terminator
  /-- Two dashes, a name, and perhaps an equals sign and a value. -/
  | long (name : String) (value : Option String)
  /-- One dash and a letter, whatever follows. -/
  | short (letter : Char)
  /-- Anything else. -/
  | plain (text : String)
  deriving DecidableEq, Repr

/-- What the argument `s` looks like. -/
def Argument.ofString (s : String) : Argument :=
  match s.toList with
  | ['-', '-'] => .terminator
  | '-' :: '-' :: cs =>
    .long (String.ofList (cs.takeWhile (· != '=')))
      (match cs.dropWhile (· != '=') with
        | [] => none
        | _ :: value => some (String.ofList value))
  | '-' :: c :: _ => .short c
  | _ => .plain s

/-! ## Values -/

/-- The largest number that an option takes. -/
def numberLimit : Nat := UInt64.size - 1

/-- The number that decimal digits stand for. -/
def numberOf (digits : List Char) : Nat :=
  digits.foldl (fun n c => 10 * n + (c.toNat - '0'.toNat)) 0

/-- Reads an unsigned number: decimal digits, at least one, perhaps behind a plus
sign, and not above the limit. -/
def number? (s : String) : Option Nat :=
  let digits := match s.toList with
    | '+' :: cs => cs
    | cs => cs
  if digits ≠ [] ∧ digits.all Char.isDigit ∧ numberOf digits ≤ numberLimit then
    some (numberOf digits)
  else
    none

/-! ## Reading the arguments -/

/-- The options that take a value. -/
inductive ValueOption where
  | emit | maxDepth
  deriving DecidableEq, Repr

/-- What has been collected and not settled yet. -/
inductive Waiting where
  | nothing
  /-- An option that still needs its value. -/
  | option (o : ValueOption)
  /-- An option and its value. -/
  | value (o : ValueOption) (text : String)
  /-- Paths in a row. -/
  | paths (found : List String)
  deriving DecidableEq, Repr

/-- What the arguments so far have settled, and what waits. -/
structure Progress where
  inputs : List String := []
  emit : Option Emit := none
  maxDepth : Option Nat := none
  strict : Bool := false
  keepsPrefixes : Bool := false
  waiting : Waiting := .nothing
  deriving DecidableEq, Repr

namespace Progress

/-- Enters an option with its value. -/
def enter (p : Progress) (o : ValueOption) (text : String) : Except UsageError Progress :=
  match o with
  | .emit =>
    if p.emit.isSome then .error .repeated
    else match Emit.ofWord? text with
      | some emit => .ok { p with emit := some emit }
      | none => .error .invalidValue
  | .maxDepth =>
    if p.maxDepth.isSome then .error .repeated
    else match number? text with
      | some n => .ok { p with maxDepth := some n }
      | none => .error .invalidNumber

/-- Settles what waits. -/
def settle (p : Progress) : Except UsageError Progress :=
  let settled := { p with waiting := .nothing }
  match p.waiting with
  | .nothing => .ok settled
  | .option _ => .error .invalidValue
  | .value o text => settled.enter o text
  | .paths found =>
    if found.contains "" then .error .invalidValue
    else .ok { settled with inputs := settled.inputs ++ found }

/-- Takes a path. Paths in a row wait together. -/
def path (p : Progress) (text : String) : Except UsageError Progress :=
  match p.waiting with
  | .paths found => .ok { p with waiting := .paths (found ++ [text]) }
  | _ => p.settle.map fun p => { p with waiting := .paths [text] }

/-- Takes an option, with the value that is attached to it, if any. -/
def option (p : Progress) (o : ValueOption) (value : Option String) :
    Except UsageError Progress := do
  let p ← p.settle
  match value with
  | some text => p.enter o text
  | none => return { p with waiting := .option o }

/-- Takes a flag, which `given` reads from the progress and `raise` sets. -/
def flag (p : Progress) (given : Progress → Bool) (raise : Progress → Progress)
    (value : Option String) : Except UsageError Progress :=
  match value with
  | some _ => .error .unexpectedValue
  | none => do
    let p ← p.settle
    if given p then .error .repeated else return raise p

/-- Takes an argument with a long name. -/
def long (p : Progress) (name : String) (value : Option String) :
    Except UsageError Progress :=
  match name with
  | "emit" => p.option .emit value
  | "max-depth" => p.option .maxDepth value
  | "strict" => p.flag strict (fun p => { p with strict := true }) value
  | "keep-addressing-prefixes" =>
    p.flag keepsPrefixes (fun p => { p with keepsPrefixes := true }) value
  | "help" => if value.isSome then .error .unexpectedValue else help p
  | _ => .error .unknownArgument
where
  /-- Help is shown only if nothing that waits is wrong. -/
  help (p : Progress) : Except UsageError Progress := do
    let _ ← p.settle
    .error .helpRequested

/-- Takes the arguments one after another. -/
def read (p : Progress) : List String → Except UsageError Progress
  | [] => p.settle
  | arg :: rest =>
    match Argument.ofString arg with
    | .terminator => do (← rest.foldlM path p).settle
    | .long name value => do (← p.long name value).read rest
    | .short 'h' => long.help p
    | .short _ => .error .unknownArgument
    | .plain text =>
      match p.waiting with
      | .option o => { p with waiting := .value o text }.read rest
      | _ => do (← p.path text).read rest

/-- The settings that complete progress stands for. -/
def settings (p : Progress) : Settings where
  inputs := p.inputs
  emit := p.emit.getD .tree
  strict := p.strict
  options :=
    { dialect := { dropsPrefixes := !p.keepsPrefixes }
      nestingLimit := p.maxDepth.getD Parser.defaultLimit }

end Progress

/-- The settings that a list of arguments stands for. At least one path is
needed. -/
def Settings.ofArguments (args : List String) : Except UsageError Settings := do
  let p ← Progress.read {} args
  if p.inputs.isEmpty then .error .missingInput else return p.settings

end Asm6502.CommandLine
