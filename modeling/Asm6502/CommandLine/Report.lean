import Asm6502.CommandLine.Settings
import Asm6502.Tree.Outline

/-!
# Processing source files

The program processes the files of its settings one after another. What it writes
goes to two channels: the outlines or tokens to the output, the diagnostics to
the errors. It stops at the first file that cannot be read or scanned; what was
written before stays written. If the settings are strict, diagnostics of error
severity make it fail after the last file.

One comment table goes through all files. A file leaves it with the comments that
its outline did not claim, and the next file resets it.

The file system is a parameter, so the outcome is a function of its contents.
-/

namespace Asm6502.CommandLine

/-- Why a file has no text. -/
inductive FileError where
  | notFound
  | isDirectory
  /-- The bytes are not a valid encoding of a text. -/
  | notText
  /-- Any other reason, in the words of the system. -/
  | other (reason : String)
  deriving DecidableEq, Repr

/-- The wording of a file error. -/
def FileError.message : FileError → String
  | .notFound => "No such file or directory (os error 2)"
  | .isDirectory => "Is a directory (os error 21)"
  | .notText => "stream did not contain valid UTF-8"
  | .other reason => reason

/-- Why the program fails: what could not be done, and the chain of causes behind
it, the nearest first. -/
structure Failure where
  message : String
  causes : List String
  deriving DecidableEq, Repr

namespace Failure

/-- A file could not be read. -/
def unreadable (path : String) (e : FileError) : Failure :=
  ⟨"Unable to read " ++ path, [e.message]⟩

/-- The tokens of a file could not be listed. -/
def untokenized (path : String) (e : LexicalError) : Failure :=
  ⟨"Lexing " ++ path ++ " failed", [e.message]⟩

/-- The tree of a file could not be shown. -/
def unparsed (path : String) (e : LexicalError) : Failure :=
  ⟨"Parsing " ++ path ++ " failed", [e.reading, e.message]⟩

/-- Strict settings met diagnostics of error severity. -/
def diagnosed (errors : Nat) : Failure :=
  ⟨toString errors ++ " error diagnostics", []⟩

/-- The lines that tell a user of a failure: what failed, then the causes, numbered
if there are several. -/
def describe (f : Failure) : List String :=
  let causes := match f.causes with
    | [] => []
    | [cause] => ["", "Caused by:", "    " ++ cause]
    | several =>
      let numbered := several.zipIdx.map fun (cause, i) => "    " ++ toString i ++ ": " ++ cause
      "" :: "Caused by:" :: numbered
  ("Error: " ++ f.message) :: causes

end Failure

/-- What was written to the two channels. -/
structure Written where
  output : String := ""
  errors : String := ""
  deriving DecidableEq, Repr, Inhabited

/-- What is written for one file, the number of its diagnostics of error severity or
why it failed, and the comment table as the file leaves it. -/
structure FileReport where
  written : Written
  result : Except Failure Nat
  comments : Comments

/-- Puts each line on a line of its own. -/
def unlines (ls : List String) : String := ls.foldl (fun text l => text ++ l ++ "\n") ""

/-- The report on a file whose tokens are asked for. -/
def tokensReport (o : ReadOptions) (table : Comments) (path text : String) : FileReport :=
  match tokenize o.dialect text table.reset with
  | (.error e, comments) => ⟨{}, .error (.untokenized path e), comments⟩
  | (.ok ts, comments) => ⟨{ output := unlines (ts.map Token.describe) }, .ok 0, comments⟩

/-- The report on a file whose tree is asked for. -/
def treeReport (o : ReadOptions) (table : Comments) (path text : String) : FileReport :=
  match readInto o table text with
  | (.error e, comments) => ⟨{}, .error (.unparsed path e), comments⟩
  | (.ok outcome, comments) =>
    let diagnostics := outcome.diagnostics
    let dump := outcome.tree.dump comments
    ⟨{ output := dump.text
       errors := unlines (diagnostics.map fun d => path ++ ":" ++ d.describe) },
     .ok (diagnostics.countP Diagnostic.isError), dump.unclaimed⟩

/-- The report on one file of those named by the settings. With more than one, the
output of each starts with a line that names it. -/
def fileReport (s : Settings) (files : String → Except FileError String) (table : Comments)
    (path : String) : FileReport :=
  match files path with
  | .error e => ⟨{}, .error (.unreadable path e), table⟩
  | .ok text =>
    let report := match s.emit with
      | .tokens => tokensReport s.options table path text
      | .tree => treeReport s.options table path text
    let heading := if s.inputs.length > 1 then "; " ++ path ++ "\n" else ""
    { report with
      written := { report.written with output := heading ++ report.written.output } }

/-- What is written for all files, and why the program failed, if it did. -/
structure Report where
  written : Written
  failure : Option Failure

/-- Processes the given paths, with the comment table that the files before them have
left, and after `errors` diagnostics of error severity. -/
def processFrom (s : Settings) (files : String → Except FileError String) (written : Written)
    (errors : Nat) (table : Comments) : List String → Report
  | [] =>
    ⟨written, if s.strict ∧ errors > 0 then some (.diagnosed errors) else none⟩
  | path :: rest =>
    let report := fileReport s files table path
    let written : Written :=
      ⟨written.output ++ report.written.output, written.errors ++ report.written.errors⟩
    match report.result with
    | .error failure => ⟨written, some failure⟩
    | .ok more => processFrom s files written (errors + more) report.comments rest

/-- Processes all files of the settings. -/
def process (s : Settings) (files : String → Except FileError String) : Report :=
  processFrom s files {} 0 .empty s.inputs

end Asm6502.CommandLine
