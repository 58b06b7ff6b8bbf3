import Asm6502.CommandLine.Report

/-!
# The program

Reads the files that the command line names, processes them and writes the two
channels. A wrong command line ends with code two, any other failure with code
one.
-/

namespace Asm6502.CommandLine

/-- Why the system could not read a file. -/
def FileError.ofSystem : IO.Error → FileError
  | .noFileOrDirectory .. => .notFound
  | .inappropriateType .. => .isDirectory
  | e => .other (toString e)

/-- The text of a file. -/
def readText (path : String) : IO (Except FileError String) := do
  try
    let bytes ← IO.FS.readBinFile path
    return match String.fromUTF8? bytes with
      | some text => .ok text
      | none => .error .notText
  catch e => return .error (.ofSystem e)

/-- Processes the files of the settings. Answers the code to end with. -/
def run (settings : Settings) : IO UInt32 := do
  let texts ← settings.inputs.mapM fun path => return (path, ← readText path)
  let report := process settings fun path => (texts.lookup path).getD (.error .notFound)
  IO.print report.written.output
  IO.eprint report.written.errors
  match report.failure with
  | none => return 0
  | some failure =>
    IO.eprint (unlines failure.describe)
    return 1

end Asm6502.CommandLine

open Asm6502.CommandLine in
/-- Runs the program. -/
def main (args : List String) : IO UInt32 := do
  match Settings.ofArguments args with
  | .ok settings => run settings
  | .error .helpRequested =>
    IO.println UsageError.helpRequested.message
    return 0
  | .error e =>
    IO.eprintln e.message
    return 2
