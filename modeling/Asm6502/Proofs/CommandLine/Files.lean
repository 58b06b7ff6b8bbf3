import Asm6502.CommandLine.Report
import Mathlib.Algebra.GroupWithZero.Nat

/-!
# Several files

All files are processed with one comment table and one counter.  Still none of them has any
influence on what is written for another one: the table is reset before a file is scanned,
and the counter is looked at after the last file only.  So a run over several files is put
together from runs over one file each, up to the first file that fails.

## Main results

* `fileReport_eq` — the report on a file is that of a run over this file alone, whatever the
  files before it left in the table.
* `processFrom_eq` — a run over some files, put together from runs over one file each.
* `process_files` — the same for all files of the settings; a file behind the first failure
  plays no part.
-/

namespace Asm6502.CommandLine

/-- The same settings for a single file, of which the diagnostics make no failure. -/
def Settings.alone (s : Settings) (path : String) : Settings :=
  { s with inputs := [path], strict := false }

/-- The line that names a file, where there are several and this one can be read. -/
def heading (s : Settings) (files : String → Except FileError String) (path : String) : String :=
  if s.inputs.length > 1 ∧ (files path).isOk then "; " ++ path ++ "\n" else ""

/-- The number of diagnostics of error severity about the text of a file. -/
def errorDiagnostics (o : ReadOptions) (files : String → Except FileError String)
    (path : String) : Nat :=
  match (files path).toOption.map fun text => (readSource o text).1 with
  | some (.ok outcome) => outcome.diagnostics.countP Diagnostic.isError
  | _ => 0

/-- The paths up to and including the first that fails. -/
def upToFailure (fails : String → Bool) (paths : List String) : List String :=
  paths.takeWhile (fun path => !fails path) ++ (paths.find? fails).toList

section

variable {fails : String → Bool} {path : String} (paths : List String)

theorem upToFailure_of_fails (h : fails path = true) :
    upToFailure fails (path :: paths) = [path] := by
  simp [upToFailure, h]

theorem upToFailure_of_passes (h : fails path = false) :
    upToFailure fails (path :: paths) = path :: upToFailure fails paths := by
  simp [upToFailure, h]

end

variable (s : Settings) {files files' : String → Except FileError String}

/-! ## One file -/

/-- The report on a file that can be read.  What the table holds does not matter. -/
theorem fileReport_of_text {path text : String} (h : files path = .ok text) (table : Comments) :
    let report := match s.emit with
      | .tokens => tokensReport s.options .empty path text
      | .tree => treeReport s.options .empty path text
    fileReport s files table path =
      { report with
        written := { report.written with
          output := heading s files path ++ report.written.output } } := by
  have hok : (files path).isOk = true := by
    rw [h]
    rfl
  unfold fileReport heading
  rw [hok, h]
  simp only [and_true]
  -- Both kinds of report begin with a reset, and all tables are the same behind one.
  cases s.emit with
  | tokens | tree => rfl

/-- A run over one file tells what the report on this file tells. -/
theorem process_alone (files : String → Except FileError String) (path : String) :
    let report := fileReport (s.alone path) files .empty path
    process (s.alone path) files =
      ⟨report.written, match report.result with
        | .error failure => some failure
        | .ok _ => none⟩ := by
  intro report
  show processFrom (s.alone path) files {} 0 .empty [path] = _
  unfold processFrom
  show (match report.result with
    | .error failure => _
    | .ok more => _) = _
  have hwritten : (⟨"" ++ report.written.output, "" ++ report.written.errors⟩ : Written) =
      report.written := by
    rw [String.empty_append, String.empty_append]
  cases hresult : report.result with
  | error failure => exact congrArg (Report.mk · _) hwritten
  | ok more => exact congrArg (Report.mk · _) hwritten

/-- What a run over all files writes about one of them is what a run over this file alone
writes, but for the line that names it. -/
theorem fileReport_alone (files : String → Except FileError String) (table : Comments)
    (path : String) :
    let alone := fileReport (s.alone path) files .empty path
    let report := fileReport s files table path
    report.written.output = heading s files path ++ alone.written.output ∧
      report.written.errors = alone.written.errors ∧ report.result = alone.result := by
  have hheading : heading (s.alone path) files path = "" := by
    simp [heading, Settings.alone]
  cases hfile : files path with
  | error e =>
      have hunnamed : heading s files path = "" := by
        simp [heading, hfile, Except.isOk, Except.toBool]
      simp [fileReport, hfile, hunnamed]
  | ok text =>
      rw [fileReport_of_text s hfile, fileReport_of_text (s.alone path) hfile, hheading]
      simp only [String.empty_append]
      exact ⟨rfl, rfl, rfl⟩

/-- A file counts with its diagnostics of error severity, if its tree is asked for. -/
theorem fileReport_count {table : Comments} {path : String} {count : Nat}
    (h : (fileReport s files table path).result = .ok count) :
    count = if s.emit = .tree then errorDiagnostics s.options files path else 0 := by
  cases hfile : files path with
  | error e =>
      simp [fileReport, hfile] at h
  | ok text =>
      rw [fileReport_of_text s hfile] at h
      cases hemit : s.emit with
      | tokens =>
          rw [hemit] at h
          change (tokensReport s.options .empty path text).result = _ at h
          unfold tokensReport at h
          split at h
          next => cases h
          next => cases h; rfl
      | tree =>
          rw [hemit] at h
          change (treeReport s.options .empty path text).result = _ at h
          unfold treeReport at h
          split at h
          next => cases h
          next outcome _ hread =>
            have hread : (readSource s.options text).1 = .ok outcome := congrArg Prod.fst hread
            cases h
            rw [if_pos rfl, errorDiagnostics, hfile]
            show _ = match some (readSource s.options text).1 with
              | some (.ok outcome) => outcome.diagnostics.countP Diagnostic.isError
              | _ => 0
            rw [hread]

/-- The report on a file is that of a run over this file alone, whatever the files before it
left in the table. -/
theorem fileReport_eq (files : String → Except FileError String) (table : Comments)
    (path : String) :
    let alone := process (s.alone path) files
    let report := fileReport s files table path
    report.written.output = heading s files path ++ alone.written.output ∧
      report.written.errors = alone.written.errors ∧
      report.result = match alone.failure with
        | some failure => .error failure
        | none => .ok (if s.emit = .tree then errorDiagnostics s.options files path else 0) := by
  obtain ⟨houtput, herrors, hresult⟩ := fileReport_alone s files table path
  rw [process_alone]
  refine ⟨houtput, herrors, ?_⟩
  cases halone : (fileReport (s.alone path) files .empty path).result with
  | error failure => exact hresult.trans halone
  | ok count =>
      have hcount := hresult.trans halone
      rw [hcount, fileReport_count s hcount]

/-- The report on a file depends on what the system has under its path, and on no other
file. -/
theorem fileReport_congr {path : String} (h : files' path = files path) (table : Comments) :
    fileReport s files' table path = fileReport s files table path := by
  rw [fileReport, fileReport, h]

/-! ## All files -/

/-- A run over some files, put together from runs over one file each. -/
theorem processFrom_eq (files : String → Except FileError String) (written : Written)
    (errors : Nat) (table : Comments) (paths : List String) :
    let alone path := process (s.alone path) files
    let fails path := (alone path).failure.isSome
    let reached := upToFailure fails paths
    let total := errors +
      if s.emit = .tree then (paths.map (errorDiagnostics s.options files)).sum else 0
    processFrom s files written errors table paths =
      ⟨⟨written.output ++
          String.join (reached.map fun path => heading s files path ++ (alone path).written.output),
        written.errors ++ String.join (reached.map fun path => (alone path).written.errors)⟩,
      match paths.find? fails with
      | some path => (alone path).failure
      | none => if s.strict ∧ 0 < total then some (.diagnosed total) else none⟩ := by
  intro alone fails reached total
  induction paths generalizing written errors table with
  | nil =>
      have htotal : total = errors := by
        simp [total]
      simp [processFrom, reached, upToFailure, htotal]
  | cons path paths ih =>
      obtain ⟨houtput, herrors, hresult⟩ := fileReport_eq s files table path
      rw [processFrom, houtput, herrors]
      cases hfailure : (alone path).failure with
      | some failure =>
          have hfails : fails path = true := by
            simp [fails, hfailure]
          have hreached : reached = [path] := upToFailure_of_fails paths hfails
          rw [show (process (s.alone path) files).failure = _ from hfailure] at hresult
          rw [hresult, hreached, List.find?_cons_of_pos hfails]
          simp [hfailure, alone]
      | none =>
          have hpasses : fails path = false := by
            simp [fails, hfailure]
          have hreached : reached = path :: upToFailure fails paths :=
            upToFailure_of_passes paths hpasses
          rw [show (process (s.alone path) files).failure = _ from hfailure] at hresult
          rw [hresult, hreached, List.find?_cons_of_neg (by simp [hpasses])]
          show processFrom s files _ _ _ paths = _
          have htotal : total = errors +
              (if s.emit = .tree then errorDiagnostics s.options files path else 0) +
              if s.emit = .tree then (paths.map (errorDiagnostics s.options files)).sum else 0 := by
            simp only [total, List.map_cons, List.sum_cons]
            split <;> omega
          rw [ih, htotal]
          simp only [List.map_cons, String.join_cons, String.append_assoc]
          rfl

/-- Paths behind the first that fails play no part. -/
theorem processFrom_congr {paths : List String}
    (h : ∀ path ∈ upToFailure (fun path => (process (s.alone path) files).failure.isSome) paths,
      files' path = files path)
    (written : Written) (errors : Nat) (table : Comments) :
    processFrom s files' written errors table paths =
      processFrom s files written errors table paths := by
  induction paths generalizing written errors table with
  | nil => rfl
  | cons path paths ih =>
      cases hfails : (process (s.alone path) files).failure.isSome with
      | true =>
          rw [upToFailure_of_fails paths hfails] at h
          obtain ⟨failure, hfailure⟩ := Option.isSome_iff_exists.1 hfails
          have hsame := fileReport_congr s (h path List.mem_cons_self) table
          have hresult := (fileReport_eq s files table path).2.2
          rw [hfailure] at hresult
          rw [processFrom, processFrom, hsame, hresult]
      | false =>
          rw [upToFailure_of_passes paths hfails] at h
          have hsame := fileReport_congr s (h path List.mem_cons_self) table
          have hrest := ih fun path hpath => h path (List.mem_cons_of_mem _ hpath)
          rw [processFrom, processFrom, hsame]
          cases hresult : (fileReport s files table path).result with
          | error failure => rfl
          | ok more => exact hrest _ _ _

/-- A run over several files is put together from runs over one file each, up to the first
that fails.  If none does, the diagnostics of all files are counted at the end.  Comments in
the table play no part, and files behind the first failure are not even read. -/
theorem process_files (s : Settings) (files : String → Except FileError String) :
    let alone path := process (s.alone path) files
    let fails path := (alone path).failure.isSome
    let reached := upToFailure fails s.inputs
    let total := (s.inputs.map (errorDiagnostics s.options files)).sum
    (process s files).written.output =
        String.join (reached.map fun path => heading s files path ++ (alone path).written.output) ∧
      (process s files).written.errors =
        String.join (reached.map fun path => (alone path).written.errors) ∧
      (process s files).failure =
        (match s.inputs.find? fails with
        | some path => (alone path).failure
        | none => if s.strict ∧ s.emit = .tree ∧ 0 < total then some (.diagnosed total) else none) ∧
      (∀ table, processFrom s files {} 0 table s.inputs = process s files) ∧
      ∀ files', (∀ path ∈ reached, files' path = files path) →
        process s files' = process s files := by
  intro alone fails reached total
  have hrun : process s files = _ := processFrom_eq s files {} 0 .empty s.inputs
  have htable (table : Comments) : processFrom s files {} 0 table s.inputs = process s files :=
    (processFrom_eq s files {} 0 table s.inputs).trans hrun.symm
  refine ⟨?_, ?_, ?_, htable, fun files' h => processFrom_congr s h {} 0 .empty⟩
  · rw [hrun]
    exact String.empty_append
  · rw [hrun]
    exact String.empty_append
  · rw [hrun]
    show (match s.inputs.find? fails with
      | some path => (alone path).failure
      | none => _) = _
    cases s.inputs.find? fails with
    | some path => rfl
    | none =>
        by_cases hemit : s.emit = .tree
        · simp [hemit, total]
        · simp [hemit]

/-- Files of which the first has a comment that its outline does not claim, on a line that
shows its comment in the second; the second lacks an operand, and the third does not scan. -/
def someFiles (fourth : Except FileError String) (path : String) : Except FileError String :=
  match path with
  | "a" => .ok "A:\n  nop\n; first\n"
  | "b" => .ok "B:\n\n  nop\n  bne\n"
  | "c" => .ok "@"
  | _ => fourth

/-- The second outline does not show the comment, and the run ends with the third file.  Without
this file all are read, and the message counts the diagnostics of the second and of the last
one. -/
theorem process_files_someFiles :
    let s : Settings := { inputs := ["a", "b", "c", "d"], strict := true }
    let files := someFiles (.error .notFound)
    let files' := someFiles (.ok "D:\n")
    (∀ path ∈ ["a", "b", "c"], files' path = files path) ∧
      process s files' = process s files ∧
      (process s files').written.output =
        "; a\nlabel: A [none]\n    list element:\n        instruction (line 2) 65 NOP:\n" ++
        "; b\nlabel: B [none]\n    list element:\n        instruction (line 3) 65 NOP:\n" ++
        "; c\n" ∧
      (process s files').failure = some (.unparsed "c" ⟨'@', ⟨1, 1⟩⟩) ∧
      let s' : Settings := { inputs := ["a", "b", "d"], strict := true }
      let files'' := someFiles (.ok "D = (1\nE = 2 )\nnop\n")
      (process s' files'').written.errors =
          "b:5:1: error [unexpected-token]: 5:1: expected name, found end of input\n" ++
          "d:2:1: error [unexpected-token]: 2:1: expected ')', found name\n" ++
          "d:2:7: error [skipped-token]: skipped ')' ')': cannot start a statement\n" ++
          "d:3:1: error [skipped-token]: skipped instruction NOP 'nop': " ++
          "cannot start a statement\n" ∧
        (process s' files'').failure = some ⟨"4 error diagnostics", []⟩ := by
  intro s files files'
  have hsame : ∀ path ∈ ["a", "b", "c"], files' path = files path := by
    simp [files, files', someFiles]
  have hreached : upToFailure (fun path => (process (s.alone path) files).failure.isSome) s.inputs =
      ["a", "b", "c"] := by decide +kernel
  have hrun := (process_files s files).2.2.2.2 files' fun path hpath => hsame path (hreached ▸ hpath)
  refine ⟨hsame, hrun, ?_, ?_, ?_, ?_⟩
  · rw [hrun]
    decide +kernel
  · rw [hrun]
    decide +kernel
  · rw [(process_files _ _).2.1]
    decide +kernel
  · rw [(process_files _ _).2.2.1]
    decide +kernel

end Asm6502.CommandLine
