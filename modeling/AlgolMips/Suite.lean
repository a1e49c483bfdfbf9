import AlgolMips.Command.Script
import AlgolMips.Files.Glob
import AlgolMips.Suite.Trial

/-!
# The golden-file suite

A suite either makes the golden files of some sources or tests all sources that match some patterns. Before the tests every
source is assigned: it is skipped by name or because an earlier one has the same content, or it is handed on to be tested.
The verdicts are listed by file, so that the order of the tests does not show.
-/

namespace AlgolMips.Suite

open Golden

/-- A label in colour before a log line. -/
def tagged (t : Tint) (label message : Text) : Text := t.paint ("[" ++ label ++ "]") ++ " " ++ message ++ "\n"

def errorLine (message : Text) : Text := tagged .red "ERROR" message

/-! ## Making golden files -/

namespace Bench

/-- The directory for golden files, made where one is named. -/
def makeGoldenDirectory (b : Bench) (files : FileTree) : Except FileFailure FileTree :=
  if b.options.dir.isEmpty then .ok files else files.makeDirectories b.machine.cwd b.options.dir

/-- Makes the golden file of one source. The log ends with what went wrong if it cannot be made. -/
def generate (b : Bench) (files : FileTree) (source : Text) : Bool × Text × FileTree :=
  let path := goldenPath b.options.dir source
  let failed (message : Text) (files : FileTree) : Bool × Text × FileTree := (false, errorLine message, files)
  match files.read b.machine.cwd source with
  | .error f => failed ("Could not hash source file " ++ source ++ ": " ++ f.message) files
  | .ok content =>
    let trial := b.attempt files source (b.machine.fingerprint content)
    match trial.error.filter fun e => !e.isRejection with
    | some e => failed ("Could not generate golden file for " ++ source ++ ": " ++ e.message) trial.files
    | none =>
      match b.makeGoldenDirectory trial.files with
      | .error f => failed ("Failed to create directory " ++ b.options.dir ++ ": " ++ f.message) trial.files
      | .ok files =>
        match files.write b.machine.cwd path trial.result.render with
        | (some f, files) => failed ("Failed to write golden file " ++ path ++ ": " ++ f.message) files
        | (none, files) => (true, tagged .green "SUCCESS" ("Golden file created at " ++ path), files)

/-- Makes golden files one after the other, up to the first that cannot be made. -/
def generateAll (b : Bench) : List Text → FileTree → Outcome × FileTree
  | [], files => ({}, files)
  | source :: rest, files =>
    let (made, log, files) := b.generate files source
    let log := "Generating golden file for " ++ source ++ "...\n" ++ log
    if made then
      let (outcome, files) := b.generateAll rest files
      (outcome.precededBy "" log, files)
    else ({ stderr := log, status := 1 }, files)

end Bench

/-! ## Assigning sources -/

/-- What happens to a source: its verdict is known, or it is tested under its fingerprint. -/
inductive Assignment where
  | settled (v : Verdict)
  | task (source hash : Text)
deriving DecidableEq

/-- Whether a source is on a list, by its path or by its name. -/
def isSkipped (skip : List Text) (source : Text) : Bool := skip.contains source || skip.contains (Path.base source)

/-- Assigns sources in order; `seen` has the fingerprints so far with the first source of each. -/
def assign (skip : List Text) (hash : Text → Except FileFailure Text) (seen : List (Text × Text)) :
    List Text → List Assignment
  | [] => []
  | source :: rest =>
    let settled (status : Status) (message : Text) : Assignment := .settled { file := source, status, message }
    if isSkipped skip source then settled .skip "Explicitly skipped" :: assign skip hash seen rest
    else match hash source with
      | .error f => settled .error ("Failed to read file for hashing: " ++ f.message) :: assign skip hash seen rest
      | .ok h =>
        match seen.lookup h with
        | some first => settled .skip ("Content is identical to " ++ first) :: assign skip hash seen rest
        | none => .task source h :: assign skip hash ((h, source) :: seen) rest

/-! ## Testing -/

/-- The absolute paths of the files that match some patterns, each once, or the first pattern that is not well formed. -/
def sources (files : FileTree) (cwd : Location) (patterns : List Text) : Except Text (List Text) := do
  let here : Text := "/" ++ Text.join "/" cwd
  let found ← patterns.mapM fun p =>
    match Glob.expand files cwd p with
    | some paths => .ok paths
    | none => .error p
  return ((found.flatten.map (Path.absolute here)).filter (files.isRegular cwd)).eraseDups

namespace Bench

/-- Carries assignments out one after the other. -/
def verdicts (b : Bench) : List Assignment → FileTree → List Verdict × FileTree
  | [], files => ([], files)
  | .settled v :: rest, files =>
    let (vs, files) := b.verdicts rest files
    (v :: vs, files)
  | .task source hash :: rest, files =>
    let (v, files) := b.test files source hash
    let (vs, files) := b.verdicts rest files
    (v :: vs, files)

/-- Stores the report of a suite. -/
def writeReport (b : Bench) (vs : List Verdict) (files : FileTree) : Outcome × FileTree :=
  let (log, files) := match b.makeGoldenDirectory files with
    | .ok files => (Text.empty, files)
    | .error f => (errorLine ("Failed to create dir " ++ b.options.dir ++ ": " ++ f.message), files)
  let path := reportPath b.options.dir b.options.output
  match files.write b.machine.cwd path (report vs) with
  | (some f, files) =>
    ({ stderr := log ++ errorLine ("Failed to write JSON report to " ++ path ++ ": " ++ f.message) }, files)
  | (none, files) => ({ stdout := "Full test report saved to " ++ path ++ "\n", stderr := log }, files)

/-- Sums verdicts up and stores their report; the status tells of failures. -/
def conclude (b : Bench) (style : SummaryStyle) (vs : List Verdict) (files : FileTree) : Outcome × FileTree :=
  let (outcome, files) := b.writeReport vs files
  ({ outcome.precededBy (summary style vs) "" with status := if hasFailures vs then 1 else 0 }, files)

/-- Tests the sources that match the patterns. -/
def testAll (b : Bench) (style : SummaryStyle) (files : FileTree) : Outcome × FileTree :=
  let o := b.options
  let cwd := b.machine.cwd
  let warning := Text.onlyIf (o.verbose && !b.machine.isInstalled files o.simulator)
    (tagged .yellow "WARN" ("Simulator '" ++ o.simulator ++
      "' not found. Only compiler output and assembly will be compared."))
  match sources files cwd o.tests.words with
  | .error p =>
    ({ stderr := warning ++ errorLine ("Invalid glob pattern(s): bad pattern " ++ p ++ ": syntax error in pattern")
       status := 1 }, files)
  | .ok [] => ({ stderr := warning ++ "No test files found matching the pattern(s).\n" }, files)
  | .ok found =>
    let hash (source : Text) := (files.read cwd source).map b.machine.fingerprint
    let (vs, files) := b.verdicts (assign o.skip.words hash [] found) files
    let (outcome, files) := b.conclude style (vs.mergeSort fun v w => v.file.le w.file) files
    (outcome.precededBy "" warning, files)

/-- Makes golden files where sources for them are named, and tests otherwise. -/
def run (b : Bench) (style : SummaryStyle) (files : FileTree) : Outcome × FileTree :=
  if b.options.generate.isEmpty then b.testAll { style with verbose := b.options.verbose } files
  else b.generateAll b.options.generate.words files

end Bench

/-- The suite with the words of its command line. Its temporary files are gone at the end. -/
def run (m : Machine) (temp : Text) (style : SummaryStyle) (words : List Text) (files : FileTree) : Outcome × FileTree :=
  match ({} : Options).parse words with
  | .error e => ({ stderr := e.message ++ "\n", status := 2 }, files)
  | .ok options =>
    match files.locate m.cwd temp with
    | .error _ => ({ stderr := errorLine "Failed to create temp directory", status := 1 }, files)
    | .ok place =>
      let (outcome, files) := Bench.run ⟨m, options, temp⟩ style ((files.erase place).putDirectory place)
      (outcome, files.erase place)

end AlgolMips.Suite
