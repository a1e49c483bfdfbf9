import AlgolMips.Golden.Summary
import AlgolMips.Suite.Machine
import AlgolMips.Suite.Options
import AlgolMips.Text.Replace

/-!
# Trials

A trial compiles one source file and, where there is a simulator and the compiler wrote assembly, runs the assembly on each
of a few inputs. What comes out is a golden result, in which the paths of the trial are replaced by placeholders. A trial
serves to make the golden file of a source, or to test the source against it.
-/

namespace AlgolMips.Suite

open Golden

/-- The inputs of the assembly, by name. -/
def runInputs : List (Text × Text) := [("negative", "-7\n-1\n0\n"), ("no_input", ""), ("small", "3\n4\n5\n")]

/-- Where trials keep their files, and how they start programs. -/
structure Bench where
  machine : Machine
  options : Options
  temp : Text

/-- Why a trial has no complete result. -/
inductive TrialError where
  | rejected (code : Int)
  | unreadable (f : FileFailure)
  | noAssembly (path : Text)
deriving DecidableEq

def TrialError.message : TrialError → Text
  | rejected code => "compilation failed with exit code " ++ Text.ofInt code
  | unreadable f => "reading generated assembly: " ++ f.message
  | noAssembly path => "compilation succeeded but no assembly was written to " ++ path

/-- Whether an error says only that the compiler refused the source, which is a result like any other. -/
def TrialError.isRejection : TrialError → Bool
  | rejected _ => true
  | _ => false

/-- The result of a trial, complete or not, and the files it left. -/
structure Trial where
  result : Result
  error : Option TrialError := none
  files : FileTree

namespace Bench

def assemblyPath (b : Bench) (hash : Text) : Text := Path.join [b.temp, hash ++ ".s"]

def listingPath (b : Bench) (hash : Text) : Text := Path.join [b.temp, hash ++ ".lst"]

/-- An execution with the paths of a trial replaced. -/
def normalized (b : Bench) (source hash : Text) (e : Execution) : Execution :=
  let pairs : List (Text × Text) :=
    [(source, "__SOURCE__"), (b.assemblyPath hash, "__OUTPUT__"), (b.listingPath hash, "__LISTING__")]
  { e with stdout := e.stdout.replace pairs, stderr := e.stderr.replace pairs }

/-- Starts a program for a trial. -/
def execute (b : Bench) (source hash : Text) (files : FileTree) (name : Text) (args : List Text) (input : Text) :
    Execution × FileTree :=
  let (e, files) := b.machine.execute b.options.timeout files name args input
  (b.normalized source hash e, files)

/-- Runs the assembly on the given inputs. -/
def runAll (b : Bench) (source hash : Text) : List (Text × Text) → FileTree → List TestRun × FileTree
  | [], files => ([], files)
  | (name, input) :: rest, files =>
    let (e, files) := b.execute source hash files b.options.simulator ["-file", b.assemblyPath hash] input
    let (runs, files) := b.runAll source hash rest files
    (⟨name, input, e⟩ :: runs, files)

/-- The assembly that a compiler wrote, if it wrote any. -/
def assembly (b : Bench) (files : FileTree) (hash : Text) : Except FileFailure (Option Text) :=
  match files.read b.machine.cwd (b.assemblyPath hash) with
  | .ok t => .ok (some t)
  | .error f => if f.cause = .notFound then .ok none else .error f

/-- Compiles a source and runs its assembly. -/
def attempt (b : Bench) (files : FileTree) (source hash : Text) : Trial :=
  let asm := b.assemblyPath hash
  let targets : List Text := ["-o", asm, "-l", b.listingPath hash]
  let args := targets ++ b.options.compilerArgs.words ++ [source]
  let (compile, files) := b.execute source hash files b.options.compiler args ""
  match b.assembly files hash with
  | .error f => { result := { compile }, error := some (.unreadable f), files }
  | .ok written =>
    let result : Result :=
      { compile, assembly := written.getD "", assemblyHash := (written.map b.machine.fingerprint).getD "" }
    if compile.exitCode ≠ 0 ∨ compile.timedOut then { result, error := some (.rejected compile.exitCode), files }
    else if result.assembly.isEmpty then { result, error := some (.noAssembly asm), files }
    else if b.machine.isInstalled files b.options.simulator then
      let (runs, files) := b.runAll source hash runInputs files
      { result := { result with runs }, files }
    else { result, files }

/-- The verdict on a source whose golden file holds `golden`. -/
def judgeTrial (b : Bench) (files : FileTree) (source hash : Text) (golden : Result) : Verdict × FileTree :=
  let trial := b.attempt files source hash
  match trial.error with
  | some e =>
    if e.isRejection then (judge b.machine.differ (ignoredTexts b.options.ignored) source golden trial.result, trial.files)
    else
      ({ file := source, status := .error, message := e.message, expected := some golden, actual := some trial.result },
        trial.files)
  | none => (judge b.machine.differ (ignoredTexts b.options.ignored) source golden trial.result, trial.files)

/-- Tests a source against its golden file. -/
def test (b : Bench) (files : FileTree) (source hash : Text) : Verdict × FileTree :=
  let path := goldenPath b.options.dir source
  let failed (message : Text) : Verdict × FileTree := ({ file := source, status := .error, message }, files)
  match files.read b.machine.cwd path with
  | .error f =>
    if f.cause = .notFound then
      ({ file := source, status := .skip, message := "Cannot test without a corresponding .json golden file" }, files)
    else failed ("Could not read golden file " ++ path ++ ": " ++ f.message)
  | .ok text =>
    match Result.parse text with
    | .error message => failed ("Could not parse golden file " ++ path ++ ": " ++ message)
    | .ok golden => b.judgeTrial files source hash golden

end Bench

end AlgolMips.Suite
