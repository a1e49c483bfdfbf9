import AlgolMips.Golden.Result

/-!
# Comparison with golden results

Two results agree if the compiler ended and printed alike, if the fingerprints of the assembly are equal and, where both
sides have runs, if every expected run is there and ended and printed alike. Lines that hold one of some texts may be left
out of account in what was printed. Durations never count. How texts that differ are set against one another is up to a
`Differ`, of which nothing is assumed.
-/

namespace AlgolMips.Golden

/-- A text without the lines that hold one of the given texts. -/
def withoutLines (output : Text) (ignored : List Text) : Text :=
  if ignored.isEmpty || output.isEmpty then output
  else Text.join "\n" (output.lines.filter fun l => !ignored.any fun sub => !sub.isEmpty && l.contains sub)

/-- What was compared. -/
inductive Subject where
  | compile
  | run (name : Text)
deriving DecidableEq

def Subject.describe : Subject → Text
  | compile => "Compile"
  | run name => "Run '" ++ name ++ "'"

/-- How two texts, or two lists of lines, are set against one another. -/
structure Differ where
  texts : Text → Text → Text
  lines : List Text → List Text → Text

/-- A way in which two results differ. -/
inductive Difference where
  | ending (subject : Subject) (expected actual : Int)
  | stdout (subject : Subject) (expected actual : Text)
  | stderr (subject : Subject) (expected actual : Text)
  | assembly (expected actual : Text)
  | missingRun (name : Text)
deriving DecidableEq

/-- The text that reports a difference. -/
def Difference.report (d : Differ) : Difference → Text
  | ending s expected actual =>
    Text.unlines [s.describe ++ " exit code mismatch:", "  - Expected: " ++ Text.ofInt expected,
      "  - Actual:   " ++ Text.ofInt actual]
  | stdout s expected actual => s.describe ++ " STDOUT mismatch:\n" ++ d.texts expected actual
  | stderr s expected actual => s.describe ++ " STDERR mismatch:\n" ++ d.texts expected actual
  | assembly expected actual => "Assembly mismatch:\n" ++ d.lines expected.lines actual.lines
  | missingRun name => "Test run '" ++ name ++ "' missing in actual results.\n"

/-- The differences of two executions. -/
def Execution.differences (ignored : List Text) (s : Subject) (expected actual : Execution) : List Difference :=
  (if expected.exitCode ≠ actual.exitCode ∨ expected.timedOut ≠ actual.timedOut then
      [.ending s expected.exitCode actual.exitCode] else []) ++
    (if withoutLines expected.stdout ignored ≠ withoutLines actual.stdout ignored then
      [.stdout s expected.stdout actual.stdout] else []) ++
    (if withoutLines expected.stderr ignored ≠ withoutLines actual.stderr ignored then
      [.stderr s expected.stderr actual.stderr] else [])

/-- The last of some runs with a name. -/
def lastRun? (runs : List TestRun) (name : Text) : Option TestRun := runs.reverse.find? fun r => r.name = name

/-- The differences of two lists of runs. Without runs on one side there is nothing to compare. -/
def runDifferences (ignored : List Text) (expected actual : List TestRun) : List Difference :=
  if expected.isEmpty || actual.isEmpty then []
  else expected.flatMap fun want =>
    match lastRun? actual want.name with
    | none => [.missingRun want.name]
    | some got => Execution.differences ignored (.run want.name) want.result got.result

/-- The differences of two results. -/
def Result.differences (ignored : List Text) (expected actual : Result) : List Difference :=
  Execution.differences ignored .compile expected.compile actual.compile ++
    (if expected.assemblyHash ≠ actual.assemblyHash then [.assembly expected.assembly actual.assembly] else []) ++
    runDifferences ignored expected.runs actual.runs

/-- How a test ended. -/
inductive Status where
  | pass
  | fail
  | skip
  | error
  | other (name : Text)
deriving DecidableEq

def Status.name : Status → Text
  | pass => "PASS"
  | fail => "FAIL"
  | skip => "SKIP"
  | error => "ERROR"
  | other t => t

def Status.ofName (t : Text) : Status := ([pass, fail, skip, error].find? fun s => s.name = t).getD (other t)

/-- The outcome of the test of one file. -/
structure Verdict where
  file : Text
  status : Status
  message : Text := ""
  diff : Text := ""
  expected : Option Result := none
  actual : Option Result := none
deriving DecidableEq

/-- Whether a verdict fails a suite. -/
def Verdict.isFailure (v : Verdict) : Bool := v.status = .fail || v.status = .error

/-- The texts of a comma-separated list. -/
def ignoredTexts (list : Text) : List Text := if list.isEmpty then [] else list.split 0x2C

/-- The verdict on a file from what was expected and what came out. -/
def judge (d : Differ) (ignored : List Text) (file : Text) (expected actual : Result) : Verdict :=
  let ds := Result.differences ignored expected actual
  if ds.isEmpty then
    { file, status := .pass, message := "All checks passed", expected := some expected, actual := some actual }
  else
    { file, status := .fail, message := "Compiler output, assembly or runtime output mismatch",
      diff := Text.concat (ds.map (Difference.report d)), expected := some expected, actual := some actual }

end AlgolMips.Golden
