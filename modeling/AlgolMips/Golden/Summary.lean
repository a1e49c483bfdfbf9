import AlgolMips.Golden.Compare
import AlgolMips.Path

/-!
# Summaries and reports

The verdicts of a suite are summed up on the terminal and stored in one report, by file.
-/

namespace AlgolMips.Golden

/-- The colours of a summary. -/
inductive Tint where
  | red
  | yellow
  | green
  | cyan
  | bold

def Tint.code : Tint → Text
  | red => "\x1b[91m"
  | yellow => "\x1b[93m"
  | green => "\x1b[92m"
  | cyan => "\x1b[96m"
  | bold => "\x1b[1m"

/-- Ends a colour. -/
def plain : Text := "\x1b[0m"

def Tint.paint (t : Tint) (s : Text) : Text := t.code ++ s ++ plain

/-- A duration in microseconds below a millisecond, in milliseconds from there on, right-aligned. -/
def showDuration (d : Int64) : Text :=
  if d < 1000000 then (Text.ofWord (d / 1000)).padLeft 6 ++ "µs" else (Text.ofWord (d / 1000000)).padLeft 6 ++ "ms"

/-- A line of a difference, coloured by its first mark. -/
def tintedLine (line : Text) : Text :=
  let mark := line.trimBlank
  Text.onlyIf (mark.startsWith "-") Tint.red.code ++ Text.onlyIf (mark.startsWith "+") Tint.green.code ++
    "    " ++ line ++ plain

/-- A difference under its heading. -/
def showDiff (diff : Text) : Text :=
  if diff.isEmpty then "" else "    --- Diff ---\n" ++ Text.unlines (diff.lines.map tintedLine)

/-- How durations and differences are shown. -/
structure SummaryStyle where
  verbose : Bool := false
  duration : Int64 → Text := showDuration
  diff : Text → Text := showDiff

def rule : Text := Text.replicate 70 "-"

/-- The line of a verdict; a status that is none of the four has none. -/
def statusLines (style : SummaryStyle) (v : Verdict) : List Text :=
  match v.status with
  | .pass => [line .green]
  | .fail => [line .red, style.diff v.diff]
  | .skip => [line .yellow]
  | .error => [line .red]
  | .other _ => []
where
  line (t : Tint) : Text := "  [" ++ t.paint v.status.name ++ "] " ++ v.message

/-- The lines about durations. -/
def durationLines (style : SummaryStyle) (r : Result) : List Text :=
  ("  compile: " ++ style.duration r.compile.duration) :: r.runs.map fun run =>
    "  run " ++ run.name.padRight 10 ++ " " ++ style.duration run.result.duration ++
      " (exit " ++ Text.ofInt run.result.exitCode ++ ")"

/-- The lines about one file. -/
def verdictLines (style : SummaryStyle) (v : Verdict) : List Text :=
  [rule, "Testing " ++ Tint.cyan.paint v.file ++ "..."] ++ statusLines style v ++
    if style.verbose then (v.actual.map (durationLines style)).getD [] else []

/-- The line that counts verdicts. -/
def countLine (vs : List Verdict) : Text :=
  let count (s : Status) := Text.ofNat (vs.countP fun v => v.status = s)
  Tint.bold.paint "Test Summary:" ++ " " ++
    Text.join ", " [Tint.green.paint (count .pass ++ " Passed"), Tint.red.paint (count .fail ++ " Failed"),
      Tint.yellow.paint (count .skip ++ " Skipped"), Tint.red.paint (count .error ++ " Errored"),
      Text.ofNat vs.length ++ " Total"]

/-- The line with the average over the files that were compiled, if any were. Durations are words and wrap around. -/
def averageLines (style : SummaryStyle) (vs : List Verdict) : List Text :=
  let ds := vs.filterMap fun v => v.actual.map fun r => r.compile.duration
  if ds.isEmpty then []
  else ["Average compile time: " ++ style.duration (ds.foldl (· + ·) 0 / Int64.ofNat ds.length)]

/-- The summary of a suite. -/
def summary (style : SummaryStyle) (vs : List Verdict) : Text :=
  Text.unlines (vs.flatMap (verdictLines style) ++ [rule, countLine vs] ++ averageLines style vs)

/-- The verdicts by file: of two with one file the later counts. -/
def byFile (vs : List Verdict) : List Verdict :=
  (vs.foldl (fun done v => done.filter (fun d => d.file ≠ v.file) ++ [v]) []).mergeSort fun v w => v.file.le w.file

def Verdict.toJson (v : Verdict) : Json :=
  .record (member "file" (.string v.file) ++ member "status" (.string v.status.name) ++ textMember "message" v.message ++
    textMember "diff" v.diff ++ (v.expected.map fun r => member "expected" r.toJson).getD [] ++
    (v.actual.map fun r => member "actual" r.toJson).getD [])

/-- The stored report. -/
def report (vs : List Verdict) : Text :=
  JsonTree.render 0 (Json.record ((byFile vs).map fun v => (v.file, v.toJson)))

/-- Whether a suite failed. -/
def hasFailures (vs : List Verdict) : Bool := (byFile vs).any Verdict.isFailure

/-- Where the golden result of a source file is stored: beside it, or in a directory for all of them. -/
def goldenPath (dir source : Text) : Text :=
  Path.join [if dir.isEmpty then Path.dir source else dir, "." ++ Path.base source ++ ".json"]

/-- Where the report is stored. -/
def reportPath (dir output : Text) : Text := if dir.isEmpty then output else Path.join [dir, output]

end AlgolMips.Golden
