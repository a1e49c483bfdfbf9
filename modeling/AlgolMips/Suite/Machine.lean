import AlgolMips.Files.Tree
import AlgolMips.Golden.Compare

/-!
# The machine of a suite

What a suite needs from outside: programs that it starts, fingerprints of contents, and a way to set texts against one
another. All of this is given with the machine, and nothing is assumed of it here. A program may print, read and write
files, and end as it likes; the suite waits for it, at most as long as it was told to.
-/

namespace AlgolMips.Suite

/-- How a program that was started came to its end. -/
inductive Ending where
  | exited (status : Int)
  /-- The time was over before the program was. -/
  | overdue
  /-- There was no program to wait for, and why. -/
  | unstarted (reason : Text)
deriving DecidableEq

/-- What is left of a program that was started. The duration is in nanoseconds. -/
structure Started where
  stdout : Text := ""
  stderr : Text := ""
  duration : Int64 := 0
  ending : Ending
deriving DecidableEq

/-- The surroundings of a suite. -/
structure Machine where
  cwd : Location
  /-- The fingerprint of a content. -/
  fingerprint : Text → Text
  differ : Golden.Differ
  /-- Whether there is a program with a name. -/
  isInstalled : FileTree → Text → Bool
  /-- Starts a program by its name, with a time in nanoseconds, arguments and an input. -/
  start : Int → FileTree → Text → List Text → Text → Started × FileTree

/-- What a program that was started is stored as. A program that was not started leaves the reason in what it printed. -/
def Started.execution (p : Started) : Golden.Execution :=
  match p.ending with
  | .overdue => { stdout := p.stdout, stderr := p.stderr, duration := p.duration, exitCode := -1, timedOut := true }
  | .exited status => { stdout := p.stdout, stderr := p.stderr, duration := p.duration, exitCode := status }
  | .unstarted reason =>
    { stdout := p.stdout, stderr := p.stderr ++ "\nExecution error: " ++ reason, duration := p.duration, exitCode := -2 }

/-- Starts a program and waits for it. -/
def Machine.execute (m : Machine) (timeout : Int) (files : FileTree) (name : Text) (args : List Text) (input : Text) :
    Golden.Execution × FileTree :=
  let (started, files) := m.start timeout files name args input
  (started.execution, files)

end AlgolMips.Suite
