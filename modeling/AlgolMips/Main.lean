import AlgolMips.Command.Compile
import Std.Time

/-!
# The compiler on a real machine

Carries the script of the compiler command out on the files and streams of the machine. Nothing asks the machine for the
size of its terminal, so pages are laid out as for something that is no terminal.
-/

namespace AlgolMips.Host

/-- The cause behind an error of the machine, by its code where the kind of error does not tell. -/
def causeOf : IO.Error → FileCause
  | .noFileOrDirectory .. => .notFound
  | .alreadyExists .. => .alreadyThere
  | .inappropriateType _ code _ => if code = 20 then .notDirectory else .isDirectory
  | .resourceExhausted .. => .noSpace
  | .resourceBusy .. => .busy
  | .invalidArgument _ 36 _ => .nameTooLong
  | _ => .denied

/-- A text as the machine spells it. -/
def spelled (t : Text) : String := String.ofList t.chars

def readFile (path : Text) : IO (Except FileFailure Text) := do
  match ← (IO.FS.Handle.mk ⟨spelled path⟩ .read).toBaseIO with
  | .error e => return .error ⟨.opening, path, causeOf e⟩
  | .ok handle =>
    match ← handle.readBinToEnd.toBaseIO with
    | .error e => return .error ⟨.reading, path, causeOf e⟩
    | .ok bytes => return .ok ⟨bytes.toList⟩

def writeStream (stream : IO.FS.Stream) (t : Text) : IO Unit := do
  stream.write ⟨t.bytes.toArray⟩
  stream.flush

def writeFile (path content : Text) : IO (Option FileFailure) := do
  match ← (IO.FS.Handle.mk ⟨spelled path⟩ .write).toBaseIO with
  | .error e => return some ⟨.opening, path, causeOf e⟩
  | .ok handle =>
    match ← (writeStream (.ofHandle handle) content).toBaseIO with
    | .error e => return some ⟨.writing, path, causeOf e⟩
    | .ok _ => return none

/-- Carries a script out and gives its status. -/
def perform : Script → IO UInt32
  | .exit status => return status.toUInt32
  | .stdout t next => do
    writeStream (← IO.getStdout) t
    perform next
  | .stderr t next => do
    writeStream (← IO.getStderr) t
    perform next
  | .read path next => do
    perform (next (← readFile path))
  | .write path content next => do
    perform (next (← writeFile path content))

/-- The present year. -/
def year : IO Text := do
  let today ← Std.Time.PlainDate.now
  return Text.ofInt today.year

end AlgolMips.Host

def main (args : List String) : IO UInt32 := do
  let environment := (← IO.getEnv "AWCFLAGS").getD ""
  AlgolMips.Host.perform
    (AlgolMips.Command.compile (← AlgolMips.Host.year) none environment (args.map AlgolMips.Text.ofString))
