import AlgolMips.Files.Tree

/-!
# Scripts

What a command does is kept as a tree of its steps. A step prints, reads a file or writes one, and the steps behind a file
operation depend on how it went. Running a script on a file tree gives what it printed, its status and the tree it left.
-/

namespace AlgolMips

/-- The steps of a command. -/
inductive Script where
  | exit (status : Nat)
  | stdout (t : Text) (next : Script)
  | stderr (t : Text) (next : Script)
  | read (path : Text) (next : Except FileFailure Text → Script)
  | write (path content : Text) (next : Option FileFailure → Script)

/-- What a command printed, and its status. -/
structure Outcome where
  stdout : Text := ""
  stderr : Text := ""
  status : Nat := 0
deriving DecidableEq

namespace Outcome

def precededBy (o : Outcome) (stdout stderr : Text) : Outcome :=
  { o with stdout := stdout ++ o.stdout, stderr := stderr ++ o.stderr }

end Outcome

namespace Script

/-- Runs a script in a directory of a tree. -/
def run (cwd : Location) : Script → FileTree → Outcome × FileTree
  | exit status, files => ({ status }, files)
  | stdout t next, files => ((next.run cwd files).1.precededBy t "", (next.run cwd files).2)
  | stderr t next, files => ((next.run cwd files).1.precededBy "" t, (next.run cwd files).2)
  | read path next, files => (next (files.read cwd path)).run cwd files
  | write path content next, files =>
    (next (files.write cwd path content).1).run cwd (files.write cwd path content).2

end Script

end AlgolMips
