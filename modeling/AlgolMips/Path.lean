import AlgolMips.Text

/-!
# Paths

Paths are texts with slashes between their parts. Cleaning a path drops empty parts and single dots, and takes a part
away for each pair of dots behind it.
-/

namespace AlgolMips.Path

/-- The byte between the parts of a path. -/
def slash : UInt8 := 0x2F

def isAbsolute (p : Text) : Bool := p.bytes.head? = some slash

/-- The parts of a clean path, the last one first: a pair of dots takes the part before it away, or stays where there is
none to take, except at the root. -/
def cleanParts (rooted : Bool) : List Text → List Text → List Text
  | done, [] => done
  | done, p :: rest =>
    if p.isEmpty || p = "." then cleanParts rooted done rest
    else if p = ".." then
      match done with
      | [] => cleanParts rooted (if rooted then [] else [p]) rest
      | d :: before => if d = ".." then cleanParts rooted (p :: d :: before) rest else cleanParts rooted before rest
    else cleanParts rooted (p :: done) rest

/-- The shortest path that leads to the same place. -/
def clean (p : Text) : Text :=
  let rooted := isAbsolute p
  let body := Text.join "/" (cleanParts rooted [] (p.split slash)).reverse
  if rooted then "/" ++ body else if body.isEmpty then "." else body

/-- The path up to and with its last slash, and what stands behind it. -/
def split (p : Text) : Text × Text :=
  let file := (p.bytes.reverse.takeWhile (· != slash)).reverse
  (⟨p.bytes.take (p.bytes.length - file.length)⟩, ⟨file⟩)

/-- The last part of a path. -/
def base (p : Text) : Text :=
  if p.isEmpty then "."
  else
    let stripped := p.bytes.reverse.dropWhile (· == slash)
    if stripped.isEmpty then "/" else ⟨(stripped.takeWhile (· != slash)).reverse⟩

/-- The path without its last part. -/
def dir (p : Text) : Text := clean (split p).1

/-- Paths one behind the other; empty ones at the beginning do not count. -/
def join (ps : List Text) : Text :=
  match ps.dropWhile Text.isEmpty with
  | [] => ""
  | qs => clean (Text.join "/" qs)

/-- The last dot of the last part and what stands behind it. -/
def extension (p : Text) : Text :=
  let file := (split p).2.bytes.reverse
  let tail := file.takeWhile (· != 0x2E)
  if tail.length = file.length then "" else ⟨0x2E :: tail.reverse⟩

/-- A path seen from a directory. -/
def absolute (cwd p : Text) : Text := if isAbsolute p then clean p else join [cwd, p]

end AlgolMips.Path
