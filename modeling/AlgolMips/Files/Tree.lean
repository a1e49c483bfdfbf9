import AlgolMips.Path

/-!
# File trees

A tree of directories, files, executables and devices, with the operations that commands use on it. A path is followed from
the working directory part by part: every part but the last has to be a directory, a dot stays where it is and a pair of
dots goes one directory up. Paths and their parts have a longest size, and what is longer is refused where it is met. An
operation that fails leaves the tree as it was and says what was attempted on which path.
-/

namespace AlgolMips

/-- What stands at a place of a tree. -/
inductive Node where
  | directory
  | file (content : Text)
  /-- A file that can be started. -/
  | executable (content : Text)
  /-- A device that takes whatever is written. -/
  | sink
  /-- A device that has no space for anything. -/
  | full
deriving DecidableEq

/-- Why an operation on a path failed. -/
inductive FileCause where
  | notFound
  | notDirectory
  | isDirectory
  | alreadyThere
  | noSpace
  | denied
  | busy
  | nameTooLong
deriving DecidableEq

def FileCause.message : FileCause → Text
  | notFound => "no such file or directory"
  | notDirectory => "not a directory"
  | isDirectory => "is a directory"
  | alreadyThere => "file exists"
  | noSpace => "no space left on device"
  | denied => "permission denied"
  | busy => "text file busy"
  | nameTooLong => "file name too long"

/-- What was attempted on a path. -/
inductive FileAction where
  | opening
  | reading
  | writing
  | makingDirectory
  | starting
deriving DecidableEq

def FileAction.name : FileAction → Text
  | opening => "open"
  | reading => "read"
  | writing => "write"
  | makingDirectory => "mkdir"
  | starting => "fork/exec"

/-- A failed operation. -/
structure FileFailure where
  action : FileAction
  path : Text
  cause : FileCause
deriving DecidableEq

def FileFailure.message (f : FileFailure) : Text := f.action.name ++ " " ++ f.path ++ ": " ++ f.cause.message

/-- The parts that lead from the root to a place. -/
abbrev Location := List Text

/-- Everything that stands in a tree, by place. The root is a directory. -/
structure FileTree where
  nodes : List (Location × Node) := []
deriving DecidableEq

namespace FileTree

/-- What stands at a place. -/
def node? (t : FileTree) (l : Location) : Option Node := if l.isEmpty then some .directory else t.nodes.lookup l

/-- Puts something at a place. -/
def put (t : FileTree) (l : Location) (n : Node) : FileTree :=
  ⟨t.nodes.filter (fun e => e.1 ≠ l) ++ [(l, n)]⟩

/-- Takes a place and everything below it away. -/
def erase (t : FileTree) (l : Location) : FileTree := ⟨t.nodes.filter fun e => !l.isPrefixOf e.1⟩

/-- A directory at a place, and at every place above it. -/
def putDirectory (t : FileTree) (l : Location) : FileTree :=
  ((List.range l.length).map fun n => l.take (n + 1)).foldl
    (fun t m => if t.node? m = none then t.put m .directory else t) t

/-- The names in a directory, in order. -/
def names (t : FileTree) (l : Location) : List Text :=
  (t.nodes.filterMap fun (m, _) => if m.dropLast = l then m.getLast? else none).mergeSort Text.le

/-- The files at and below a place, as paths from there. -/
def filesBelow (t : FileTree) (l : Location) : List (Text × Text) :=
  t.nodes.filterMap fun (m, n) =>
    match n with
    | .file content => if l.isPrefixOf m then some (Text.join "/" (m.drop l.length), content) else none
    | _ => none

/-- The longest size of a part of a path. -/
def longestPart : Nat := 255

/-- The longest size of a path. -/
def longestPath : Nat := 4095

/-- What stands at a place whose directory is there, if its name is not too long to be looked up. -/
def lookUp (t : FileTree) (l : Location) : Except FileCause (Option Node) :=
  if l.getLast?.any fun p => longestPart < p.size then .error .nameTooLong else .ok (t.node? l)

/-- The place that parts lead to from a directory. The last part is not looked up. -/
def follow (t : FileTree) : Location → List Text → Except FileCause Location
  | here, [] => .ok here
  | here, p :: rest =>
    if p = "." then follow t here rest
    else if p = ".." then follow t here.dropLast rest
    else
      let next := here ++ [p]
      if rest.isEmpty then .ok next
      else match t.lookUp next with
        | .ok (some .directory) => follow t next rest
        | .ok (some _) => .error .notDirectory
        | .ok none => .error .notFound
        | .error e => .error e

/-- Whether a path ends with a slash, behind which only a directory may stand. -/
def endsAsDirectory (path : Text) : Bool := path.bytes.getLast? = some Path.slash

/-- The place that a path leads to. -/
def locate (t : FileTree) (cwd : Location) (path : Text) : Except FileCause Location :=
  if path.isEmpty then .error .notFound
  else if longestPath < path.size then .error .nameTooLong
  else
    t.follow (if Path.isAbsolute path then [] else cwd) ((path.split Path.slash).filter fun p => !p.isEmpty)

/-- What stands at the end of a path. -/
def find (t : FileTree) (cwd : Location) (path : Text) : Except FileCause (Location × Node) := do
  let l ← t.locate cwd path
  match ← t.lookUp l with
  | none => .error .notFound
  | some .directory => return (l, .directory)
  | some n => if endsAsDirectory path then .error .notDirectory else return (l, n)

def isThere (t : FileTree) (cwd : Location) (path : Text) : Bool := (t.find cwd path).toOption.isSome

def isDirectory (t : FileTree) (cwd : Location) (path : Text) : Bool :=
  (t.find cwd path).toOption.map Prod.snd = some .directory

/-- Whether a path leads to a file or an executable. -/
def isRegular (t : FileTree) (cwd : Location) (path : Text) : Bool :=
  match (t.find cwd path).toOption.map Prod.snd with
  | some (.file _) => true
  | some (.executable _) => true
  | _ => false

/-- The content of a file. -/
def read (t : FileTree) (cwd : Location) (path : Text) : Except FileFailure Text :=
  match t.find cwd path with
  | .error e => .error ⟨.opening, path, e⟩
  | .ok (_, .directory) => .error ⟨.reading, path, .isDirectory⟩
  | .ok (_, .file content) => .ok content
  | .ok (_, .executable content) => .ok content
  | .ok (_, .sink) => .ok ""
  | .ok (_, .full) => .ok ""

/-- Opens a path for writing, with an empty file there. -/
def create (t : FileTree) (cwd : Location) (path : Text) : Except FileFailure (Location × FileTree) :=
  match t.locate cwd path with
  | .error e => .error ⟨.opening, path, e⟩
  | .ok l =>
    if endsAsDirectory path then .error ⟨.opening, path, .isDirectory⟩
    else match t.lookUp l with
      | .error e => .error ⟨.opening, path, e⟩
      | .ok (some .directory) => .error ⟨.opening, path, .isDirectory⟩
      | .ok (some (.executable _)) => .error ⟨.opening, path, .busy⟩
      | .ok (some .sink) => .ok (l, t)
      | .ok (some .full) => .ok (l, t)
      | .ok (some (.file _)) => .ok (l, t.put l (.file ""))
      | .ok none => .ok (l, t.put l (.file ""))

/-- Writes a text in place of what a file held. A device without space fails unless the text is empty. -/
def write (t : FileTree) (cwd : Location) (path content : Text) : Option FileFailure × FileTree :=
  match t.create cwd path with
  | .error f => (some f, t)
  | .ok (l, t) =>
    match t.node? l with
    | some .full => (if content.isEmpty then none else some ⟨.writing, path, .noSpace⟩, t)
    | some (.file _) => (none, t.put l (.file content))
    | _ => (none, t)

/-- The path up to the last of its parts. -/
def parentPath (path : Text) : Text :=
  ⟨((path.bytes.reverse.dropWhile (· == Path.slash)).dropWhile (· != Path.slash)).reverse⟩

/-- Makes one directory. -/
def makeDirectory (t : FileTree) (cwd : Location) (path : Text) : Except FileFailure FileTree :=
  match t.locate cwd path with
  | .error e => .error ⟨.makingDirectory, path, e⟩
  | .ok l =>
    match t.lookUp l with
    | .error e => .error ⟨.makingDirectory, path, e⟩
    | .ok none => .ok (t.put l .directory)
    | .ok (some .directory) => .ok t
    | .ok (some _) => .error ⟨.makingDirectory, path, .alreadyThere⟩

/-- Makes the directories that `fuel` parts of a path name, from the outermost one. -/
def makeDirectoriesWithin (t : FileTree) (cwd : Location) : Nat → Text → Except FileFailure FileTree
  | 0, path => t.makeDirectory cwd path
  | fuel + 1, path =>
    match t.find cwd path with
    | .ok (_, .directory) => .ok t
    | .ok _ => .error ⟨.makingDirectory, path, .notDirectory⟩
    | .error _ => do
      let outer := parentPath path
      let t ← if outer.isEmpty then .ok t else t.makeDirectoriesWithin cwd fuel outer
      t.makeDirectory cwd path

/-- Makes a directory and those above it that are missing. -/
def makeDirectories (t : FileTree) (cwd : Location) (path : Text) : Except FileFailure FileTree :=
  t.makeDirectoriesWithin cwd path.size path

end FileTree

end AlgolMips
