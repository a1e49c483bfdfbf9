import AlgolMips.Files.Tree

/-!
# Patterns for file names

In a pattern a star stands for any number of bytes, a question mark for one character, a bracket for one character of a
class, and a backslash takes the meaning away from the character behind it. A class is a list of characters and ranges, and
a caret in front turns it into its complement.

The stars outside of brackets cut a pattern into chunks. Each chunk is put at the first place of the name where it fits, and
what it leaves is for the chunks behind it; no earlier choice is taken back. A chunk that is not well formed is found out
only when its turn comes: a name that an earlier chunk refuses is refused without looking further.

Patterns for paths are matched directory by directory, and the paths that match are listed by name within each directory.
-/

namespace AlgolMips.Glob

open Text (Piece)

/-- A part of a pattern other than a star. -/
inductive Item where
  | any
  | literal (b : UInt8)
  | oneOf (complement : Bool) (ranges : List (Nat × Nat))
deriving DecidableEq

/-- The number of a piece; a stray byte counts as the replacement character. -/
def code : Piece → Nat
  | .char c => c.toNat
  | .stray _ => Text.replacement.toNat

/-- The character of a class at the front of a pattern. Something has to follow it, and a stray byte is refused. -/
def classChar : List Piece → Option (Nat × List Piece)
  | .char '-' :: _ => none
  | .char ']' :: _ => none
  | .char '\\' :: .char c :: p :: rest => some (c.toNat, p :: rest)
  | .char '\\' :: _ => none
  | .char c :: p :: rest => some (c.toNat, p :: rest)
  | _ => none

theorem length_classChar {ps : List Piece} {r : Nat × List Piece} (h : classChar ps = some r) :
    r.2.length < ps.length := by
  unfold classChar at h
  split at h <;> simp_all
  · obtain ⟨rfl, rfl⟩ := h
    simp
  · cases h
    simp

/-- A character or a range of a class. -/
def classRange (ps : List Piece) : Option ((Nat × Nat) × List Piece) :=
  match classChar ps with
  | none => none
  | some (lo, .char '-' :: rest) => (classChar rest).map fun (hi, rest) => ((lo, hi), rest)
  | some (lo, rest) => some ((lo, lo), rest)

theorem length_classRange {ps : List Piece} {r : (Nat × Nat) × List Piece} (h : classRange ps = some r) :
    r.2.length < ps.length := by
  unfold classRange at h
  split at h
  · cases h
  · rename_i lo rest hc
    have h1 := length_classChar hc
    simp only [Option.map_eq_some_iff] at h
    obtain ⟨⟨hi, tail⟩, h2, rfl⟩ := h
    have h3 := length_classChar h2
    simp only [List.length_cons] at h1 h3 ⊢
    omega
  · rename_i lo rest _ hc
    have h1 := length_classChar hc
    cases h
    simpa using h1

/-- The ranges of a class up to its closing bracket, of which there is at least one, and what stands behind it. -/
def classRanges (ps : List Piece) : Option (List (Nat × Nat) × List Piece) :=
  match h : classRange ps with
  | none => none
  | some (r, .char ']' :: rest) => some ([r], rest)
  | some (r, rest) =>
    have := length_classRange h
    (classRanges rest).map fun (rs, rest) => (r :: rs, rest)
termination_by ps.length

theorem length_classRanges {ps : List Piece} {r : List (Nat × Nat) × List Piece} (h : classRanges ps = some r) :
    r.2.length < ps.length := by
  fun_induction classRanges ps generalizing r with
  | case1 => cases h
  | case2 ps range rest hr =>
    have := length_classRange hr
    cases h
    simp only [List.length_cons] at this ⊢
    omega
  | case3 ps range rest _ hr _ ih =>
    have h1 := length_classRange hr
    simp only [Option.map_eq_some_iff] at h
    obtain ⟨⟨rs, tail⟩, h2, rfl⟩ := h
    have := ih h2
    simp only at this h1 ⊢
    omega

/-- A class behind its opening bracket. -/
def classItem (ps : List Piece) : Option (Item × List Piece) :=
  match ps with
  | .char '^' :: rest => (classRanges rest).map fun (rs, rest) => (.oneOf true rs, rest)
  | _ => (classRanges ps).map fun (rs, rest) => (.oneOf false rs, rest)

theorem length_classItem {ps : List Piece} {r : Item × List Piece} (h : classItem ps = some r) :
    r.2.length < ps.length := by
  unfold classItem at h
  split at h <;> simp only [Option.map_eq_some_iff] at h <;> obtain ⟨⟨rs, tail⟩, h2, rfl⟩ := h <;>
    have := length_classRanges h2 <;> simp only [List.length_cons] at this ⊢ <;> omega

/-- The items of a chunk, or nothing where it is not well formed. -/
def items (ps : List Piece) : Option (List Item) :=
  match ps with
  | [] => some []
  | .char '?' :: rest => (items rest).map (.any :: ·)
  | .char '\\' :: p :: rest => (items rest).map (p.bytes.map .literal ++ ·)
  | .char '\\' :: [] => none
  | .char '[' :: rest =>
    match h : classItem rest with
    | none => none
    | some (i, rest) =>
      have := length_classItem h
      (items rest).map (i :: ·)
  | p :: rest => (items rest).map (p.bytes.map .literal ++ ·)
termination_by ps.length
decreasing_by all_goals simp_all <;> omega

/-! ## Chunks -/

/-- What stands between two stars, and whether a star stands in front of it. -/
structure Chunk where
  starred : Bool
  pieces : List Piece
deriving DecidableEq

/-- Chunks with a piece in front of them. -/
def withPiece (p : Piece) : List Chunk → List Chunk
  | ⟨false, ps⟩ :: rest => ⟨false, p :: ps⟩ :: rest
  | cs => ⟨false, [p]⟩ :: cs

/-- Chunks with a star in front of them. -/
def withStar : List Chunk → List Chunk
  | ⟨_, ps⟩ :: rest => ⟨true, ps⟩ :: rest
  | [] => [⟨true, []⟩]

/-- The chunks of a pattern. In an open bracket a star has no meaning. -/
def chunks (bracketed : Bool) : List Piece → List Chunk
  | [] => []
  | .char '\\' :: p :: rest => withPiece (.char '\\') (withPiece p (chunks bracketed rest))
  | .char '[' :: rest => withPiece (.char '[') (chunks true rest)
  | .char ']' :: rest => withPiece (.char ']') (chunks false rest)
  | .char '*' :: rest =>
    if bracketed then withPiece (.char '*') (chunks bracketed rest) else withStar (chunks bracketed rest)
  | p :: rest => withPiece p (chunks bracketed rest)

def parse (pattern : Text) : List Chunk := chunks false pattern.pieces

/-! ## Matching -/

/-- What an item leaves of a name, if it takes the front of it. Inside a character, each byte of it counts as the replacement
character. -/
def Item.leaves? : Item → List UInt8 → Option (List UInt8)
  | _, [] => none
  | .literal b, c :: rest => if b = c then some rest else none
  | .any, c :: rest => some ((c :: rest).drop (Text.leadingPiece c rest).bytes.length)
  | .oneOf complement ranges, c :: rest =>
    let p := Text.leadingPiece c rest
    if (ranges.any fun (lo, hi) => lo ≤ code p && code p ≤ hi) != complement then
      some ((c :: rest).drop p.bytes.length)
    else none

/-- What items leave of a name at the very front of which they are put. Items at the end of a pattern have to leave
nothing. -/
def leaves? (is : List Item) (isLast : Bool) (name : List UInt8) : Option (List UInt8) :=
  (is.foldlM (fun left (i : Item) => i.leaves? left) name).filter fun left => !isLast || left.isEmpty

/-- What items leave of a name at the first place where they fit. Only a star lets them skip bytes. -/
def skips? (starred : Bool) (is : List Item) (isLast : Bool) : List UInt8 → Option (List UInt8)
  | [] => leaves? is isLast []
  | b :: rest =>
    match leaves? is isLast (b :: rest) with
    | some left => some left
    | none => if starred then skips? starred is isLast rest else none

/-- Whether chunks take a whole name, or nothing where a chunk whose turn comes is not well formed. -/
def takeWhole : List Chunk → List UInt8 → Option Bool
  | [], name => some name.isEmpty
  | c :: rest, name => do
    match skips? c.starred (← items c.pieces) rest.isEmpty name with
    | some left => takeWhole rest left
    | none => some false

def isMatch (cs : List Chunk) (name : Text) : Option Bool := takeWhole cs name.bytes

/-! ## Paths -/

/-- Whether a text has a character with a meaning in patterns. -/
def hasMeaning (t : Text) : Bool := t.bytes.any fun b => b = 0x2A || b = 0x3F || b = 0x5B || b = 0x5C

/-- The directory part of a pattern without its last slash. -/
def directoryPart (t : Text) : Text :=
  if t.isEmpty then "." else if t = "/" then t else ⟨t.bytes.dropLast⟩

/-- The paths in a directory whose names match, or nothing where one of its names shows that the pattern is not well
formed. -/
def within (t : FileTree) (cwd : Location) (cs : List Chunk) (dir : Text) : Option (List Text) :=
  match (t.find cwd dir).toOption with
  | some (l, .directory) => do
    let names ← (t.names l).filterM (isMatch cs)
    return names.map fun name => Path.join [dir, name]
  | _ => some []

/-- The paths that match a pattern of at most `fuel` parts, each directory part being a pattern of its own. Before any
directory is looked at, the pattern is tried on the empty name. -/
def expandWithin (t : FileTree) (cwd : Location) : Nat → Text → Option (List Text)
  | 0, _ => none
  | fuel + 1, pattern => do
    let _ ← isMatch (parse pattern) ""
    if !hasMeaning pattern then return if t.isThere cwd pattern then [pattern] else []
    let (front, last) := Path.split pattern
    let dir := directoryPart front
    let dirs ← if hasMeaning dir then expandWithin t cwd fuel dir else some [dir]
    return (← dirs.mapM (within t cwd (parse last))).flatten

/-- The paths that match a pattern, or nothing where the pattern is found not to be well formed or too many of its parts are
patterns. -/
def expand (t : FileTree) (cwd : Location) (pattern : Text) : Option (List Text) := expandWithin t cwd 10000 pattern

end AlgolMips.Glob
