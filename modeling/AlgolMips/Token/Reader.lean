import AlgolMips.Token.Scan

/-!
# Reading token by token

A reader holds what is left of a source and hands out its tokens one at a time. On the way to a token it passes blanks and
comments, and collects the faults. At the end of the source it hands out the token that stands for the end, again and
again.
-/

namespace AlgolMips

/-- The rest of a folded source, the place where it begins, and the faults met before it. -/
structure Reader where
  comments : Bool
  file : Int
  place : Position := {}
  rest : List Char
  faults : List (Token × ScanFault) := []

namespace Reader

/-- A reader at the beginning of a source. -/
def ofSource (comments : Bool) (file : Int) (source : List Char) : Reader :=
  { comments, file, rest := Text.foldChars source }

/-- The token that stands for the end of the source. -/
def eof (r : Reader) : Token := { file := r.file, line := r.place.line, column := r.place.column }

/-- The reader behind a segment. -/
def pass (r : Reader) (s : Segment) (rest : List Char) : Reader :=
  { r with
    place := r.place.advance s.text
    rest
    faults := r.faults ++ (s.fault? r.file).toList }

/-- The next token, and the reader behind it. -/
def next (r : Reader) : Token × Reader :=
  match _h : r.rest with
  | [] => (r.eof, r)
  | c :: cs =>
    let first := Scan.cut r.comments c cs
    let segment : Segment := ⟨r.place, first.text, first.cls⟩
    match segment.token? r.file with
    | some tok => (tok, r.pass segment first.rest)
    | none => (r.pass segment first.rest).next
termination_by r.rest.length
decreasing_by
  rw [_h]
  exact Scan.length_cut_rest r.comments c cs

theorem next_of_nil {r : Reader} (h : r.rest = []) : r.next = (r.eof, r) := by
  rw [next]
  split <;> simp_all

theorem length_next_le (r : Reader) : r.next.2.rest.length ≤ r.rest.length := by
  fun_induction next r with
  | case1 r h => exact Nat.le_refl _
  | case2 r c cs h first segment tok htok =>
    rw [h]
    exact Nat.le_of_lt (Scan.length_cut_rest r.comments c cs)
  | case3 r c cs h first segment htok ih =>
    rw [h]
    exact Nat.le_trans ih (Nat.le_of_lt (Scan.length_cut_rest r.comments c cs))

/-- A reader gets nearer to the end with every token that does not stand for the end. -/
theorem length_next_lt {r : Reader} (h : r.next.1.isEof = false) : r.next.2.rest.length < r.rest.length := by
  cases hrest : r.rest with
  | nil =>
    rw [next_of_nil hrest] at h
    cases h
  | cons c cs =>
    have hless := Scan.length_cut_rest r.comments c cs
    rw [next]
    split
    · simp_all
    · next c' cs' heq =>
      obtain ⟨rfl, rfl⟩ := List.cons.inj (hrest.symm.trans heq)
      dsimp only
      split
      · exact hless
      · exact Nat.lt_of_le_of_lt (length_next_le _) hless

/-- All tokens up to the end, and the reader there. -/
def all (r : Reader) : List Token × Reader :=
  if _h : r.next.1.isEof then ([], r.next.2)
  else
    let (tokens, last) := r.next.2.all
    (r.next.1 :: tokens, last)
termination_by r.rest.length
decreasing_by exact length_next_lt (by simpa using _h)

/-- The next tokens, as many as are asked for, and the reader behind them. -/
def take : Nat → Reader → List Token × Reader
  | 0, r => ([], r)
  | n + 1, r =>
    let (tokens, last) := take n r.next.2
    (r.next.1 :: tokens, last)

end Reader

end AlgolMips
