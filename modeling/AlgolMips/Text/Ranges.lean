/-!
# Sets of code points

A set of code points is given as a list of ranges, both ends included, in ascending order and apart from each other.
-/

namespace AlgolMips.Text

/-- A set of code points, as ascending ranges with both ends included. -/
abbrev Ranges := List (Nat × Nat)

/-- Whether one of the ranges holds `n`. The search ends at the first range that begins above `n`. -/
def Ranges.holds : Ranges → Nat → Bool
  | [], _ => false
  | (lo, hi) :: rest, n => if n < lo then false else n ≤ hi || Ranges.holds rest n

end AlgolMips.Text
