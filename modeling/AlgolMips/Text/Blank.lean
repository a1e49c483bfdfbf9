import AlgolMips.Text.Ranges

/-!
# Blank characters

The code points with the property White_Space in Unicode 17.0.
-/

namespace AlgolMips.Text

/-- The code points with the property White_Space. -/
def blankRanges : Ranges := [
  (0x9, 0xD), (0x20, 0x20), (0x85, 0x85), (0xA0, 0xA0), (0x1680, 0x1680), (0x2000, 0x200A), (0x2028, 0x2029),
  (0x202F, 0x202F), (0x205F, 0x205F), (0x3000, 0x3000)]

/-- Whether a character is blank: a space, a line end or another separator of words. -/
def isBlank (c : Char) : Bool := blankRanges.holds c.toNat

end AlgolMips.Text
