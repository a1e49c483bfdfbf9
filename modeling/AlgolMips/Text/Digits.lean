/-!
# Decimal digits

Digits as bytes, and the numbers that rows of them spell.
-/

namespace AlgolMips.Text

def isDigit (b : UInt8) : Bool := 0x30 ≤ b && b ≤ 0x39

/-- The number that digits spell, the first one counting most. -/
def digitsValue (ds : List UInt8) : Nat := ds.foldl (fun n b => n * 10 + (b.toNat - 0x30)) 0

end AlgolMips.Text
