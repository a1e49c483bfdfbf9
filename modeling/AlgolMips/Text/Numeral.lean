import AlgolMips.Text
import AlgolMips.Text.Digits

/-!
# Numerals

A numeral has an optional sign, an optional mark of its base and digits. The marks are `0b` for two, `0o` or a mere zero for
eight and `0x` for sixteen; without one the base is ten. A single underscore may stand between two digits, and between the
mark and the first digit.
-/

namespace AlgolMips.Text

/-- The sign in front of a number, if there is one. -/
def signOf (bs : List UInt8) : Int × List UInt8 :=
  match bs with
  | 0x2D :: rest => (-1, rest)
  | 0x2B :: rest => (1, rest)
  | _ => (1, bs)

/-- The value of a digit; letters go on behind nine, whatever their case. -/
def digitValue? (b : UInt8) : Option Nat :=
  if isDigit b then some (b.toNat - 0x30)
  else if 0x61 ≤ b ∧ b ≤ 0x7A then some (b.toNat - 0x57)
  else if 0x41 ≤ b ∧ b ≤ 0x5A then some (b.toNat - 0x37)
  else none

/-- The base that a letter behind a zero marks. -/
def markedBase? (b : UInt8) : Option Nat :=
  [(0x62, 2), (0x42, 2), (0x6F, 8), (0x4F, 8), (0x78, 16), (0x58, 16)].lookup b

/-- The base of an unsigned numeral, whether it has a mark, and what stands behind the mark. -/
def baseOf (bs : List UInt8) : Nat × Bool × List UInt8 :=
  match bs with
  | 0x30 :: b :: d :: rest =>
    match markedBase? b with
    | some base => (base, true, d :: rest)
    | none => (8, true, b :: d :: rest)
  | 0x30 :: rest => (8, true, rest)
  | _ => (10, false, bs)

/-- The digits between underscores, run together, if the underscores are in place. -/
def joinDigits (marked : Bool) (digits : Text) : Option (List UInt8) :=
  match digits.split 0x5F with
  | [] => none
  | first :: rest =>
    if (marked || !first.isEmpty) && rest.all fun p => !p.isEmpty then some (first.bytes ++ rest.flatMap bytes) else none

/-- The number that digits spell in a base, behind the digits of `n`. -/
def numberInBase? (base n : Nat) : List UInt8 → Option Nat
  | [] => some n
  | b :: rest =>
    match digitValue? b with
    | some d => if d < base then numberInBase? base (n * base + d) rest else none
    | none => none

/-- The integer that a numeral spells, if a word can hold it. -/
def numeral? (t : Text) : Option Int := do
  let (sign, bs) := signOf t.bytes
  let (base, marked, digits) := baseOf bs
  let n ← numberInBase? base 0 (← joinDigits marked ⟨digits⟩)
  let value := sign * n
  if Int64.minValue.toInt ≤ value ∧ value ≤ Int64.maxValue.toInt then some value else none

end AlgolMips.Text
