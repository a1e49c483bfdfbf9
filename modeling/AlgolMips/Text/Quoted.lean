import AlgolMips.Text
import AlgolMips.Text.Printable

/-!
# Quoted texts

A quoted text stands between double quotes and shows every byte: printable characters as themselves, the quote and the
backslash behind a backslash, seven control characters by a letter, and all else by its number in hexadecimal digits.
-/

namespace AlgolMips.Text

/-- The hexadecimal digit of a number below sixteen, in lower case. -/
def hexDigit (n : Nat) : Char := Char.ofNat (if n < 10 then 0x30 + n else 0x57 + n)

/-- The last `width` hexadecimal digits of `n`, in lower case. -/
def hexDigits : Nat → Nat → List Char
  | 0, _ => []
  | width + 1, n => hexDigits width (n / 16) ++ [hexDigit (n % 16)]

/-- The letter that stands for a control character behind a backslash. -/
def controlLetter? (c : Char) : Option Char :=
  [(7, 'a'), (8, 'b'), (9, 't'), (10, 'n'), (11, 'v'), (12, 'f'), (13, 'r')].lookup c.toNat

/-- How a character is written between quotes. -/
def quotedChar (c : Char) : List Char :=
  if c = '"' ∨ c = '\\' then ['\\', c]
  else if c = ' ' ∨ isGraphic c then [c]
  else match controlLetter? c with
    | some l => ['\\', l]
    | none =>
      if c.toNat < 0x20 ∨ c.toNat = 0x7F then '\\' :: 'x' :: hexDigits 2 c.toNat
      else if c.toNat < 0x10000 then '\\' :: 'u' :: hexDigits 4 c.toNat
      else '\\' :: 'U' :: hexDigits 8 c.toNat

/-- How a piece is written between quotes: a stray byte by its two digits. -/
def quotedPiece : Piece → List Char
  | .char c => quotedChar c
  | .stray b => '\\' :: 'x' :: hexDigits 2 b.toNat

/-- A text between double quotes. -/
def quote (t : Text) : Text := ofChars ('"' :: t.pieces.flatMap quotedPiece ++ ['"'])

end AlgolMips.Text
