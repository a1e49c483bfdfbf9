import AlgolMips.Text
import AlgolMips.Text.Blank
import AlgolMips.Text.LowerCase

/-!
# Words and case

The words of a text are its longest stretches without a blank character. A name is folded by taking the lower case of
each of its characters.
-/

namespace AlgolMips.Text

def Piece.isBlank : Piece → Bool
  | .char c => Text.isBlank c
  | .stray _ => false

/-- The text that pieces make up. -/
def ofPieces (ps : List Piece) : Text := ⟨ps.flatMap Piece.bytes⟩

/-- The words of a list of pieces, as pieces; the first list is the part of a word that has begun. -/
def wordsOf : List Piece → List Piece → List (List Piece)
  | word, [] => if word.isEmpty then [] else [word]
  | word, p :: rest =>
    if p.isBlank then
      if word.isEmpty then wordsOf [] rest else word :: wordsOf [] rest
    else wordsOf (word ++ [p]) rest

/-- The longest stretches of a text without a blank character. -/
def words (t : Text) : List Text := (wordsOf [] t.pieces).map ofPieces

/-- A text without the blank characters at its beginning. -/
def trimBlank (t : Text) : Text := ofPieces (t.pieces.dropWhile Piece.isBlank)

/-- Characters in lower case. -/
def foldChars (cs : List Char) : List Char := cs.map lowerChar

/-- A text in lower case. A stray byte becomes the replacement character. -/
def fold (t : Text) : Text := ofChars (foldChars t.chars)

/-- The number of characters of a text, a stray byte counting as one. -/
def width (t : Text) : Nat := t.pieces.length

/-- A text with spaces after it up to `n` characters. -/
def padRight (n : Nat) (t : Text) : Text := t ++ replicate (n - t.width) " "

/-- A text with spaces before it up to `n` characters. -/
def padLeft (n : Nat) (t : Text) : Text := replicate (n - t.width) " " ++ t

end AlgolMips.Text
