import AlgolMips.Text

/-!
# Counts of copies

A row of copies of one character is asked for by a signed word. Not every word is a count: it may be negative, or call for
more bytes than a text can have.
-/

namespace AlgolMips.Text

/-- Why a word is no count of copies. -/
inductive CountFault where
  | negative
  | tooLarge
deriving DecidableEq

def CountFault.message : CountFault → Text
  | negative => "strings: negative Repeat count"
  | tooLarge => "runtime error: makeslice: len out of range"

/-- The largest number of bytes that a text can have. -/
def largestSize : Int64 := 0x1000000000000

/-- What keeps a word from being a count of copies of a one-byte character. -/
def countFault? (n : Int64) : Option CountFault :=
  if n < 0 then some .negative else if largestSize < n then some .tooLarge else none

end AlgolMips.Text
