import AlgolMips.Text.Copies
import AlgolMips.Text.Words

/-!
# Layout of pages

Explanations are broken into lines between words: a line takes as many words as fit, and a word that is too long has a
line of its own. Widths are counted in bytes, columns are filled by characters.
-/

namespace AlgolMips.Options

/-- Lines of words, each as full as it can be; `line` is the one that has begun. -/
def wrapWords (width : Nat) : Text → List Text → List Text
  | line, [] => if line.isEmpty then [] else [line]
  | line, w :: rest =>
    if line.isEmpty then wrapWords width w rest
    else if line.size + w.size + 1 > width then line :: wrapWords width w rest
    else wrapWords width (line ++ " " ++ w) rest

/-- A text broken into lines of at most `width` bytes. Without any width it stays as it is. -/
def wrap (t : Text) (width : Int) : List Text :=
  if width ≤ 0 then [t] else wrapWords width.toNat "" t.words

/-- Four spaces for each level. -/
def indent (level : Nat) : Text := Text.replicate (4 * level) " "

/-- The largest width of a column, whatever its sign. -/
def widest : Nat := 1000000

/-- A text in a column as wide as the size of `width` says, its sign apart. A column that is too wide is not filled, and a
note stands in front of the text. -/
def inColumn (width : Int64) (t : Text) : Text :=
  if widest < width.toInt.natAbs then "%!(BADWIDTH)" ++ t else t.padRight width.toInt.natAbs

/-- The width of a page on a terminal of the given number of columns, or on something that is no terminal. -/
def pageWidth : Option UInt16 → Int64
  | none => 80
  | some columns => max (Int64.ofNat columns.toNat) 20

/-- The columns of a page: its width, the widths of the left column and of the longest explanation. -/
structure Columns where
  page : Int64
  left : Int64
  usage : Nat

/-- The columns for an explanation in front of a mark: what the rest of the line leaves, but at least ten. -/
def Columns.room (c : Columns) (mark : Text) : Int64 := max 10 (c.page - (8 + c.left + 1 + 2 + Int64.ofNat mark.size))

/-- The width of the column of explanations: that of the longest one, as far as there is room for it. -/
def Columns.middle (c : Columns) (mark : Text) : Int64 :=
  if (c.room mark).toInt < c.usage then c.room mark else Int64.ofNat c.usage

/-- The width of the gap in front of the further lines of an explanation. -/
def Columns.gap (c : Columns) : Int64 := c.left + 1

/-- An entry of a page: a name on the left, an explanation broken into lines, and a mark behind its first line. -/
def entry (c : Columns) (name usage mark : Text) : Text :=
  let lines := wrap usage (c.room mark).toInt
  let first := lines.headD ""
  let head := indent 2 ++ inColumn c.left name ++ " "
  let opening :=
    if mark.isEmpty then head ++ first
    else head ++ inColumn (c.middle mark) first ++ "  " ++ mark
  Text.unlines (opening :: lines.tail.map fun l => indent 2 ++ Text.replicate c.gap.toInt.toNat " " ++ l)

/-- An entry, provided that its gap can be filled. -/
def entry? (c : Columns) (name usage mark : Text) : Except Text.CountFault Text :=
  match Text.countFault? c.gap with
  | some fault => .error fault
  | none => .ok (entry c name usage mark)

end AlgolMips.Options
