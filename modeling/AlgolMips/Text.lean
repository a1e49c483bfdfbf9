/-!
# Texts

A text is a string of bytes. Every name, lexeme, line and message of the library is one, so that bytes which are no
UTF-8 survive from the input to the output. Where characters matter, a text is read as a list of `Piece`s: each piece
is a well-formed UTF-8 sequence or one stray byte.
-/

namespace AlgolMips

/-- A string of bytes. -/
structure Text where
  bytes : List UInt8
deriving DecidableEq, Inhabited, Hashable

namespace Text

/-- The UTF-8 bytes of a string. -/
def ofString (s : String) : Text := ⟨s.toUTF8.data.toList⟩

instance : Coe String Text := ⟨ofString⟩

/-- The UTF-8 bytes of a list of characters. -/
def ofChars (cs : List Char) : Text := ⟨cs.flatMap String.utf8EncodeChar⟩

def empty : Text := ⟨[]⟩

instance : EmptyCollection Text := ⟨empty⟩

protected def append (a b : Text) : Text := ⟨a.bytes ++ b.bytes⟩

instance : Append Text := ⟨Text.append⟩

/-- The number of bytes. -/
def size (t : Text) : Nat := t.bytes.length

def isEmpty (t : Text) : Bool := t.bytes.isEmpty

@[simp] theorem bytes_append (a b : Text) : (a ++ b).bytes = a.bytes ++ b.bytes := rfl

@[simp] theorem size_append (a b : Text) : (a ++ b).size = a.size + b.size := by
  simp [size]

/-- Texts are ordered byte by byte, a proper beginning first. -/
protected def le (a b : Text) : Bool := go a.bytes b.bytes
where
  go : List UInt8 → List UInt8 → Bool
    | [], _ => true
    | _ :: _, [] => false
    | x :: xs, y :: ys => x < y || (x == y && go xs ys)

/-- The decimal digits of an integer, with a minus sign where it is negative. -/
def ofInt (n : Int) : Text := ofString (toString n)

def ofNat (n : Nat) : Text := ofString (toString n)

/-- The decimal digits of a word, read as a signed number. -/
def ofWord (n : Int64) : Text := ofInt n.toInt

/-- `n` copies of a text, one after the other. -/
def replicate (n : Nat) (t : Text) : Text := ⟨(List.replicate n t.bytes).flatten⟩

def concat (ts : List Text) : Text := ⟨ts.flatMap bytes⟩

/-- The texts with `sep` between each two of them. -/
def join (sep : Text) : List Text → Text
  | [] => empty
  | [t] => t
  | t :: rest => t ++ sep ++ join sep rest

/-- Each of the texts with a line end after it. -/
def unlines (ts : List Text) : Text := concat (ts.map (· ++ "\n"))

/-- A text that is there only under a condition. -/
def onlyIf (b : Bool) (t : Text) : Text := if b then t else empty

/-- What is left of `t` after the beginning `p`, if `t` begins with it. -/
def dropBeginning? (p t : Text) : Option Text := (go p.bytes t.bytes).map Text.mk
where
  go : List UInt8 → List UInt8 → Option (List UInt8)
    | [], t => some t
    | _ :: _, [] => none
    | x :: p, y :: t => if x = y then go p t else none

def startsWith (t p : Text) : Bool := (dropBeginning? p t).isSome

/-- `t` without the beginning `p`, or `t` itself where it does not begin so. -/
def trimBeginning (p t : Text) : Text := (dropBeginning? p t).getD t

/-- `t` without the ending `s`, or `t` itself where it does not end so. -/
def trimEnding (s t : Text) : Text :=
  match dropBeginning? ⟨s.bytes.reverse⟩ ⟨t.bytes.reverse⟩ with
  | some r => ⟨r.bytes.reverse⟩
  | none => t

/-- Whether `sub` stands somewhere in `t`. -/
def contains (t sub : Text) : Bool := go t.bytes
where
  go : List UInt8 → Bool
    | [] => sub.isEmpty
    | b :: r => startsWith ⟨b :: r⟩ sub || go r

/-- The parts of a text between the bytes `sep`; a text without one is its own only part. -/
def split (sep : UInt8) (t : Text) : List Text := (go t.bytes).map Text.mk
where
  go : List UInt8 → List (List UInt8)
    | [] => [[]]
    | b :: r =>
      match go r with
      | [] => [[b]]
      | p :: ps => if b = sep then [] :: p :: ps else (b :: p) :: ps

/-- The lines of a text: its parts between line feeds. -/
def lines (t : Text) : List Text := t.split 10

/-- The part before the first byte `sep` and the part after it, if there is one. -/
def cut (sep : UInt8) (t : Text) : Text × Option Text :=
  match t.bytes.span (· != sep) with
  | (before, []) => (⟨before⟩, none)
  | (before, _ :: after) => (⟨before⟩, some ⟨after⟩)

/-! ## Characters -/

/-- The character that stands for a byte which belongs to no well-formed sequence. -/
def replacement : Char := '�'

/-- A stretch of a text: one character, or one byte that belongs to none. -/
inductive Piece where
  | char (c : Char)
  | stray (b : UInt8)
deriving DecidableEq

def Piece.bytes : Piece → List UInt8
  | .char c => String.utf8EncodeChar c
  | .stray b => [b]

/-- The character a piece is read as. -/
def Piece.toChar : Piece → Char
  | .char c => c
  | .stray _ => replacement

/-- The six payload bits of a continuation byte. -/
def continuation? (b : UInt8) : Option Nat :=
  if 0x80 ≤ b.toNat ∧ b.toNat < 0xC0 then some (b.toNat - 0x80) else none

/-- The character with code `n`, if that is a scalar value no shorter sequence could write. -/
def scalar? (least n : Nat) : Option Char :=
  if least ≤ n ∧ n.isValidChar then some (Char.ofNat n) else none

/-- The character that the first bytes of a non-empty list of bytes encode, with the number of bytes after the first that
it takes. There is none where the bytes are cut short, overlong, a surrogate or beyond the last code point. -/
def leading? (b : UInt8) (r : List UInt8) : Option (Char × Nat) :=
  let n := b.toNat
  if n < 0x80 then some (Char.ofNat n, 0)
  else if n < 0xC0 then none
  else if n < 0xE0 then do
    let x ← r[0]? >>= continuation?
    return (← scalar? 0x80 ((n - 0xC0) * 64 + x), 1)
  else if n < 0xF0 then do
    let x ← r[0]? >>= continuation?
    let y ← r[1]? >>= continuation?
    return (← scalar? 0x800 (((n - 0xE0) * 64 + x) * 64 + y), 2)
  else if n < 0xF8 then do
    let x ← r[0]? >>= continuation?
    let y ← r[1]? >>= continuation?
    let z ← r[2]? >>= continuation?
    return (← scalar? 0x10000 ((((n - 0xF0) * 64 + x) * 64 + y) * 64 + z), 3)
  else none

/-- The first piece of a non-empty list of bytes. -/
def leadingPiece (b : UInt8) (r : List UInt8) : Piece :=
  match leading? b r with
  | some (c, _) => .char c
  | none => .stray b

/-- The pieces of a list of bytes, from left to right. -/
def piecesOf : List UInt8 → List Piece
  | [] => []
  | b :: r =>
    match leading? b r with
    | some (c, n) => .char c :: piecesOf (r.drop n)
    | none => .stray b :: piecesOf r
termination_by bs => bs.length
decreasing_by all_goals (simp only [List.length_cons, List.length_drop]; omega)

def pieces (t : Text) : List Piece := piecesOf t.bytes

/-- The characters of a text, each stray byte read as the replacement character. -/
def chars (t : Text) : List Char := t.pieces.map Piece.toChar

end Text

end AlgolMips
