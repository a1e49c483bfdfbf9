import AlgolMips.Golden.Json
import AlgolMips.Text.Digits

/-!
# Reading JSON

Reading goes from left to right and stops at the first character that no JSON text could have there. A text that ends
before its value does has an unexpected end, wherever that is. Arrays and objects nest to a fixed depth.
-/

namespace AlgolMips.Golden.Json

open Text (Piece)

/-- Where in a text a character has no place. -/
inductive Spot where
  | value
  | key
  | afterKey
  | afterPair
  | afterItem
  | afterTop
  | inString
  | inNumber
  | inWord (word : Text) (expected : Char)
deriving DecidableEq

def Spot.describe : Spot → Text
  | value => "looking for beginning of value"
  | key => "looking for beginning of object key string"
  | afterKey => "after object key"
  | afterPair => "after object key:value pair"
  | afterItem => "after array element"
  | afterTop => "after top-level value"
  | inString => "in string"
  | inNumber => "in numeric literal"
  | inWord word expected => "in literal " ++ word ++ " (expecting '" ++ Text.ofChars [expected] ++ "')"

/-- Why a text is not JSON. -/
inductive ReadError where
  | unexpectedEnd
  | tooDeep
  | badEscape (sequence : Text)
  | invalid (found : Piece) (spot : Spot)
deriving DecidableEq

/-- A piece between single quotes. -/
def quotedPiece (p : Piece) : Text :=
  if p = .char '\'' then "'\\''"
  else if p = .char '"' then "'\"'"
  else "'" ++ Text.ofChars (Text.quotedPiece p) ++ "'"

/-- Whether a character shows as itself between backticks. -/
def isPlain (c : Char) : Bool := c.toNat != 0x60 && c != Text.replacement && Text.isGraphic c

/-- An escape as it is shown: between backticks, unless that would hide what it holds. -/
def quotedEscape (t : Text) : Text := if t.chars.all isPlain then "`" ++ t ++ "`" else t.quote

def ReadError.message : ReadError → Text
  | unexpectedEnd => "unexpected end of JSON input"
  | tooDeep => "exceeded max depth"
  | badEscape sequence => "invalid escape sequence " ++ quotedEscape sequence ++ " in string"
  | invalid found spot => "invalid character " ++ quotedPiece found ++ " " ++ spot.describe

/-- What is wrong where a text goes on with bytes that have no place there. -/
def misplaced (spot : Spot) (bs : List UInt8) : ReadError :=
  match bs with
  | [] => .unexpectedEnd
  | b :: rest => .invalid (Text.leadingPiece b rest) spot

def isBlank (b : UInt8) : Bool := b == 0x20 || b == 0x09 || b == 0x0A || b == 0x0D

def skipBlank (bs : List UInt8) : List UInt8 := bs.dropWhile isBlank

def hexValue? (b : UInt8) : Option Nat :=
  if 0x30 ≤ b ∧ b ≤ 0x39 then some (b.toNat - 0x30)
  else if 0x61 ≤ b ∧ b ≤ 0x66 then some (b.toNat - 0x57)
  else if 0x41 ≤ b ∧ b ≤ 0x46 then some (b.toNat - 0x37)
  else none

/-- A part of a string: a byte that stands for itself, or a number behind an escape. -/
inductive StringUnit where
  | byte (b : UInt8)
  | code (n : Nat)
deriving DecidableEq

/-- The byte that a letter behind a backslash stands for. -/
def escape? (b : UInt8) : Option UInt8 :=
  [(0x62, 0x08), (0x66, 0x0C), (0x6E, 0x0A), (0x72, 0x0D), (0x74, 0x09), (0x5C, 0x5C), (0x2F, 0x2F), (0x22, 0x22)].lookup b

/-- The number behind a backslash and a `u`: four hexadecimal digits. -/
def escapedNumber (bs : List UInt8) : Except ReadError (Nat × List UInt8) :=
  match (bs.take 4).mapM hexValue? with
  | none => .error (.badEscape ⟨0x5C :: 0x75 :: bs.take 4⟩)
  | some vs => if vs.length < 4 then .error .unexpectedEnd else .ok (vs.foldl (fun n v => n * 16 + v) 0, bs.drop 4)

theorem length_escapedNumber {bs : List UInt8} {r : Nat × List UInt8} (h : escapedNumber bs = .ok r) :
    r.2.length ≤ bs.length := by
  unfold escapedNumber at h
  split at h
  · cases h
  · split at h
    · cases h
    · cases h
      simp

/-- The parts of a string up to its closing quote, and what stands behind it. -/
def stringUnits (bs : List UInt8) : Except ReadError (List StringUnit × List UInt8) :=
  match bs with
  | [] => .error .unexpectedEnd
  | b :: rest =>
    if b = 0x22 then .ok ([], rest)
    else if b = 0x5C then
      match rest with
      | [] => .error .unexpectedEnd
      | e :: rest =>
        if e = 0x75 then
          match h : escapedNumber rest with
          | .error err => .error err
          | .ok (n, behind) =>
            have := length_escapedNumber h
            (stringUnits behind).map fun (us, r) => (.code n :: us, r)
        else match escape? e with
          | some c => (stringUnits rest).map fun (us, r) => (.byte c :: us, r)
          | none => .error (.badEscape ⟨[0x5C, e]⟩)
    else if b < 0x20 then .error (misplaced .inString bs)
    else (stringUnits rest).map fun (us, r) => (.byte b :: us, r)
termination_by bs.length
decreasing_by all_goals (simp_all; try omega)

@[simp] theorem stringUnits_quote (rest : List UInt8) : stringUnits (0x22 :: rest) = .ok ([], rest) := by
  rw [stringUnits.eq_def]
  rfl

/-- The bytes of the character with a number; numbers without a character stand for the replacement character. -/
def codeBytes (n : Nat) : List UInt8 :=
  String.utf8EncodeChar (if n.isValidChar then Char.ofNat n else Text.replacement)

/-- The bytes of the parts of a string. Two halves of a pair make one character. -/
def unitBytes : List StringUnit → List UInt8
  | [] => []
  | .byte b :: rest => b :: unitBytes rest
  | .code hi :: .code lo :: rest =>
    if 0xD800 ≤ hi ∧ hi < 0xDC00 ∧ 0xDC00 ≤ lo ∧ lo < 0xE000 then
      codeBytes (0x10000 + (hi - 0xD800) * 0x400 + (lo - 0xDC00)) ++ unitBytes rest
    else codeBytes hi ++ unitBytes (.code lo :: rest)
  | .code n :: rest => codeBytes n ++ unitBytes rest

@[simp] theorem unitBytes_byte (b : UInt8) (us : List StringUnit) : unitBytes (.byte b :: us) = b :: unitBytes us := by
  rw [unitBytes]

/-- A string behind its opening quote. Stray bytes are read as the replacement character. -/
def readString (bs : List UInt8) : Except ReadError (Text × List UInt8) :=
  (stringUnits bs).map fun (us, rest) => (Text.ofChars (Text.chars ⟨unitBytes us⟩), rest)

/-- The rest of a word behind its first letter. -/
def readWord (word : Text) (j : Json) : List Char → List UInt8 → Except ReadError (Json × List UInt8)
  | [], bs => .ok (j, bs)
  | c :: _, [] => .error (misplaced (.inWord word c) [])
  | c :: cs, b :: rest =>
    if b.toNat = c.toNat then readWord word j cs rest else .error (misplaced (.inWord word c) (b :: rest))

/-- At least one digit, and what stands behind the digits. -/
def readDigits (bs : List UInt8) : Except ReadError (List UInt8 × List UInt8) :=
  if bs.head?.any Text.isDigit then .ok (bs.span Text.isDigit) else .error (misplaced .inNumber bs)

/-- The digits before the point: a zero, or digits that do not begin with one. -/
def readWhole (bs : List UInt8) : Except ReadError (List UInt8 × List UInt8) :=
  match bs with
  | 0x30 :: rest => .ok ([0x30], rest)
  | _ => readDigits bs

/-- The point and the digits behind it, if there is a point. -/
def readFraction (bs : List UInt8) : Except ReadError (List UInt8 × List UInt8) :=
  match bs with
  | 0x2E :: rest => (readDigits rest).map fun (ds, r) => (0x2E :: ds, r)
  | _ => .ok ([], bs)

/-- The sign of an exponent, if it has one. -/
def readSign (bs : List UInt8) : List UInt8 × List UInt8 :=
  match bs with
  | 0x2B :: rest => ([0x2B], rest)
  | 0x2D :: rest => ([0x2D], rest)
  | _ => ([], bs)

/-- The exponent, if there is one. -/
def readExponent (bs : List UInt8) : Except ReadError (List UInt8 × List UInt8) :=
  match bs with
  | [] => .ok ([], [])
  | b :: rest =>
    if b = 0x65 ∨ b = 0x45 then
      (readDigits (readSign rest).2).map fun (ds, r) => (b :: (readSign rest).1 ++ ds, r)
    else .ok ([], bs)

/-- The sign of a number, if it has one. -/
def readMinus (bs : List UInt8) : List UInt8 × List UInt8 :=
  match bs with
  | 0x2D :: rest => ([0x2D], rest)
  | _ => ([], bs)

/-- A number as it is spelled. -/
def readNumber (bs : List UInt8) : Except ReadError (Json × List UInt8) := do
  let (sign, bs) := readMinus bs
  let (whole, bs) ← readWhole bs
  let (fraction, bs) ← readFraction bs
  let (exponent, bs) ← readExponent bs
  return (.number ⟨sign ++ whole ++ fraction ++ exponent⟩, bs)

/-- How many arrays and objects may stand in one another. -/
def deepest : Nat := 10000

mutual

/-- A value, with at most `fuel` bytes to read and at most `room` arrays and objects in one another. -/
def readValue (fuel room : Nat) (bs : List UInt8) : Except ReadError (Json × List UInt8) :=
  match fuel with
  | 0 => .error .unexpectedEnd
  | fuel + 1 =>
    match skipBlank bs with
    | [] => .error .unexpectedEnd
    | b :: rest =>
      if b = 0x22 then (readString rest).map fun (t, r) => (.string t, r)
      else if b = 0x7B then
        match room with
        | 0 => .error .tooDeep
        | room + 1 =>
          match skipBlank rest with
          | 0x7D :: r => .ok (.object .noMembers, r)
          | r => (readMembers fuel room r).map fun (ms, r) => (.object ms, r)
      else if b = 0x5B then
        match room with
        | 0 => .error .tooDeep
        | room + 1 =>
          match skipBlank rest with
          | 0x5D :: r => .ok (.array .noItems, r)
          | r => (readItems fuel room r).map fun (js, r) => (.array js, r)
      else if b = 0x74 then readWord "true" (.bool true) ['r', 'u', 'e'] rest
      else if b = 0x66 then readWord "false" (.bool false) ['a', 'l', 's', 'e'] rest
      else if b = 0x6E then readWord "null" .null ['u', 'l', 'l'] rest
      else if b = 0x2D ∨ Text.isDigit b then readNumber (b :: rest)
      else .error (misplaced .value (b :: rest))

/-- The items of an array up to its closing bracket. -/
def readItems (fuel room : Nat) (bs : List UInt8) : Except ReadError (JsonTree .items × List UInt8) :=
  match fuel with
  | 0 => .error .unexpectedEnd
  | fuel + 1 => do
    let (j, rest) ← readValue fuel room bs
    match skipBlank rest with
    | 0x2C :: rest =>
      let (js, rest) ← readItems fuel room rest
      return (.item j js, rest)
    | 0x5D :: rest => return (.item j .noItems, rest)
    | rest => .error (misplaced .afterItem rest)

/-- The members of an object up to its closing brace. -/
def readMembers (fuel room : Nat) (bs : List UInt8) : Except ReadError (JsonTree .members × List UInt8) :=
  match fuel with
  | 0 => .error .unexpectedEnd
  | fuel + 1 =>
    match skipBlank bs with
    | 0x22 :: rest => do
      let (key, rest) ← readString rest
      match skipBlank rest with
      | 0x3A :: rest =>
        let (j, rest) ← readValue fuel room rest
        match skipBlank rest with
        | 0x2C :: rest =>
          let (ms, rest) ← readMembers fuel room rest
          return (.member key j ms, rest)
        | 0x7D :: rest => return (.member key j .noMembers, rest)
        | rest => .error (misplaced .afterPair rest)
      | rest => .error (misplaced .afterKey rest)
    | rest => .error (misplaced .key rest)

end

@[simp] theorem readValue_zero (room : Nat) (bs : List UInt8) : readValue 0 room bs = .error .unexpectedEnd := by
  rw [readValue]

@[simp] theorem readItems_zero (room : Nat) (bs : List UInt8) : readItems 0 room bs = .error .unexpectedEnd := by
  rw [readItems]

@[simp] theorem readMembers_zero (room : Nat) (bs : List UInt8) : readMembers 0 room bs = .error .unexpectedEnd := by
  rw [readMembers]

/-- The value that a text spells. -/
def read (t : Text) : Except ReadError Json := do
  let (j, rest) ← readValue (2 * t.size + 1) deepest t.bytes
  match skipBlank rest with
  | [] => return j
  | rest => .error (misplaced .afterTop rest)

end AlgolMips.Golden.Json
