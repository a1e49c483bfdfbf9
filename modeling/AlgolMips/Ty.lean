import AlgolMips.Text

/-!
# Static types

Integers and truth values are computed with, strings are only printed. A lexeme whose first letter says nothing has the
type `invalid`; `unknown` stands for a number that no type has, and agrees with itself alone.
-/

namespace AlgolMips

/-- The static type of a variable or a value. -/
inductive Ty where
  | invalid
  | integer
  | logical
  | string
  | unknown (code : Int)
deriving DecidableEq, Inhabited

namespace Ty

/-- The type with a number. -/
def ofCode (n : Int) : Ty :=
  if n = 0 then invalid
  else if n = 1 then integer
  else if n = 2 then logical
  else if n = 3 then string
  else unknown n

def name : Ty → Text
  | integer => "INTEGER"
  | logical => "LOGICAL"
  | string => "STRING"
  | _ => "INVALID TYPE"

/-- The type that a type keyword names, by its first letter. -/
def ofKeyword (lexeme : Text) : Ty :=
  match lexeme.bytes.head? with
  | some 0x69 => integer
  | some 0x6C => logical
  | some 0x73 => string
  | _ => invalid

/-- The type of a literal: `true` and `false` are truth values, quoted text is a string, all else is an integer. -/
def ofLiteral (lexeme : Text) : Ty :=
  match lexeme.bytes.head? with
  | none => invalid
  | some 0x74 => logical
  | some 0x66 => logical
  | some 0x22 => string
  | some _ => integer

/-- Whether an operator may combine two values: of one type, and no strings. -/
def combines (left right : Ty) : Bool := left = right && left ≠ string

/-- Whether `!` may be applied to a value. -/
def negatable (t : Ty) : Bool := t ≠ string

/-- Whether a value of type `source` may be stored in a variable of type `target`. -/
def assignable (target source : Ty) : Bool := target = source

/-- Whether a value may guard a conditional or a loop. -/
def isCondition (t : Ty) : Bool := t = logical

/-- Whether a comparison is made with a right operand of this type. The left operand has no say. -/
def comparable (right : Ty) : Bool := right = integer

/-- Whether a variable may be read from the input. -/
def readable (t : Ty) : Bool := t = integer

end Ty

end AlgolMips
