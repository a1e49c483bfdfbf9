import AlgolMips.Lowering.Event
import AlgolMips.Tree

/-!
# Lowering of expressions

An expression leaves the code that computes its value, and the operand that says where the value stands. Every operator
puts its result into a fresh slot; `!` alone changes the slot of its operand. Where operands do not go together a fault
is left, and the operand of the last part stands for the whole. A missing factor and an undeclared name keep the operand
from before.
-/

namespace AlgolMips

open Mips

namespace Gen

/-- The instruction of an additive operator. -/
def additive (op : Text) : List Instr :=
  [.op3 (if op = "+" then .add else if op = "-" then .sub else .or) .t0 .t0 .t1]

/-- The instructions of a multiplicative operator. -/
def multiplicative (op : Text) : List Instr :=
  if op = "*" then [.op2 .mult .t0 .t1, .op1 .mflo .t0]
  else if op = "/" ∨ op = "div" then [.op2 .div .t0 .t1, .op1 .mflo .t0]
  else if op = "rem" then [.op2 .div .t0 .t1, .op1 .mfhi .t0]
  else [.op3 .and .t0 .t0 .t1]

/-- The instruction of a relational operator. -/
def relational (op : Text) : List Instr :=
  if op = "<" then [.op3 .slt .t0 .t0 .t1]
  else if op = ">" then [.op3 .sgt .t0 .t0 .t1]
  else if op = "=" then [.op3 .seq .t0 .t1 .t0]
  else [.op3 .sne .t0 .t1 .t0]

/-- Computes an operator on two operands into a fresh slot, which becomes the current operand. -/
def binary (remark : Text) (left right : Operand) (code : List Instr) (result : Ty) : Gen Unit := do
  emit ([.comment remark, .instr (.load .t0 left.place.offset), .instr (.load .t1 right.place.offset)] ++
    code.map Line.instr)
  let slot ← newTemp
  emit [.instr (.store .t0 slot)]
  setCurrent (.inFrame result slot)

/-- Combines two operands by an additive operator. -/
def add (op : Token) (left right : Operand) : Gen Unit :=
  if left.ty.combines right.ty then binary "expression" left right (additive op.value) .integer
  else report op (.addition op.value left.ty right.ty)

/-- Combines two operands by a multiplicative operator. -/
def mul (op : Token) (left right : Operand) : Gen Unit :=
  if left.ty.combines right.ty then binary "term" left right (multiplicative op.value) .integer
  else report op (.multiplication op.value left.ty right.ty)

/-- Compares two operands. Without an integer on the right there is no comparison, and the left operand stands. -/
def compare (op : Token) (left right : Operand) : Gen Unit :=
  if !right.ty.comparable then setCurrent left
  else if left.ty = .string then report op (.comparison left.ty op.value)
  else binary "relfactor" left right (relational op.value) .logical

/-- Negates an operand in its place. -/
def negate (op : Token) (d : Operand) : Gen Unit :=
  if !d.ty.negatable || d.place.isLabel then report op (.negation d.ty)
  else emit [.comment "boolean not", .instr (.load .t0 d.place.offset), .instr (.op2 .not .t0 .t0),
    .instr (.store .t0 d.place.offset)]

/-- What a literal that is no string puts into its slot: a truth value as a number, all else as it is written. -/
def immediate (lexeme : Text) : Text :=
  if Ty.ofLiteral lexeme = .logical then if lexeme = "true" then "1" else "0" else lexeme

/-- Puts the value of a literal into a place, which becomes the current operand. -/
def literal (lexeme : Text) : Gen Unit :=
  if Ty.ofLiteral lexeme = .string then do
    let l ← newLabel
    emit (inlineString l (Text.trimEnding "\"" (Text.trimBeginning "\"" lexeme)))
    setCurrent (.atLabel .string l)
  else do
    let slot ← newTemp
    emit [.comment "literal", .instr (.loadImm .t0 (immediate lexeme)), .instr (.store .t0 slot)]
    setCurrent (.inFrame (Ty.ofLiteral lexeme) slot)

/-- Makes a named variable the current operand. The answer is whether the name is declared. -/
def reference (tok : Token) : Gen Bool := do
  produce .reference
  match ← resolve tok.value with
  | .ok v =>
    setCurrent (.inFrame v.ty v.offset)
    return true
  | .error e =>
    report tok (.name e)
    return false

end Gen

/-- Leaves the code of an expression and its operand. -/
def Expr.lower : {l : Level} → Expr l → Gen Unit
  | _, .term e => do
    Gen.produce .expression
    e.lower
  | _, .add left op right => do
    left.lower
    let l ← Gen.current
    right.lower
    Gen.add op l (← Gen.current)
  | _, .relation e => do
    Gen.produce .term
    e.lower
  | _, .mul left op right => do
    left.lower
    let l ← Gen.current
    right.lower
    Gen.mul op l (← Gen.current)
  | _, .factor e => do
    Gen.produce .relation
    e.lower
  | _, .compare left op right => do
    Gen.produce .relation
    left.lower
    let l ← Gen.current
    right.lower
    Gen.compare op l (← Gen.current)
  | _, .missing => Gen.produce .factor
  | _, .name tok => do
    Gen.produce .factor
    let _ ← Gen.reference tok
  | _, .literal tok => do
    Gen.produce .factor
    Gen.literal tok.value
  | _, .negation op e => do
    Gen.produce .factor
    e.lower
    Gen.negate op (← Gen.current)
  | _, .group _ e closing => do
    Gen.produce .factor
    e.lower
    Gen.expect .rparen closing

end AlgolMips
