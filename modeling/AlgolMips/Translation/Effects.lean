import AlgolMips.Lowering.Stmt
import AlgolMips.Translation.Work

/-!
# What the productions do

The parts of the productions between two tokens: an operator on two operands, a literal, a name, the check of a condition,
the lines of input and output. Where operands of a multiplicative operator do not go together, settings say whether the
translation has failed; every other fault fails it.
-/

namespace AlgolMips

open Mips

namespace Effect

/-! ## Expressions -/

/-- Computes an operator on two operands into a fresh slot, which becomes the current operand. -/
def binary (comment : Text) (left right : Operand) (code : List Instr) (result : Ty) : Effect Unit := do
  emit ([.comment comment, .instr (.load .t0 left.place.offset), .instr (.load .t1 right.place.offset)] ++
    code.map Line.instr)
  let slot ← newTemp
  emit [.instr (.store .t0 slot)]
  setCurrent (.inFrame result slot)

def add (op : Token) (left : Operand) : Effect Unit := do
  let right ← current
  if left.ty.combines right.ty then binary "expression" left right (Gen.additive op.value) .integer
  else fail op (.addition op.value left.ty right.ty)

/-- Only strict terms fail the translation here. -/
def mul (op : Token) (left : Operand) : Effect Unit := do
  let right ← current
  if left.ty.combines right.ty then binary "term" left right (Gen.multiplicative op.value) .integer
  else if ← feature .strictTerm then fail op (.multiplication op.value left.ty right.ty)
  else record op (.multiplication op.value left.ty right.ty)

/-- Without an integer on the right there is no comparison, and the left operand stands. -/
def compare (op : Token) (left : Operand) : Effect Unit := do
  let right ← current
  if !right.ty.comparable then setCurrent left
  else if left.ty = .string then fail op (.comparison left.ty op.value)
  else binary "relfactor" left right (Gen.relational op.value) .logical

/-- Negates the current operand in its place. -/
def negate (op : Token) : Effect Unit := do
  let d ← current
  if !d.ty.negatable || d.place.isLabel then fail op (.negation d.ty)
  else emit [.comment "boolean not", .instr (.load .t0 d.place.offset), .instr (.op2 .not .t0 .t0),
    .instr (.store .t0 d.place.offset)]

/-- Puts the value of a literal into a place, which becomes the current operand. -/
def literal (lexeme : Text) : Effect Unit :=
  if Ty.ofLiteral lexeme = .string then do
    let l ← newLabel
    emit (inlineString l (Text.trimEnding "\"" (Text.trimBeginning "\"" lexeme)))
    setCurrent (.atLabel .string l)
  else do
    let slot ← newTemp
    emit [.comment "literal", .instr (.loadImm .t0 (Gen.immediate lexeme)), .instr (.store .t0 slot)]
    setCurrent (.inFrame (Ty.ofLiteral lexeme) slot)

/-- Makes a named variable the current operand. An undeclared name is reported, and the operand from before is kept. -/
def name (tok : Token) : Effect Bool := do
  match ← resolve tok.value with
  | .ok v =>
    setCurrent (.inFrame v.ty v.offset)
    return true
  | .error e =>
    fail tok (.name e)
    return false

/-! ## Statements -/

/-- Says why a name could not be bound, if it could not. -/
def reportUnbound (name : Token) : Except NameError Variable → Effect Unit
  | .ok _ => pure ()
  | .error e => fail name (.name e)

/-- Binds a declared name. -/
def bindName (name : Token) (ty : Ty) : Effect Unit := do
  match ← shadowed? name.value with
  | some previous => remark name (.shadows previous)
  | none => pure ()
  reportUnbound name (← declare name ty)

/-- Stores the current operand in a variable. -/
def storeIn (target : Token) (v : Variable) : Effect Unit := do
  let value ← current
  if v.ty.assignable value.ty then
    emit [.comment "assignment", .instr (value.load .t0), .instr (.store .t0 v.offset)]
  else fail target (.assignment value.ty v)

/-- The current operand must be a truth value. -/
def expectCondition (tok : Token) (g : Guarded) : Effect Unit := do
  let d ← current
  if d.ty.isCondition then pure () else fail tok (.condition g d.ty)

/-- Branches around what a condition guards. The answer is the label behind it. -/
def skipUnless (opening : Token) : Effect Label := do
  expectCondition opening .conditional
  let skip ← newLabel
  let d ← current
  emit [.comment "if statement", .instr (.load .t0 d.place.offset), .instr (.branchIfZero .t0 skip)]
  return skip

/-- Leaves a loop where its condition does not hold. -/
def leaveUnless (opening : Token) (bottom : Label) : Effect Unit := do
  expectCondition opening .loop
  let d ← current
  emit [.instr (.load .t0 d.place.offset), .instr (.branchIfZero .t0 bottom)]

/-- The labels in front of a loop and behind it. -/
def loopLabels : Effect (Label × Label) := do
  let top ← newLabel
  let bottom ← newLabel
  return (top, bottom)

/-- Reads a number into the variable that is the current operand. -/
def readCurrent (keyword : Token) : Effect Unit := do
  let d ← current
  if d.ty.readable && !d.place.isLabel then do
    note .read
    emit (.comment "read statement" :: call .readInt ++ [.instr (.store .v0 d.place.offset)])
  else fail keyword (.reading d.ty)

/-- Behind a `writeln` the line end is printed, but only where something else is. -/
def emitPrinting (keyword : Token) : Option (List Line) → Effect Unit
  | some ls => emit (if keyword.value = "writeln" then ls ++ Gen.lineEndLines else ls)
  | none => pure ()

/-- Prints the current operand as a `write` or a `writeln` does. -/
def write (keyword : Token) : Effect Unit := do
  note (if keyword.value = "writeln" then .writeLine else .write)
  emitPrinting keyword (Gen.printLines (if keyword.value = "writeln" then "writeln" else "write") (← current))

end Effect

end AlgolMips
