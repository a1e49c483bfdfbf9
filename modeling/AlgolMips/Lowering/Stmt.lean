import AlgolMips.Lowering.Expr

/-!
# Lowering of statements

A declaration binds a name. Every other statement leaves code: an assignment stores a value, a conditional and a loop
branch around what they guard, input and output ask the simulator. A block opens a scope and closes it.
-/

namespace AlgolMips

open Mips

namespace Gen

/-- Binds a declared name; a token that is no identifier binds nothing. -/
def declaration (type name : Token) : Gen Unit := do
  produce .declaration
  expect .ident name
  if name.kind = .ident then
    match (← get).table.shadowed? name.value with
    | some previous => remark name (.shadows previous)
    | none => pure ()
    match ← declare name (Ty.ofKeyword type.value) with
    | .ok _ => pure ()
    | .error e => report name (.name e)

/-- Stores the current operand in a variable. -/
def storeIn (target : Token) (v : Variable) : Gen Unit := do
  let value ← current
  if v.ty.assignable value.ty then
    emit [.comment "assignment", .instr (value.load .t0), .instr (.store .t0 v.offset)]
  else report target (.assignment value.ty v)

/-- An assignment whose value is left by `value`. A value is computed for an undeclared target too. -/
def assignment (target sign : Token) (value : Gen Unit) : Gen Unit := do
  produce .assignment
  match ← resolve target.value with
  | .error e =>
    report target (.name e)
    expect .assign sign
    value
  | .ok v =>
    let _ ← reference target
    expect .assign sign
    value
    storeIn target v

/-- The current operand must be a truth value. -/
def expectCondition (tok : Token) (g : Guarded) : Gen Unit := do
  let d ← current
  if d.ty.isCondition then pure () else report tok (.condition g d.ty)

/-- A conditional with the given condition and action. -/
def conditional (opening middle : Token) (condition action : Gen Unit) : Gen Unit := do
  produce .conditional
  condition
  expectCondition opening .conditional
  let skip ← newLabel
  emit [.comment "if statement", .instr (.load .t0 (← current).place.offset), .instr (.branchIfZero .t0 skip)]
  expect .then middle
  action
  emit [.label skip]

/-- A loop with the given condition and action. -/
def loop (opening middle : Token) (condition action : Gen Unit) : Gen Unit := do
  produce .loop
  let top ← newLabel
  let bottom ← newLabel
  emit [.comment "while statement", .label top]
  condition
  expect .do middle
  expectCondition opening .loop
  emit [.instr (.load .t0 (← current).place.offset), .instr (.branchIfZero .t0 bottom)]
  action
  emit [.instr (.jump top), .label bottom]

/-- A block with the given inside. -/
def block (closing : Token) (inside : Gen Unit) : Gen Unit := do
  produce .block
  enterScope
  inside
  expect .end closing
  leaveScope

/-- Reads a number into the variable that is the current operand. -/
def readCurrent (keyword : Token) : Gen Unit := do
  let d ← current
  if d.ty.readable && !d.place.isLabel then
    note .read
    emit (.comment "read statement" :: call .readInt ++ [.instr (.store .v0 d.place.offset)])
  else report keyword (.reading d.ty)

/-- A `read` statement. -/
def read (keyword opening : Token) (target : Option Token) (closing : Token) : Gen Unit := do
  produce .inout
  expect .lparen opening
  match target with
  | none => produce .reference
  | some tok => if ← reference tok then readCurrent keyword
  expect .rparen closing

/-- The lines that print an operand, if its type can be printed. -/
def printLines (statement : Text) (d : Operand) : Option (List Line) :=
  match d.ty with
  | .integer => some (number "integer")
  | .logical => some (number "logical")
  | .string =>
    some ([.comment (statement ++ " statement string"), .instr (d.load .a0)] ++ call .printString ++ [.blank])
  | _ => none
where
  number (type : Text) : List Line :=
    [.comment (statement ++ " statement " ++ type), .instr (.load .a0 d.place.offset)] ++ call .printInt ++ [.blank]

/-- The lines that end a line of output. -/
def lineEndLines : List Line := .instr (.loadAddr .a0 .lineEnd) :: call .printString ++ [.blank]

/-- A `write` or `writeln` statement, the line end printed only where something else was. -/
def write (keyword opening : Token) (value : Gen Unit) (closing : Token) : Gen Unit := do
  produce .inout
  expect .lparen opening
  value
  let ends := keyword.value = "writeln"
  note (if ends then .writeLine else .write)
  match printLines (if ends then "writeln" else "write") (← current) with
  | some ls => emit (if ends then ls ++ lineEndLines else ls)
  | none => pure ()
  expect .rparen closing

/-- A statement is entered, and named in the trace. -/
def enter (n : Note) : Gen Unit := do
  produce .statement
  note n

end Gen

/-- Leaves the code of a statement or of the inside of a block. -/
def Code.lower : {x : Extent} → Code x → Gen Unit
  | _, .empty => Gen.produce .statement
  | _, .declare type name => do
    Gen.enter .declaration
    Gen.declaration type name
  | _, .assign target sign value => do
    Gen.enter .assignment
    Gen.assignment target sign value.lower
  | _, .ifThen opening condition middle action => do
    Gen.enter .conditional
    Gen.conditional opening middle condition.lower action.lower
  | _, .whileDo opening condition middle action => do
    Gen.enter .loop
    Gen.loop opening middle condition.lower action.lower
  | _, .block _ inside closing => do
    Gen.enter .block
    Gen.block closing inside.lower
  | _, .read keyword opening target closing => do
    Gen.enter .inout
    Gen.read keyword opening target closing
  | _, .write keyword opening value closing => do
    Gen.enter .inout
    Gen.write keyword opening value.lower closing
  | _, .done => pure ()
  | _, .last s => s.lower
  | _, .next s separator rest => do
    s.lower
    Gen.expect .semi separator
    rest.lower

/-- Leaves the code of a program up to its final dot. -/
def Program.body : Program → Gen Unit
  | .bare stop => do
    Gen.produce .block
    Gen.expect .dot stop
  | .block _ inside closing stop => do
    Gen.block closing inside.lower
    Gen.expect .dot stop

/-- Leaves a whole program with its prolog and postlog. `next` is the token behind it. -/
def Program.lower (p : Program) (next : Token) : Gen Unit := do
  Gen.produce .program
  Gen.note .program
  Gen.emit prolog
  p.body
  Gen.emit postlog
  if next.isEof then pure () else Gen.remark next .trailing

end AlgolMips
