import AlgolMips.Mips.Instr
import AlgolMips.Ty

/-!
# Operands

The result of an expression has a type and a place. A string constant stands at a label, every other value in a frame
slot.
-/

namespace AlgolMips

open Mips

/-- Where a value stands. -/
inductive Place where
  | slot (offset : Int64)
  | label (l : Label)
deriving DecidableEq

/-- The slot of a place; a label counts as the first one. -/
def Place.offset : Place → Int64
  | slot n => n
  | label _ => 0

def Place.isLabel : Place → Bool
  | slot _ => false
  | label _ => true

def Place.describe : Place → Text
  | slot n => Text.ofWord n ++ "(" ++ Reg.fp.name ++ ")"
  | label l => l.name

/-- A value with its type and place. -/
structure Operand where
  ty : Ty := .invalid
  place : Place := .slot 0
deriving DecidableEq

namespace Operand

def inFrame (ty : Ty) (offset : Int64) : Operand := ⟨ty, .slot offset⟩

/-- A value at a label. A label without a name is no place, and the value counts as standing in the first slot. -/
def atLabel (ty : Ty) (l : Label) : Operand :=
  if l.name.isEmpty then inFrame ty 0 else ⟨ty, .label l⟩

def describe (d : Operand) : Text := d.ty.name ++ "@" ++ d.place.describe

/-- The instruction that puts a value into a register: a string by its address, all else from its slot. -/
def load (r : Reg) (d : Operand) : Instr :=
  match d.place with
  | .slot n => .load r n
  | .label l => .loadAddr r l

end Operand

end AlgolMips
