import AlgolMips.Text

/-!
# Instructions

Generated code is kept as instructions, and their text is only a rendering of them. Operands stand in frame slots, which
are addressed from the frame pointer, or at labels.
-/

namespace AlgolMips.Mips

/-- An operation of the machine. `unknown` stands for a number that no operation has. -/
inductive Op where
  | lw
  | sw
  | li
  | la
  | move
  | add
  | sub
  | or
  | and
  | mult
  | div
  | mfhi
  | mflo
  | slt
  | sgt
  | seq
  | sne
  | not
  | beq
  | j
  | syscall
  | unknown (code : Int)
deriving DecidableEq, Inhabited

namespace Op

/-- The operations in the order of their numbers. -/
def known : List Op :=
  [lw, sw, li, la, move, add, sub, or, and, mult, div, mfhi, mflo, slt, sgt, seq, sne, not, beq, j, syscall]

/-- The operation with a number. -/
def ofCode (n : Int) : Op :=
  match n with
  | .ofNat i => known[i]?.getD (unknown n)
  | .negSucc _ => unknown n

def name : Op → Text
  | lw => "lw"
  | sw => "sw"
  | li => "li"
  | la => "la"
  | move => "move"
  | add => "add"
  | sub => "sub"
  | or => "or"
  | and => "and"
  | mult => "mult"
  | div => "div"
  | mfhi => "mfhi"
  | mflo => "mflo"
  | slt => "slt"
  | sgt => "sgt"
  | seq => "seq"
  | sne => "sne"
  | not => "not"
  | beq => "beq"
  | j => "j"
  | syscall => "syscall"
  | unknown n => "op(" ++ Text.ofInt n ++ ")"

end Op

/-- A register. Generated code uses the first seven. -/
inductive Reg where
  | zero
  | v0
  | a0
  | t0
  | t1
  | fp
  | sp
  | other (name : Text)
deriving DecidableEq, Inhabited

def Reg.name : Reg → Text
  | zero => "$zero"
  | v0 => "$v0"
  | a0 => "$a0"
  | t0 => "$t0"
  | t1 => "$t1"
  | fp => "$fp"
  | sp => "$sp"
  | other n => n

/-- A place in the code or the data: one of the numbered labels of a program, or a fixed one. -/
inductive Label where
  | generated (n : Nat)
  | named (name : Text)
deriving DecidableEq, Inhabited

def Label.name : Label → Text
  | generated n => "label" ++ Text.ofNat n
  | named t => t

/-- An instruction. Offsets count from the frame pointer; an immediate value is kept as it was written. -/
inductive Instr where
  | load (r : Reg) (offset : Int64)
  | store (r : Reg) (offset : Int64)
  | loadImm (r : Reg) (value : Text)
  | loadAddr (r : Reg) (l : Label)
  | move (d s : Reg)
  | op3 (op : Op) (d s t : Reg)
  | op2 (op : Op) (s t : Reg)
  | op1 (op : Op) (r : Reg)
  | branchIfZero (r : Reg) (l : Label)
  | jump (l : Label)
  | syscall
deriving DecidableEq, Inhabited

namespace Instr

/-- The words of an instruction: its operation and its operands. -/
def words : Instr → List Text
  | load r n => [Op.lw.name, r.name, slot n]
  | store r n => [Op.sw.name, r.name, slot n]
  | loadImm r v => [Op.li.name, r.name, v]
  | loadAddr r l => [Op.la.name, r.name, l.name]
  | move d s => [Op.move.name, d.name, s.name]
  | op3 op d s t => [op.name, d.name, s.name, t.name]
  | op2 op s t => [op.name, s.name, t.name]
  | op1 op r => [op.name, r.name]
  | branchIfZero r l => [Op.beq.name, r.name, Reg.zero.name, l.name]
  | jump l => [Op.j.name, l.name]
  | syscall => [Op.syscall.name]
where
  /-- How a frame slot is addressed. -/
  slot (n : Int64) : Text := Text.ofWord n ++ "(" ++ Reg.fp.name ++ ")"

def render (i : Instr) : Text := Text.join " " i.words

end Instr

end AlgolMips.Mips
