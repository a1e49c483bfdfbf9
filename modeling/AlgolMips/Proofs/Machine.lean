import AlgolMips.Mips.Line
import AlgolMips.Text.Digits
import Mathlib.Algebra.Group.Int.Defs
import Mathlib.Algebra.Group.Nat.Defs
import Mathlib.Data.List.Induction
import Mathlib.Logic.Function.Basic
import Mathlib.Logic.Relation

/-!
# The machine

Lines of assembly are executed by a machine with 32-bit words. Its frame is addressed by the distance from the frame
pointer. Addresses of string constants are kept as the labels they belong to and never mix with numbers, so that a run
says nothing about where a loader puts the data. Everything that a simulator leaves undefined stops the run without a
result: a division by zero, arithmetic on an address, an unknown service, an access to the frame before the frame
pointer is set. Whether a sum that leaves the signed range wraps around or stops the run is a parameter.

A run is a chain of steps. Where no line jumps, it is a fold over the lines (`runLines`), and `CodeAt.reaches` turns the
fold into steps of a program in which the lines stand. What a label stands for is found in the whole program, and is
certain where no label is defined twice (`target?_of_codeAt`, `constant?_of_mem`).
-/

namespace AlgolMips.Mips

/-! ## Words -/

abbrev Word := BitVec 32

/-- What becomes of a sum or a difference that leaves the signed range. -/
inductive Overflow where
  | wraps
  | traps
deriving DecidableEq

/-- A result, unless it overflows and overflows trap. -/
def Overflow.admit (o : Overflow) (overflows : Bool) (w : Word) : Option Word :=
  if o = .traps ∧ overflows then none else some w

/-- A truth value as a word. -/
def truth (b : Bool) : Word := if b then 1 else 0

/-- The word that a decimal numeral spells, if a word can hold it. -/
def word? (t : Text) : Option Word :=
  match t.bytes with
  | 0x2D :: ds =>
    if isNumeral ds ∧ Text.digitsValue ds ≤ 2 ^ 31 then some (-(.ofNat 32 (Text.digitsValue ds))) else none
  | ds => if isNumeral ds ∧ Text.digitsValue ds < 2 ^ 32 then some (.ofNat 32 (Text.digitsValue ds)) else none
where
  isNumeral (ds : List UInt8) : Bool := !ds.isEmpty && ds.all Text.isDigit

/-! ## Lines of a program -/

/-- The label that a line defines. -/
def Line.defines? : Line → Option Label
  | label l => some l
  | asciiz l _ _ => some l
  | _ => none

/-- The number of the line that a label marks in the code. -/
def target? (code : List Line) (l : Label) : Option Nat := code.findIdx? fun x => x = .label l

/-- The string constant that a line places at a label. -/
def Line.constant? (l : Label) : Line → Option Text
  | asciiz l' _ v => if l' = l then some v else none
  | _ => none

/-- The string constant at a label, as it is written. -/
def constant? (code : List Line) (l : Label) : Option Text := code.findSome? (Line.constant? l)

/-- The bytes that a written string constant stands for. -/
def unescape : List UInt8 → List UInt8
  | 0x5C :: 0x6E :: bs => 0x0A :: unescape bs
  | 0x5C :: 0x74 :: bs => 0x09 :: unescape bs
  | 0x5C :: 0x22 :: bs => 0x22 :: unescape bs
  | 0x5C :: 0x5C :: bs => 0x5C :: unescape bs
  | b :: bs => b :: unescape bs
  | [] => []

/-! ## Single instructions -/

/-- What a register or a frame slot holds: a number, the address of a label, or the base of the frame. -/
inductive Content where
  | number (w : Word)
  | address (l : Label)
  | base
deriving DecidableEq

/-- All that a program works on, with the input that is left and the output so far. -/
structure Data where
  regs : Reg → Content
  hi : Word
  lo : Word
  frame : Int64 → Content
  input : List Word
  output : Text

namespace Data

/-- The content of a register; the zero register always holds zero. -/
def get (d : Data) (r : Reg) : Content := if r = .zero then .number 0 else d.regs r

def set (d : Data) (r : Reg) (c : Content) : Data := { d with regs := Function.update d.regs r c }

/-- Stores a content in a frame slot. -/
def put (d : Data) (offset : Int64) (c : Content) : Data := { d with frame := Function.update d.frame offset c }

/-- Sets the registers of products and quotients. -/
def setHiLo (d : Data) (hi lo : Word) : Data := { d with hi, lo }

def setInput (d : Data) (rest : List Word) : Data := { d with input := rest }

def print (d : Data) (t : Text) : Data := { d with output := d.output ++ t }

end Data

/-- Where a run goes on. -/
inductive Control where
  | next
  | goto (l : Label)
  | stop

/-- The result of a three-register operation. -/
def Op.compute (o : Overflow) : Op → Word → Word → Option Word
  | add, a, b => o.admit (a.saddOverflow b) (a + b)
  | sub, a, b => o.admit (a.ssubOverflow b) (a - b)
  | or, a, b => some (a ||| b)
  | and, a, b => some (a &&& b)
  | slt, a, b => some (truth (a.slt b))
  | sgt, a, b => some (truth (b.slt a))
  | seq, a, b => some (truth (a = b))
  | sne, a, b => some (truth (a ≠ b))
  | _, _, _ => none

/-- The service with a number. -/
def Service.ofWord? (w : Word) : Option Service :=
  [printInt, printString, readInt, exit].find? fun s => BitVec.ofInt 32 s.code = w

/-- What a service does. -/
def Service.serve (code : List Line) (d : Data) : Service → Option (Data × Control)
  | printInt =>
    match d.get .a0 with
    | .number w => some (d.print (Text.ofInt w.toInt), .next)
    | _ => none
  | printString =>
    match d.get .a0 with
    | .address l => (Mips.constant? code l).map fun v => (d.print ⟨unescape v.bytes⟩, .next)
    | _ => none
  | readInt =>
    match d.input with
    | w :: rest => some ((d.setInput rest).set .v0 (.number w), .next)
    | [] => none
  | exit => some (d, .stop)

/-- What an instruction does. -/
def Instr.exec (o : Overflow) (code : List Line) (d : Data) : Instr → Option (Data × Control)
  | load r n => if d.get .fp = .base then some (d.set r (d.frame n), .next) else none
  | store r n => if d.get .fp = .base then some (d.put n (d.get r), .next) else none
  | loadImm r v => (word? v).map fun w => (d.set r (.number w), .next)
  | loadAddr r l => (constant? code l).map fun _ => (d.set r (.address l), .next)
  | move r s => some (d.set r (d.get s), .next)
  | op3 op r s t =>
    match d.get s, d.get t with
    | .number a, .number b => (op.compute o a b).map fun w => (d.set r (.number w), .next)
    | _, _ => none
  | op2 .mult s t =>
    match d.get s, d.get t with
    | .number a, .number b =>
      some (d.setHiLo ((a.signExtend 64 * b.signExtend 64).extractLsb' 32 32) (a * b), .next)
    | _, _ => none
  | op2 .div s t =>
    match d.get s, d.get t with
    | .number a, .number b => if b = 0 then none else some (d.setHiLo (a.srem b) (a.sdiv b), .next)
    | _, _ => none
  | op2 .not r s =>
    match d.get s with
    | .number a => some (d.set r (.number (~~~a)), .next)
    | _ => none
  | op1 .mfhi r => some (d.set r (.number d.hi), .next)
  | op1 .mflo r => some (d.set r (.number d.lo), .next)
  | branchIfZero r l =>
    match d.get r with
    | .number a => some (d, if a = 0 then .goto l else .next)
    | _ => none
  | jump l => some (d, .goto l)
  | syscall =>
    match d.get .v0 with
    | .number w => (Service.ofWord? w).bind fun s => s.serve code d
    | _ => none
  | op2 _ _ _ | op1 _ _ => none

/-! ## Runs -/

/-- A machine in the middle of a program, or one that has stopped. -/
inductive Machine where
  | running (pc : Nat) (d : Data)
  | stopped (d : Data)

/-- One step of a program. Lines that are no instructions are passed over, and one that is not known stops the run
without a result. -/
def step (o : Overflow) (code : List Line) : Machine → Option Machine
  | .stopped _ => none
  | .running pc d =>
    match code[pc]? with
    | none | some (.verbatim _) => none
    | some (.instr i) =>
      match i.exec o code d with
      | some (d', .next) => some (.running (pc + 1) d')
      | some (d', .goto l) => (target? code l).map fun pc' => .running pc' d'
      | some (d', .stop) => some (.stopped d')
      | none => none
    | some _ => some (.running (pc + 1) d)

/-- Any number of steps. -/
def Reaches (o : Overflow) (code : List Line) : Machine → Machine → Prop :=
  Relation.ReflTransGen fun m m' => step o code m = some m'

/-- A step is the beginning of every longer run. -/
theorem Reaches.after_step {o : Overflow} {code : List Line} {m m' m'' : Machine} (h : Reaches o code m m'')
    (hne : m ≠ m'') (hstep : step o code m = some m') : Reaches o code m' m'' := by
  rcases Relation.ReflTransGen.cases_head h with heq | ⟨n, hn, hrest⟩
  · exact absurd heq hne
  · rw [hstep] at hn
    cases hn
    exact hrest

/-- A number of steps, each of which has to be possible. -/
def steps (o : Overflow) (code : List Line) : Nat → Machine → Option Machine
  | 0, m => some m
  | n + 1, m => (step o code m).bind (steps o code n)

theorem steps_succ (o : Overflow) (code : List Line) (n : Nat) (m : Machine) :
    steps o code (n + 1) m = (steps o code n m).bind (step o code) := by
  induction n generalizing m with
  | zero => simp [steps]
  | succ n ih =>
    rw [steps, steps, Option.bind_assoc]
    exact Option.bind_congr fun m' _ => ih m'

theorem reaches_of_steps {o : Overflow} {code : List Line} {n : Nat} {m m' : Machine}
    (h : steps o code n m = some m') : Reaches o code m m' := by
  induction n generalizing m with
  | zero =>
    cases h
    exact .refl
  | succ n ih =>
    obtain ⟨m₁, hstep, hrest⟩ := Option.bind_eq_some_iff.1 h
    exact .head hstep (ih hrest)

/-- The data of a machine that is about to start. -/
def Data.start (regs : Reg → Content) (hi lo : Word) (frame : Int64 → Word) (input : List Word) : Data :=
  { regs, hi, lo, frame := fun n => .number (frame n), input, output := "" }

/-! ## Registers and slots -/

namespace Data

@[simp] theorem get_set {d : Data} {r q : Reg} {c : Content} :
    (d.set r c).get q = if q = .zero then .number 0 else if q = r then c else d.get q := by
  by_cases hz : q = .zero
  · simp [get, hz]
  · by_cases hr : q = r <;> simp [get, set, hz, hr]

@[simp] theorem frame_set (d : Data) (r : Reg) (c : Content) : (d.set r c).frame = d.frame := rfl

@[simp] theorem hi_set (d : Data) (r : Reg) (c : Content) : (d.set r c).hi = d.hi := rfl

@[simp] theorem lo_set (d : Data) (r : Reg) (c : Content) : (d.set r c).lo = d.lo := rfl

@[simp] theorem input_set (d : Data) (r : Reg) (c : Content) : (d.set r c).input = d.input := rfl

@[simp] theorem output_set (d : Data) (r : Reg) (c : Content) : (d.set r c).output = d.output := rfl

@[simp] theorem get_put (d : Data) (n : Int64) (c : Content) (r : Reg) : (d.put n c).get r = d.get r := rfl

@[simp] theorem frame_put (d : Data) (n : Int64) (c : Content) : (d.put n c).frame = Function.update d.frame n c := rfl

@[simp] theorem input_put (d : Data) (n : Int64) (c : Content) : (d.put n c).input = d.input := rfl

@[simp] theorem output_put (d : Data) (n : Int64) (c : Content) : (d.put n c).output = d.output := rfl

@[simp] theorem get_setHiLo (d : Data) (hi lo : Word) (r : Reg) : (d.setHiLo hi lo).get r = d.get r := rfl

@[simp] theorem hi_setHiLo (d : Data) (hi lo : Word) : (d.setHiLo hi lo).hi = hi := rfl

@[simp] theorem lo_setHiLo (d : Data) (hi lo : Word) : (d.setHiLo hi lo).lo = lo := rfl

@[simp] theorem frame_setHiLo (d : Data) (hi lo : Word) : (d.setHiLo hi lo).frame = d.frame := rfl

@[simp] theorem input_setHiLo (d : Data) (hi lo : Word) : (d.setHiLo hi lo).input = d.input := rfl

@[simp] theorem output_setHiLo (d : Data) (hi lo : Word) : (d.setHiLo hi lo).output = d.output := rfl

@[simp] theorem get_setInput (d : Data) (rest : List Word) (r : Reg) : (d.setInput rest).get r = d.get r := rfl

@[simp] theorem frame_setInput (d : Data) (rest : List Word) : (d.setInput rest).frame = d.frame := rfl

@[simp] theorem input_setInput (d : Data) (rest : List Word) : (d.setInput rest).input = rest := rfl

@[simp] theorem output_setInput (d : Data) (rest : List Word) : (d.setInput rest).output = d.output := rfl

@[simp] theorem get_print (d : Data) (t : Text) (r : Reg) : (d.print t).get r = d.get r := rfl

@[simp] theorem frame_print (d : Data) (t : Text) : (d.print t).frame = d.frame := rfl

@[simp] theorem input_print (d : Data) (t : Text) : (d.print t).input = d.input := rfl

@[simp] theorem output_print (d : Data) (t : Text) : (d.print t).output = d.output ++ t := rfl

end Data

/-! ## Straight lines -/

/-- A line that does not leave the order of the lines. -/
def Line.run (o : Overflow) (code : List Line) (d : Data) : Line → Option Data
  | instr i =>
    match i.exec o code d with
    | some (d', .next) => some d'
    | _ => none
  | verbatim _ => none
  | _ => some d

/-- Lines executed one after the other. -/
def runLines (o : Overflow) (code : List Line) (ls : List Line) (d : Data) : Option Data :=
  ls.foldlM (fun d l => l.run o code d) d

variable {o : Overflow} {code : List Line}

@[simp] theorem Line.run_comment (t : Text) (d : Data) : (Line.comment t).run o code d = some d := rfl

@[simp] theorem Line.run_blank (d : Data) : Line.blank.run o code d = some d := rfl

@[simp] theorem Line.run_label (l : Label) (d : Data) : (Line.label l).run o code d = some d := rfl

@[simp] theorem runLines_nil (d : Data) : runLines o code [] d = some d := rfl

@[simp] theorem runLines_cons (l : Line) (ls : List Line) (d : Data) :
    runLines o code (l :: ls) d = (l.run o code d).bind (runLines o code ls) := rfl

@[simp] theorem runLines_append (ls ls' : List Line) (d : Data) :
    runLines o code (ls ++ ls') d = (runLines o code ls d).bind (runLines o code ls') := by
  simp only [runLines, List.foldlM_append]
  rfl

/-- From the line `pc` the machine passes `n` lines in order, and then it is at the line `target`. -/
structure Passes (o : Overflow) (code : List Line) (pc n : Nat) (d : Data) (target : Nat) (d' : Data) : Prop where
  before : ∀ k < n, ∃ d₁, steps o code k (.running pc d) = some (.running (pc + k) d₁)
  after : steps o code n (.running pc d) = some (.running target d')

theorem Passes.refl (pc : Nat) (d : Data) : Passes o code pc 0 d pc d := ⟨nofun, rfl⟩

/-- One line more is passed by a step. -/
theorem Passes.step {pc n target : Nat} {d d₁ d₂ : Data} (h : Passes o code pc n d (pc + n) d₁)
    (hstep : Mips.step o code (.running (pc + n) d₁) = some (.running target d₂)) :
    Passes o code pc (n + 1) d target d₂ where
  before k hk := by
    rcases Nat.lt_succ_iff_lt_or_eq.1 hk with hlt | rfl
    · exact h.before k hlt
    · exact ⟨d₁, h.after⟩
  after := by rw [steps_succ, h.after, Option.bind_some, hstep]

/-- The lines `ls` stand in a program from the line `pc` on. -/
def CodeAt (code : List Line) (pc : Nat) (ls : List Line) : Prop := ∀ i l, ls[i]? = some l → code[pc + i]? = some l

namespace CodeAt

variable {pc : Nat} {l : Line} {ls ls' : List Line}

theorem head (h : CodeAt code pc (l :: ls)) : code[pc]? = some l := h 0 l rfl

theorem tail (h : CodeAt code pc (l :: ls)) : CodeAt code (pc + 1) ls := by
  intro i x hx
  rw [Nat.add_assoc, Nat.add_comm 1]
  exact h (i + 1) x (by simpa using hx)

theorem left (h : CodeAt code pc (ls ++ ls')) : CodeAt code pc ls := by
  intro i x hx
  refine h i x ?_
  rw [List.getElem?_append_left (List.getElem?_eq_some_iff.1 hx).1]
  exact hx

theorem right (h : CodeAt code pc (ls ++ ls')) : CodeAt code (pc + ls.length) ls' := by
  intro i x hx
  rw [Nat.add_assoc]
  refine h (ls.length + i) x ?_
  rw [List.getElem?_append_right (Nat.le_add_right _ _), Nat.add_sub_cancel_left]
  exact hx

theorem subset (h : CodeAt code pc ls) : ls ⊆ code := by
  intro x hx
  obtain ⟨i, hi⟩ := List.getElem?_of_mem hx
  exact List.mem_of_getElem? (h i x hi)

/-- A program stands in itself behind what comes first. -/
theorem of_append (before ls after : List Line) : CodeAt (before ++ (ls ++ after)) before.length ls := by
  intro i x hx
  have hi := (List.getElem?_eq_some_iff.1 hx).1
  rw [List.getElem?_append_right (Nat.le_add_right _ _), Nat.add_sub_cancel_left, List.getElem?_append_left hi]
  exact hx

theorem step_of_run (h : code[pc]? = some l) {d d' : Data} (hrun : l.run o code d = some d') :
    step o code (.running pc d) = some (.running (pc + 1) d') := by
  cases l with
  | instr i =>
    simp only [Line.run] at hrun
    split at hrun
    · next hexec =>
      cases hrun
      simp [step, h, hexec]
    · cases hrun
  | verbatim t => simp [Line.run] at hrun
  | blank | comment t | banner t | label l | data | text | globl l | asciiz l c v =>
    simp only [Line.run, Option.some.injEq] at hrun
    simp [step, h, hrun]

/-- Lines that run straight through are passed. -/
theorem passes (h : CodeAt code pc ls) {d d' : Data} (hrun : runLines o code ls d = some d') :
    Passes o code pc ls.length d (pc + ls.length) d' := by
  induction ls using List.reverseRecOn generalizing d' with
  | nil =>
    cases hrun
    exact .refl pc d
  | append_singleton ls l ih =>
    rw [runLines_append, Option.bind_eq_some_iff] at hrun
    obtain ⟨d₁, hbefore, hlast⟩ := hrun
    have hline : l.run o code d₁ = some d' := by simpa [Option.bind_eq_some_iff] using hlast
    rw [List.length_append]
    exact (ih h.left hbefore).step (step_of_run h.right.head hline)

/-- A straight run is a run of the program in which the lines stand, and ends behind them. -/
theorem reaches (h : CodeAt code pc ls) {d d' : Data} (hrun : runLines o code ls d = some d') :
    Reaches o code (.running pc d) (.running (pc + ls.length) d') :=
  reaches_of_steps (h.passes hrun).after

end CodeAt

/-! ## Labels -/

/-- No label is defined twice. -/
def Unambiguous (code : List Line) : Prop := (code.filterMap Line.defines?).Nodup

theorem Unambiguous.eq_of_defines (h : Unambiguous code) {i j : Nat} {x y : Line} {l : Label}
    (hi : code[i]? = some x) (hj : code[j]? = some y) (hx : x.defines? = some l) (hy : y.defines? = some l) :
    i = j := by
  rw [Unambiguous, List.Nodup, List.pairwise_filterMap, List.pairwise_iff_getElem] at h
  obtain ⟨hi', rfl⟩ := List.getElem?_eq_some_iff.1 hi
  obtain ⟨hj', rfl⟩ := List.getElem?_eq_some_iff.1 hj
  rcases Nat.lt_trichotomy i j with hlt | heq | hgt
  · exact absurd rfl (h i j hi' hj' hlt l hx l hy)
  · exact heq
  · exact absurd rfl (h j i hj' hi' hgt l hy l hx)

/-- A label leads to the one line that marks it. -/
theorem target?_of_codeAt (h : Unambiguous code) {pc : Nat} {l : Label} (hpc : code[pc]? = some (.label l)) :
    target? code l = some pc := by
  obtain ⟨hlt, heq⟩ := List.getElem?_eq_some_iff.1 hpc
  rw [target?, List.findIdx?_eq_some_iff_getElem]
  refine ⟨hlt, by simp [heq], fun j hj hlabel => ?_⟩
  have hat : code[j]? = some (.label l) :=
    List.getElem?_eq_some_iff.2 ⟨Nat.lt_trans hj hlt, by simpa using hlabel⟩
  exact absurd (h.eq_of_defines hat hpc rfl rfl) (Nat.ne_of_lt hj)

/-- A label stands for the one string constant placed at it. -/
theorem constant?_of_mem (h : Unambiguous code) {l : Label} {column : Nat} {v : Text}
    (hmem : .asciiz l column v ∈ code) : constant? code l = some v := by
  obtain ⟨i, hi⟩ := List.getElem?_of_mem hmem
  cases hc : constant? code l with
  | none =>
    rw [constant?, List.findSome?_eq_none_iff] at hc
    simpa [Line.constant?] using hc _ hmem
  | some w =>
    -- whatever line the search finds, it defines the same label and is therefore this one
    obtain ⟨y, hy, hw⟩ := List.exists_of_findSome?_eq_some hc
    obtain ⟨j, hj⟩ := List.getElem?_of_mem hy
    cases y with
    | asciiz l' column' v' =>
      simp only [Line.constant?] at hw
      split at hw
      · next heq =>
        subst heq
        have hij := h.eq_of_defines hi hj rfl rfl
        rw [hij, hj] at hi
        cases hi
        exact hw.symm
      · cases hw
    | _ => simp [Line.constant?] at hw

end AlgolMips.Mips
