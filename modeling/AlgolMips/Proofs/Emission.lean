import AlgolMips.Proofs.Typing

/-!
# The code of well-typed programs

Where the types are right a lowering reports nothing, and each construct leaves its lines and its state in one way. Two
operands with an operator between them leave their own lines and then those of the operator (`Expr.Operates`), whichever
of the three sorts of operators it is (`Expr.Joins.operates`); each statement leaves the lines of its parts around its
own.
-/

namespace AlgolMips

open Gen Mips

/-! ## Expressions -/

/-- An operator between two operands. -/
inductive Operation where
  | sum (op : Text)
  | product (op : Text)
  | comparison (op : Text)

namespace Operation

/-- The comment above the code. -/
def remark : Operation → Text
  | sum _ => "expression"
  | product _ => "term"
  | comparison _ => "relfactor"

def instrs : Operation → List Instr
  | sum op => additive op
  | product op => multiplicative op
  | comparison op => relational op

def result : Operation → Ty
  | sum _ | product _ => .integer
  | comparison _ => .logical

/-- The types of the operands that leave code. -/
def Takes : Operation → Ty → Ty → Prop
  | sum _, ρ, σ | product _, ρ, σ => ρ = σ ∧ ρ ≠ .string
  | comparison _, ρ, σ => ρ ≠ .string ∧ σ = .integer

end Operation

/-- The instructions that operators are made of. -/
def operatorInstrs : List Instr :=
  [.op3 .add .t0 .t0 .t1, .op3 .sub .t0 .t0 .t1, .op3 .or .t0 .t0 .t1, .op3 .and .t0 .t0 .t1, .op2 .mult .t0 .t1,
    .op2 .div .t0 .t1, .op1 .mflo .t0, .op1 .mfhi .t0, .op3 .slt .t0 .t0 .t1, .op3 .sgt .t0 .t0 .t1,
    .op3 .seq .t0 .t1 .t0, .op3 .sne .t0 .t1 .t0]

theorem Operation.mem_operatorInstrs (operation : Operation) : ∀ i ∈ operation.instrs, i ∈ operatorInstrs := by
  cases operation with
  | sum op =>
    simp only [Operation.instrs, additive, List.mem_singleton, forall_eq]
    split
    · decide
    · split <;> decide
  | product op =>
    simp only [Operation.instrs, multiplicative]
    split
    · decide
    · split
      · decide
      · split <;> decide
  | comparison op =>
    simp only [Operation.instrs, relational]
    split
    · decide
    · split
      · decide
      · split <;> decide

/-- The instructions of an operator work on registers alone. -/
theorem Operation.form_of_mem (operation : Operation) {i : Instr} (h : i ∈ operation.instrs) :
    (∃ op a, i = .op1 op a) ∨ (∃ op a b, i = .op2 op a b) ∨ ∃ op a b c, i = .op3 op a b c := by
  have hmem := operation.mem_operatorInstrs i h
  cases i with
  | op1 op a => exact .inl ⟨op, a, rfl⟩
  | op2 op a b => exact .inr (.inl ⟨op, a, b, rfl⟩)
  | op3 op a b c => exact .inr (.inr ⟨op, a, b, c, rfl⟩)
  | _ => simp [operatorInstrs] at hmem

/-- An expression is an operator between two others. -/
inductive Expr.Joins : {k l m : Level} → Expr k → Expr l → Operation → Expr m → Prop where
  | add {left : Expr .expression} {op : Token} {right : Expr .term} :
      Joins (.add left op right) left (.sum op.value) right
  | mul {left : Expr .term} {op : Token} {right : Expr .relation} :
      Joins (.mul left op right) left (.product op.value) right
  | compare {left : Expr .factor} {op : Token} {right : Expr .factor} :
      Joins (.compare left op right) left (.comparison op.value) right

/-- An expression is another one of a lower level. -/
inductive Expr.Wraps : {k l : Level} → Expr k → Expr l → Prop where
  | term {e : Expr .term} : Wraps (.term e) e
  | relation {e : Expr .relation} : Wraps (.relation e) e
  | factor {e : Expr .factor} : Wraps (.factor e) e
  | group {opening : Token} {e : Expr .expression} {closing : Token} : Wraps (.group opening e closing) e

/-- The lines that apply an operator to two operands and store the result. -/
def operatorLines (remark : Text) (left right : Operand) (code : List Instr) (slot : Int64) : List Line :=
  [.comment remark, .instr (.load .t0 left.place.offset), .instr (.load .t1 right.place.offset)] ++
    code.map Line.instr ++ [.instr (.store .t0 slot)]

/-- An expression leaves the lines of its operands and of its operator, and its value in a fresh slot. -/
def Expr.Operates {k l m : Level} (e : Expr k) (left : Expr l) (right : Expr m) (remark : Text) (code : List Instr)
    (result : Ty) (s : GenState) : Prop :=
  let s₁ := (left.lower s).state
  let s₂ := (right.lower s₁).state
  e.lower.lines s = left.lower.lines s ++
      (right.lower.lines s₁ ++ operatorLines remark s₁.current s₂.current code s₂.frame.next) ∧
    (e.lower s).state = { s₂ with frame := s₂.frame.alloc.2, current := .inFrame result s₂.frame.next }

theorem Gen.lines_binary (remark : Text) (left right : Operand) (code : List Instr) (result : Ty) (s : GenState) :
    (binary remark left right code result).lines s = operatorLines remark left right code s.frame.next := by
  simp [binary, operatorLines]

namespace Expr

variable {s : GenState} {τ : Ty}

/-- Operands of one type that is not that of strings may be combined. -/
theorem combines_of_hasType {l m : Level} {left : Expr l} {right : Expr m} (hl : HasType s.table.env left τ)
    (hr : HasType s.table.env right τ) (hτ : τ ≠ .string) :
    (left.lower s).state.current.ty.combines (right.lower (left.lower s).state).state.current.ty := by
  rw [Ty.combines_iff, current_ty hl rfl, current_ty_second hr left rfl]
  exact ⟨rfl, hτ⟩

/-- An operator with operands that it takes leaves its code. -/
theorem Joins.operates {k l m : Level} {e : Expr k} {left : Expr l} {right : Expr m} {operation : Operation}
    {ρ σ : Ty} (h : e.Joins left operation right) (ht : operation.Takes ρ σ) (hl : HasType s.table.env left ρ)
    (hr : HasType s.table.env right σ) :
    e.Operates left right operation.remark operation.instrs operation.result s := by
  cases h with
  | add =>
    obtain ⟨rfl, hρ⟩ := ht
    have hboth := combines_of_hasType hl hr hρ
    constructor
    · simp [Expr.lower, Gen.add, hboth, lines_binary, Operation.remark, Operation.instrs]
    · simp [Expr.lower, state_add hboth, Operation.result]
  | mul =>
    obtain ⟨rfl, hρ⟩ := ht
    have hboth := combines_of_hasType hl hr hρ
    constructor
    · simp [Expr.lower, Gen.mul, hboth, lines_binary, Operation.remark, Operation.instrs]
    · simp [Expr.lower, state_mul hboth, Operation.result]
  | @compare left op right =>
    obtain ⟨hρ, rfl⟩ := ht
    have hleft : (left.lower s).state.current.ty ≠ .string := by
      rw [current_ty hl rfl]
      exact hρ
    have hright := current_ty_second hr left rfl
    constructor
    · simp [Expr.lower, Gen.compare, Ty.comparable, hleft, hright, lines_binary, Operation.remark, Operation.instrs]
    · simp [Expr.lower, state_compare hright hleft, Operation.result]

theorem Wraps.lines {k l : Level} {e : Expr k} {inner : Expr l} (h : e.Wraps inner) (s : GenState) :
    e.lower.lines s = inner.lower.lines s := by
  cases h <;> simp [Expr.lower]

theorem Wraps.state {k l : Level} {e : Expr k} {inner : Expr l} (h : e.Wraps inner) (s : GenState) :
    (e.lower s).state = (inner.lower s).state := by
  cases h <;> simp [Expr.lower]

end Expr

namespace Gen

variable {lexeme : Text} {s : GenState}

/-- A string constant is placed at a fresh label. -/
theorem literal_string (h : Ty.ofLiteral lexeme = .string) :
    (literal lexeme).lines s =
        inlineString (.generated s.labels) (Text.trimEnding "\"" (Text.trimBeginning "\"" lexeme)) ∧
      (literal lexeme s).state =
        { s with labels := s.labels + 1, current := ⟨.string, .label (.generated s.labels)⟩ } := by
  constructor
  · simp [literal, h]
  · simp [literal, h, atLabel_generated]

/-- Any other literal is put into a fresh slot. -/
theorem literal_immediate (h : Ty.ofLiteral lexeme ≠ .string) :
    (literal lexeme).lines s =
        [.comment "literal", .instr (.loadImm .t0 (immediate lexeme)), .instr (.store .t0 s.frame.next)] ∧
      (literal lexeme s).state =
        { s with frame := s.frame.alloc.2, current := .inFrame (Ty.ofLiteral lexeme) s.frame.next } := by
  constructor
  · simp [literal, h]
  · simp only [literal, if_neg h]
    rfl

/-! ## Statements -/

theorem lines_assignment {target sign : Token} {v : Variable} (h : s.table.resolve target.value = .ok v)
    (value : Gen Unit) (hty : (value { s with current := .inFrame v.ty v.offset }).state.current.ty = v.ty) :
    (assignment target sign value).lines s =
      value.lines { s with current := .inFrame v.ty v.offset } ++
        [Line.comment "assignment",
          .instr ((value { s with current := .inFrame v.ty v.offset }).state.current.load .t0),
          .instr (.store .t0 v.offset)] := by
  simp [assignment, storeIn, h, reference_ok h, hty, Ty.assignable]

theorem lines_conditional (opening middle : Token) (condition action : Gen Unit) :
    (conditional opening middle condition action).lines s =
      condition.lines s ++
        ([Line.comment "if statement", .instr (.load .t0 (condition s).state.current.place.offset),
            .instr (.branchIfZero .t0 (.generated (condition s).state.labels))] ++
          (action.lines { (condition s).state with labels := (condition s).state.labels + 1 } ++
            [Line.label (.generated (condition s).state.labels)])) := by
  simp [conditional]

theorem lines_loop (opening middle : Token) (condition action : Gen Unit) :
    (loop opening middle condition action).lines s =
      [Line.comment "while statement", .label (.generated s.labels)] ++
        (condition.lines { s with labels := s.labels + 2 } ++
          ([Line.instr (.load .t0 (condition { s with labels := s.labels + 2 }).state.current.place.offset),
              .instr (.branchIfZero .t0 (.generated (s.labels + 1)))] ++
            (action.lines (condition { s with labels := s.labels + 2 }).state ++
              [Line.instr (.jump (.generated s.labels)), .label (.generated (s.labels + 1))]))) := by
  simp [loop]

theorem lines_block (closing : Token) (inside : Gen Unit) :
    (block closing inside).lines s = inside.lines { s with table := s.table.enter } := by
  simp [block]

theorem lines_read {keyword opening tok closing : Token} {v : Variable} (h : s.table.resolve tok.value = .ok v)
    (hty : v.ty = .integer) : (read keyword opening (some tok) closing).lines s =
      Line.comment "read statement" :: call .readInt ++ [Line.instr (.store .v0 v.offset)] := by
  simp [read, readCurrent, reference_ok h, hty, Operand.inFrame, Ty.readable, Place.isLabel, Place.offset]

/-- Numbers and truth values are printed in one way, strings in another. -/
theorem printLines_cases {statement : Text} {d : Operand} {ls : List Line} (h : printLines statement d = some ls) :
    (∃ type ∈ (["integer", "logical"] : List Text), ls = printLines.number statement d type) ∨
      ls = [.comment (statement ++ " statement string"), .instr (d.load .a0)] ++ call .printString ++ [.blank] := by
  unfold printLines at h
  split at h <;> cases h
  · exact .inl ⟨"integer", by decide, rfl⟩
  · exact .inl ⟨"logical", by decide, rfl⟩
  · exact .inr rfl

theorem lines_write {keyword opening closing : Token} (value : Gen Unit) {ls : List Line}
    (h : printLines (if keyword.value = "writeln" then "writeln" else "write") (value s).state.current = some ls) :
    (write keyword opening value closing).lines s =
      value.lines s ++ (ls ++ if keyword.value = "writeln" then lineEndLines else []) := by
  by_cases hk : keyword.value = "writeln"
  · simp only [hk, if_true] at h
    simp [write, hk, h]
  · simp only [hk, if_false] at h
    simp [write, hk, h]

/-- A value whose type is not printed leaves the lines that compute it. -/
theorem lines_write_none {keyword opening closing : Token} (value : Gen Unit)
    (h : printLines (if keyword.value = "writeln" then "writeln" else "write") (value s).state.current = none) :
    (write keyword opening value closing).lines s = value.lines s := by
  by_cases hk : keyword.value = "writeln"
  · simp only [hk, if_true] at h
    simp [write, hk, h]
  · simp only [hk, if_false] at h
    simp [write, hk, h]

end Gen

end AlgolMips
