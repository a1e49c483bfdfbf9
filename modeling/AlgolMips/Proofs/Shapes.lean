import AlgolMips.Proofs.Emission
import AlgolMips.Proofs.Reading
import AlgolMips.Proofs.Scanning
import AlgolMips.Proofs.Texts

/-!
# Shapes of lines

Texts of a source reach the code in two places only: a number becomes an immediate value, and what stands between quotes
becomes a string constant. So every line that a lowering leaves has one of a few shapes (`Mips.Line.Shaped`), provided that
the literals of the program are written as scanned literals are (`Scan.LiteralText`). Faults make no difference to this:
whatever is reported, the lines that are left are of these shapes.
-/

namespace AlgolMips

open Gen Mips

/-! ## Literals as they are scanned -/

/-- A decimal numeral without a sign. -/
def Text.IsNumeral (t : Text) : Prop := t.bytes ≠ [] ∧ ∀ b ∈ t.bytes, Text.isDigit b

instance : DecidablePred Text.IsNumeral := fun t =>
  decidable_of_iff (t.bytes ≠ [] ∧ t.bytes.all Text.isDigit) (by rw [Text.IsNumeral, List.all_eq_true])

namespace Scan

/-- The texts of scanned literals. -/
inductive LiteralText : Text → Prop where
  | numeral {t : Text} : t.IsNumeral → LiteralText t
  | quoted {body : Text} : 0x22 ∉ body.bytes → 0x0A ∉ body.bytes → LiteralText ("\"" ++ body ++ "\"")
  | true : LiteralText "true"
  | false : LiteralText "false"

theorem isNumeral_ofChars {cs : List Char} (hne : cs ≠ []) (h : ∀ c ∈ cs, isDigit c) : (Text.ofChars cs).IsNumeral := by
  have hbyte : ∀ c ∈ cs, ∃ b, String.utf8EncodeChar c = [b] ∧ Text.isDigit b := fun c hc =>
    Text.utf8EncodeChar_of_isDigit (h c hc)
  constructor
  · obtain ⟨c, rest, rfl⟩ := List.exists_cons_of_ne_nil hne
    obtain ⟨b, hb, -⟩ := hbyte c List.mem_cons_self
    simp [Text.ofChars, hb]
  · intro b hb
    obtain ⟨c, hc, hmem⟩ := List.mem_flatMap.1 hb
    obtain ⟨d, hd, hdigit⟩ := hbyte c hc
    rw [hd, List.mem_singleton] at hmem
    exact hmem ▸ hdigit

/-- A scanned literal is a number, a quoted text or a truth value. -/
theorem Lexeme.literalText {comments : Bool} {before text after : List Char}
    (h : Lexeme comments before text after (.token .literal)) : LiteralText (Text.ofChars text) := by
  generalize hcls : SegmentClass.token .literal = cls at h
  cases h with
  | number hne hdigits _ _ => exact .numeral (isNumeral_ofChars hne hdigits)
  | @string body after hquote hline =>
    have hsplit : Text.ofChars ('"' :: body ++ ['"']) = "\"" ++ Text.ofChars body ++ "\"" := by
      have hone : (Text.ofString "\"").bytes = String.utf8EncodeChar '"' := by decide
      exact congrArg Text.mk (by simp [Text.ofChars, hone])
    rw [hsplit]
    exact .quoted (fun hb => hquote (Text.mem_of_mem_ofChars (by decide) hb))
      fun hb => hline (Text.mem_of_mem_ofChars (by decide) hb)
  | @word c cs =>
    have hwords : ∀ entry ∈ Kind.keywords, entry.2 = .literal → entry.1 = "true" ∨ entry.1 = "false" := by decide
    cases hkind : Kind.ofKeyword? (Text.ofChars (c :: cs)) with
    | none => simp [hkind] at hcls
    | some kind =>
      have hkeyword := mem_of_lookup hkind
      simp only [hkind, Option.getD_some, SegmentClass.token.injEq] at hcls
      have hvalue : Text.ofChars (c :: cs) = "true" ∨ Text.ofChars (c :: cs) = "false" := hwords _ hkeyword hcls.symm
      rcases hvalue with htrue | hfalse
      · exact htrue ▸ .true
      · exact hfalse ▸ .false
  | single hk =>
    cases hcls
    have hmem := mem_of_lookup hk
    simp at hmem
  | _ => cases hcls

end Scan

/-- The literals among the tokens of a source are written so. -/
theorem Scanned.literalText_of_mem {comments : Bool} {file : Int} {source : List Char} {tok : Token}
    (h : tok ∈ (scan comments file source).tokens) (hk : tok.kind = .literal) : Scan.LiteralText tok.value := by
  obtain ⟨s, hs, hsome⟩ := List.mem_filterMap.1 h
  obtain ⟨k, hcls, rfl⟩ := Segment.token?_eq_some_iff.1 hsome
  obtain ⟨front, back, hsplit⟩ := List.append_of_mem hs
  have hlexeme := (Scan.segmentsFrom_spec (Scan.boundary_nil _) hsplit).1
  rw [hcls, show k = .literal from hk] at hlexeme
  exact hlexeme.literalText

namespace Scan.LiteralText

variable {t : Text}

theorem ofLiteral_numeral (h : t.IsNumeral) : Ty.ofLiteral t = .integer := by
  obtain ⟨b, rest, hbytes⟩ := List.exists_cons_of_ne_nil h.1
  have hdigit : Text.isDigit b := h.2 b (by simp [hbytes])
  have hhead : t.bytes.head? = some b := by rw [hbytes]; rfl
  unfold Ty.ofLiteral
  rw [hhead]
  split <;> simp_all [Text.isDigit]

/-- What is put into a slot is a numeral. -/
theorem isNumeral_immediate (h : LiteralText t) (hs : Ty.ofLiteral t ≠ .string) : (immediate t).IsNumeral := by
  cases h with
  | numeral hn =>
    rw [immediate, ofLiteral_numeral hn]
    exact hn
  | quoted => exact absurd rfl hs
  | true => decide
  | false => decide

/-- What is placed as a constant is what stands between the quotes. -/
theorem clean_trimmed (h : LiteralText t) (hs : Ty.ofLiteral t = .string) :
    let value := Text.trimEnding "\"" (Text.trimBeginning "\"" t)
    0x22 ∉ value.bytes ∧ 0x0A ∉ value.bytes := by
  cases h with
  | numeral hn => simp [ofLiteral_numeral hn] at hs
  | @quoted body hquote hline =>
    have hassoc : ("\"" : Text) ++ body ++ "\"" = "\"" ++ (body ++ "\"") := congrArg Text.mk (List.append_assoc ..)
    rw [hassoc, Text.trimBeginning_append, Text.trimEnding_append]
    exact ⟨hquote, hline⟩
  | true => exact absurd hs (by decide)
  | false => exact absurd hs (by decide)

end Scan.LiteralText

/-! ## Instructions and lines -/

namespace Mips

/-- What an operand of an instruction is. -/
inductive OperandForm where
  | register
  | slot
  | numeral
  | address
  | target
deriving DecidableEq

/-- The operands of the operations in the code of a program. Between prolog and postlog nothing is moved. -/
def Op.forms : Op → Option (List OperandForm)
  | lw | sw => some [.register, .slot]
  | li => some [.register, .numeral]
  | la => some [.register, .address]
  | add | sub | or | and | slt | sgt | seq | sne => some [.register, .register, .register]
  | mult | div | not => some [.register, .register]
  | mfhi | mflo => some [.register]
  | beq => some [.register, .register, .target]
  | j => some [.target]
  | syscall => some []
  | move | unknown _ => none

/-- The registers with a name of their own. -/
def Reg.named : List Reg := [.zero, .v0, .a0, .t0, .t1, .fp, .sp]

/-- An operation on registers has as many of them as it takes, and an immediate value is a numeral. -/
def Instr.Shaped : Instr → Prop
  | load r _ | store r _ | loadAddr r _ | branchIfZero r _ => r ∈ Reg.named
  | loadImm r v => r ∈ Reg.named ∧ v.IsNumeral
  | op3 op d s t =>
    op.forms = some [.register, .register, .register] ∧ d ∈ Reg.named ∧ s ∈ Reg.named ∧ t ∈ Reg.named
  | op2 op s t => op.forms = some [.register, .register] ∧ s ∈ Reg.named ∧ t ∈ Reg.named
  | op1 op r => op.forms = some [.register] ∧ r ∈ Reg.named
  | jump _ | syscall => True
  | move _ _ => False

/-- The comments in the code of a program. -/
def remarks : List Text :=
  ["literal", "expression", "term", "relfactor", "boolean not", "assignment", "if statement", "while statement",
    "read statement", "write statement integer", "write statement logical", "write statement string",
    "writeln statement integer", "writeln statement logical", "writeln statement string"]

/-- The lines in the code of a program, their labels aside. -/
def Line.Shaped : Line → Prop
  | blank | label _ | data | text => True
  | comment t => t ∈ remarks
  | asciiz _ column v => column = 0 ∧ 0x22 ∉ v.bytes ∧ 0x0A ∉ v.bytes
  | instr i => i.Shaped
  | banner _ | globl _ | verbatim _ => False

end Mips

/-! ## Walks -/

/-- Every line that a walk leaves is of a sort. -/
def Gen.Leaves {α : Type} (p : Line → Prop) (m : Gen α) : Prop := ∀ s, ∀ x ∈ m.lines s, p x

namespace Gen

variable {α β : Type} {p : Line → Prop}

theorem Leaves.bind {m : Gen α} {f : α → Gen β} (h : m.Leaves p) (hf : ∀ a, (f a).Leaves p) : (m >>= f).Leaves p := by
  intro s
  rw [lines_bind, List.forall_mem_append]
  exact ⟨h s, hf _ _⟩

theorem leaves_of_none {m : Gen α} (h : ∀ s, m.lines s = []) : m.Leaves p := by
  intro s
  rw [h]
  exact fun x hx => absurd hx List.not_mem_nil

/-- A step without lines is passed over. -/
theorem Leaves.skip {m : Gen α} {f : α → Gen β} (h : ∀ s, m.lines s = []) (hf : ∀ a, (f a).Leaves p) :
    (m >>= f).Leaves p :=
  (leaves_of_none h).bind hf

theorem leaves_emit {ls : List Line} (h : ∀ x ∈ ls, p x) : (emit ls).Leaves p := by
  intro s
  rw [lines_emit]
  exact h

theorem leaves_expect (k : Kind) (tok : Token) : (expect k tok).Leaves p := leaves_of_none (lines_expect k tok)

theorem leaves_report (tok : Token) (f : Fault) : (report tok f).Leaves p := leaves_of_none (lines_report tok f)

/-! ### Expressions -/

theorem shaped_operation (operation : Operation) : ∀ i ∈ operation.instrs, i.Shaped := by
  have hall : ∀ i ∈ operatorInstrs, i.Shaped := by simp [operatorInstrs, Instr.Shaped, Op.forms, Reg.named]
  exact fun i hi => hall i (operation.mem_operatorInstrs i hi)

theorem leaves_operation (operation : Operation) (left right : Operand) (result : Ty) :
    (binary operation.remark left right operation.instrs result).Leaves Line.Shaped := by
  have hremark : operation.remark ∈ remarks := by cases operation <;> simp [Operation.remark, remarks]
  intro s
  simp only [lines_binary, operatorLines, List.forall_mem_append, List.forall_mem_cons, List.forall_mem_map]
  simp only [Line.Shaped, Instr.Shaped]
  exact ⟨⟨⟨hremark, by decide, by decide, by simp⟩, shaped_operation operation⟩, by decide, by simp⟩

theorem leaves_add (op : Token) (left right : Operand) : (add op left right).Leaves Line.Shaped := by
  unfold add
  split
  · exact leaves_operation (.sum op.value) _ _ _
  · exact leaves_report _ _

theorem leaves_mul (op : Token) (left right : Operand) : (mul op left right).Leaves Line.Shaped := by
  unfold mul
  split
  · exact leaves_operation (.product op.value) _ _ _
  · exact leaves_report _ _

theorem leaves_compare (op : Token) (left right : Operand) : (Gen.compare op left right).Leaves Line.Shaped := by
  unfold Gen.compare
  split
  · exact leaves_of_none (lines_setCurrent _)
  · split
    · exact leaves_report _ _
    · exact leaves_operation (.comparison op.value) _ _ _

theorem leaves_negate (op : Token) (d : Operand) : (negate op d).Leaves Line.Shaped := by
  unfold negate
  split
  · exact leaves_report _ _
  · refine leaves_emit ?_
    simp [Line.Shaped, Instr.Shaped, remarks, Reg.named, Op.forms]

/-- A literal as it is scanned leaves a numeral or a constant without quotes and line ends. -/
theorem leaves_literal {lexeme : Text} (h : Scan.LiteralText lexeme) : (literal lexeme).Leaves Line.Shaped := by
  intro s
  by_cases hty : Ty.ofLiteral lexeme = .string
  · rw [(literal_string hty).1]
    simpa [inlineString, Line.Shaped] using h.clean_trimmed hty
  · rw [(literal_immediate hty).1]
    simpa [Line.Shaped, Instr.Shaped, remarks, Reg.named] using h.isNumeral_immediate hty

theorem leaves_reference (tok : Token) : (reference tok).Leaves p := by
  refine .skip (lines_produce _) fun _ => .skip (lines_resolve _) fun r => ?_
  cases r with
  | error e => exact (leaves_report _ _).bind fun _ => leaves_of_none (lines_pure _)
  | ok v => exact .skip (lines_setCurrent _) fun _ => leaves_of_none (lines_pure _)

/-- Two operands, and then what is done with them. -/
theorem leaves_operands {left right : Gen Unit} {f : Operand → Operand → Gen Unit} (hl : left.Leaves p)
    (hr : right.Leaves p) (hf : ∀ l r, (f l r).Leaves p) :
    (do left; let l ← current; right; f l (← current)).Leaves p :=
  hl.bind fun _ => .skip lines_current fun _ => hr.bind fun _ => .skip lines_current fun _ => hf _ _

end Gen

theorem Expr.leaves_lower {l : Level} (e : Expr l) (h : ∀ t ∈ e.literals, Scan.LiteralText t.value) :
    e.lower.Leaves Line.Shaped := by
  induction e with
  | add left op right ihl ihr =>
    obtain ⟨hl, hr⟩ := List.forall_mem_append.1 h
    exact leaves_operands (ihl hl) (ihr hr) fun _ _ => leaves_add _ _ _
  | mul left op right ihl ihr =>
    obtain ⟨hl, hr⟩ := List.forall_mem_append.1 h
    exact leaves_operands (ihl hl) (ihr hr) fun _ _ => leaves_mul _ _ _
  | compare left op right ihl ihr =>
    obtain ⟨hl, hr⟩ := List.forall_mem_append.1 h
    exact .skip (lines_produce _) fun _ => leaves_operands (ihl hl) (ihr hr) fun _ _ => leaves_compare _ _ _
  | term e ih | relation e ih | factor e ih => exact .skip (lines_produce _) fun _ => ih h
  | missing => exact leaves_of_none (lines_produce _)
  | name tok => exact .skip (lines_produce _) fun _ => (leaves_reference tok).bind fun _ => leaves_of_none (lines_pure _)
  | literal tok => exact .skip (lines_produce _) fun _ => leaves_literal (h tok List.mem_cons_self)
  | negation op e ih =>
    exact .skip (lines_produce _) fun _ => (ih h).bind fun _ => .skip lines_current fun _ => leaves_negate _ _
  | group opening e closing ih => exact .skip (lines_produce _) fun _ => (ih h).bind fun _ => leaves_expect _ _

/-! ### Statements -/

namespace Gen

theorem shaped_call (service : Service) : ∀ x ∈ call service, x.Shaped := by
  have hcode : (Text.ofInt service.code).IsNumeral := by cases service <;> decide +kernel
  simpa [call, callCode, Line.Shaped, Instr.Shaped, Reg.named] using hcode

/-- An operand is loaded into a register, wherever it stands. -/
theorem shaped_load (d : Operand) {r : Reg} (h : r ∈ Reg.named) : (d.load r).Shaped := by
  unfold Operand.load
  cases d.place <;> exact h

theorem leaves_storeIn (target : Token) (v : Variable) : (storeIn target v).Leaves Line.Shaped := by
  refine .skip lines_current fun d => ?_
  split
  · refine leaves_emit ?_
    simpa [Line.Shaped, Instr.Shaped, remarks, Reg.named] using shaped_load d (by decide)
  · exact leaves_report _ _

theorem leaves_assignment (target sign : Token) {value : Gen Unit} (h : value.Leaves Line.Shaped) :
    (assignment target sign value).Leaves Line.Shaped := by
  refine .skip (lines_produce _) fun _ => .skip (lines_resolve _) fun r => ?_
  cases r with
  | error e => exact (leaves_report _ _).bind fun _ => (leaves_expect _ _).bind fun _ => h
  | ok v =>
    exact (leaves_reference _).bind fun _ => (leaves_expect _ _).bind fun _ => h.bind fun _ => leaves_storeIn _ _

theorem leaves_conditional (opening middle : Token) {condition action : Gen Unit} (hc : condition.Leaves Line.Shaped)
    (ha : action.Leaves Line.Shaped) : (conditional opening middle condition action).Leaves Line.Shaped := by
  intro s
  simp only [lines_conditional, List.forall_mem_append]
  refine ⟨hc s, ?_, ha _, ?_⟩
  · simp [Line.Shaped, Instr.Shaped, remarks, Reg.named]
  · simp [Line.Shaped]

theorem leaves_loop (opening middle : Token) {condition action : Gen Unit} (hc : condition.Leaves Line.Shaped)
    (ha : action.Leaves Line.Shaped) : (loop opening middle condition action).Leaves Line.Shaped := by
  intro s
  simp only [lines_loop, List.forall_mem_append]
  refine ⟨?_, hc _, ?_, ha _, ?_⟩
  · simp [Line.Shaped, remarks]
  · simp [Line.Shaped, Instr.Shaped, Reg.named]
  · simp [Line.Shaped, Instr.Shaped]

theorem leaves_block (closing : Token) {inside : Gen Unit} (h : inside.Leaves p) : (block closing inside).Leaves p := by
  intro s
  rw [lines_block]
  exact h _

theorem leaves_readCurrent (keyword : Token) : (readCurrent keyword).Leaves Line.Shaped := by
  refine .skip lines_current fun d => ?_
  split
  · refine .skip (lines_note _) fun _ => leaves_emit ?_
    simp only [List.cons_append, List.forall_mem_cons, List.forall_mem_append]
    exact ⟨by simp [Line.Shaped, remarks], shaped_call _, by simp [Line.Shaped, Instr.Shaped, Reg.named]⟩
  · exact leaves_report _ _

theorem leaves_read (keyword opening : Token) (target : Option Token) (closing : Token) :
    (read keyword opening target closing).Leaves Line.Shaped := by
  refine .skip (lines_produce _) fun _ => (leaves_expect _ _).bind fun _ => ?_
  cases target with
  | none => exact .skip (lines_produce _) fun _ => leaves_expect _ _
  | some tok =>
    refine (leaves_reference tok).bind fun declared => ?_
    cases declared with
    | false => exact leaves_expect _ _
    | true => exact (leaves_readCurrent _).bind fun _ => leaves_expect _ _

theorem shaped_printLines {statement : Text} (hstatement : statement ∈ (["write", "writeln"] : List Text)) {d : Operand}
    {ls : List Line} (h : printLines statement d = some ls) : ∀ x ∈ ls, x.Shaped := by
  have hremarks : ∀ c ∈ (["write", "writeln"] : List Text), (∀ type ∈ (["integer", "logical"] : List Text),
      c ++ " statement " ++ type ∈ remarks) ∧ c ++ " statement string" ∈ remarks := by decide
  obtain ⟨hnumber, hstring⟩ := hremarks statement hstatement
  have hregister : Reg.a0 ∈ Reg.named := by decide
  rcases printLines_cases h with ⟨type, htype, rfl⟩ | rfl
  · simp only [printLines.number, List.forall_mem_append, List.forall_mem_cons]
    exact ⟨⟨⟨hnumber type htype, hregister, by simp⟩, shaped_call _⟩, trivial, by simp⟩
  · simp only [List.forall_mem_append, List.forall_mem_cons]
    exact ⟨⟨⟨hstring, shaped_load d hregister, by simp⟩, shaped_call _⟩, trivial, by simp⟩

theorem shaped_lineEndLines : ∀ x ∈ lineEndLines, x.Shaped := by
  simp only [lineEndLines, List.cons_append, List.forall_mem_cons, List.forall_mem_append]
  exact ⟨by simp [Line.Shaped, Instr.Shaped, Reg.named], shaped_call _, by simp [Line.Shaped]⟩

theorem leaves_write (keyword opening : Token) {value : Gen Unit} (h : value.Leaves Line.Shaped) (closing : Token) :
    (write keyword opening value closing).Leaves Line.Shaped := by
  refine .skip (lines_produce _) fun _ => (leaves_expect _ _).bind fun _ => h.bind fun _ =>
    .skip (lines_note _) fun _ => .skip lines_current fun d => ?_
  split
  · next ls hls =>
    have hprint : ∀ x ∈ ls, x.Shaped := shaped_printLines (by split <;> decide) hls
    refine (leaves_emit ?_).bind fun _ => leaves_expect _ _
    split
    · exact List.forall_mem_append.2 ⟨hprint, shaped_lineEndLines⟩
    · exact hprint
  · exact leaves_expect _ _

end Gen

theorem Code.leaves_lower {x : Extent} (c : Code x) (h : ∀ t ∈ c.literals, Scan.LiteralText t.value) :
    c.lower.Leaves Line.Shaped := by
  induction c with
  | empty => exact leaves_of_none (lines_produce _)
  | declare type name => exact .skip (lines_enter _) fun _ => leaves_of_none (lines_declaration _ _)
  | assign target sign value => exact .skip (lines_enter _) fun _ => leaves_assignment _ _ (value.leaves_lower h)
  | ifThen opening condition middle action ih =>
    obtain ⟨hc, ha⟩ := List.forall_mem_append.1 h
    exact .skip (lines_enter _) fun _ => leaves_conditional _ _ (condition.leaves_lower hc) (ih ha)
  | whileDo opening condition middle action ih =>
    obtain ⟨hc, ha⟩ := List.forall_mem_append.1 h
    exact .skip (lines_enter _) fun _ => leaves_loop _ _ (condition.leaves_lower hc) (ih ha)
  | block opening inside closing ih => exact .skip (lines_enter _) fun _ => leaves_block _ (ih h)
  | read keyword opening target closing => exact .skip (lines_enter _) fun _ => leaves_read _ _ _ _
  | write keyword opening value closing =>
    exact .skip (lines_enter _) fun _ => leaves_write _ _ (value.leaves_lower h) _
  | done => exact leaves_of_none (lines_pure _)
  | last s ih => exact ih h
  | next s separator rest ihs ihr =>
    obtain ⟨hs, hr⟩ := List.forall_mem_append.1 h
    exact (ihs hs).bind fun _ => (leaves_expect _ _).bind fun _ => ihr hr

/-- Between prolog and postlog, every line of a scanned program is of one of the shapes. -/
theorem Program.leaves_body (p : Program) (h : ∀ t ∈ p.literals, Scan.LiteralText t.value) :
    p.body.Leaves Line.Shaped := by
  cases p with
  | bare stop => exact .skip (lines_produce _) fun _ => leaves_expect _ _
  | block opening inside closing stop =>
    exact (leaves_block _ (inside.leaves_lower h)).bind fun _ => leaves_expect _ _

end AlgolMips
