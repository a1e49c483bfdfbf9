import AlgolMips.Proofs.Labels
import AlgolMips.Proofs.Shapes
import AlgolMips.Settings

/-!
# The text of a program

The lines of a program are written one below the other, and read again from the text: nothing in a line ends it. Between
prolog and postlog every written line is of a form that an assembler knows (`CodeLine`), with the operands that its
operation takes, and it stands in the section for lines of its sort (`sectionAt`).

The forms come from what is known of the lines themselves: their shapes, the labels that they refer to and their places in
the sections. What stands in the way is that sections are found in the text, where a line might be taken for something
else than it is; `Line.Legible` says that it is not.
-/

namespace AlgolMips

open Gen Mips

namespace Mips

/-! ## Written lines -/

/-- How an operand is written. -/
def OperandForm.Fits : OperandForm → Text → Prop
  | register, t => t ∈ Reg.named.map Reg.name
  | slot, t => ∃ n : Int64, t = Text.ofWord n ++ "(" ++ Reg.fp.name ++ ")"
  | numeral, t => t.IsNumeral
  | address, t => (∃ n, t = (Label.generated n).name) ∨ t ∈ fixedLabels.map Label.name
  | target, t => ∃ n, t = (Label.generated n).name

/-- A written line of the code of a program. -/
inductive CodeLine : Text → Prop where
  | blank : CodeLine ""
  | comment {t : Text} : 0x0A ∉ t.bytes → CodeLine ("# " ++ t)
  | label {n : Nat} : CodeLine ("label" ++ Text.ofNat n ++ ":")
  | data : CodeLine ".data"
  | text : CodeLine ".text"
  | constant {n : Nat} {v : Text} : 0x22 ∉ v.bytes → 0x0A ∉ v.bytes →
      CodeLine ("label" ++ Text.ofNat n ++ ": .asciiz \"" ++ v ++ "\"")
  | instruction {op : Op} {forms : List OperandForm} {operands : List Text} : op.forms = some forms →
      List.Forall₂ OperandForm.Fits forms operands → CodeLine (Text.join " " (op.name :: operands))

/-- A written line is an instruction: it begins with an operation. -/
def IsInstruction (line : Text) : Prop := (line.cut 0x20).1 ∈ Op.known.map Op.name

/-- A written line places a string constant. -/
def IsConstant (line : Text) : Prop := line.contains ".asciiz"

instance : DecidablePred IsInstruction := fun _ => inferInstanceAs (Decidable (_ ∈ _))

instance : DecidablePred IsConstant := fun _ => inferInstanceAs (Decidable (_ = true))

example : IsInstruction "li $t0 7" ∧ ¬ IsInstruction "label3: .asciiz \"li\"" ∧ IsConstant "label3: .asciiz \"li\"" := by
  decide +kernel

/-- The section behind a written line. -/
def sectionBehind (s : Option Section) (line : Text) : Option Section :=
  if line = ".data" then some .data else if line = ".text" then some .text else s

/-- The section of the line with a number, if any was begun before it. -/
def sectionAt (lines : List Text) (i : Nat) : Option Section := (lines.take i).foldl sectionBehind none

/-! ## Instructions as they are written -/

/-- A byte of a word of an instruction: of a name, a number, a register or a slot. -/
def isOperandByte (b : UInt8) : Bool := isNameByte b || b ∈ [0x24, 0x28, 0x29, 0x2D]

/-- A byte of an instruction: of a word, or a space between two of them. -/
def isCodeByte (b : UInt8) : Bool := isOperandByte b || b = 0x20

theorem isOperandByte_of_fits {form : OperandForm} {t : Text} (h : form.Fits t) {b : UInt8} (hb : b ∈ t.bytes) :
    isOperandByte b := by
  have hgenerated : ∀ n, t = (Label.generated n).name → isOperandByte b := by
    rintro n rfl
    have hregular : (Label.generated n).Regular := .inl ⟨n, rfl⟩
    simp [isOperandByte, isNameByte_of_mem hregular.isLabelName hb]
  cases form with
  | register =>
    have hnames : ∀ t ∈ Reg.named.map Reg.name, t.bytes.all isOperandByte := by decide
    exact List.all_eq_true.1 (hnames t h) b hb
  | slot =>
    obtain ⟨n, rfl⟩ := h
    have hbehind : ∀ t ∈ [("(" : Text), Reg.fp.name, ")"], t.bytes.all isOperandByte := by decide
    simp only [Text.bytes_append, List.mem_append] at hb
    rcases hb with ((hnumber | hopening) | hname) | hclosing
    · rcases Text.mem_ofInt hnumber with hdigit | rfl
      · simp [isOperandByte, isNameByte, hdigit]
      · decide
    · exact List.all_eq_true.1 (hbehind _ (by simp)) b hopening
    · exact List.all_eq_true.1 (hbehind _ (by simp)) b hname
    · exact List.all_eq_true.1 (hbehind _ (by simp)) b hclosing
  | numeral => simp [isOperandByte, isNameByte, h.2 b hb]
  | address =>
    rcases h with ⟨n, hn⟩ | hfixed
    · exact hgenerated n hn
    · have hnames : ∀ t ∈ fixedLabels.map Label.name, t.bytes.all isOperandByte := by decide
      exact List.all_eq_true.1 (hnames t hfixed) b hb
  | target =>
    obtain ⟨n, hn⟩ := h
    exact hgenerated n hn

theorem isOperandByte_of_operands {forms : List OperandForm} {operands : List Text}
    (h : List.Forall₂ OperandForm.Fits forms operands) : ∀ t ∈ operands, ∀ b ∈ t.bytes, isOperandByte b := by
  induction h with
  | nil => simp
  | cons hfits _ ih => exact List.forall_mem_cons.2 ⟨fun b hb => isOperandByte_of_fits hfits hb, ih⟩

theorem Op.known_of_forms {op : Op} {forms : List OperandForm} (h : op.forms = some forms) : op ∈ Op.known := by
  cases op with
  | unknown n => cases h
  | _ => decide

theorem isOperandByte_of_words {op : Op} {forms : List OperandForm} {operands : List Text} (hop : op.forms = some forms)
    (h : List.Forall₂ OperandForm.Fits forms operands) : ∀ t ∈ op.name :: operands, ∀ b ∈ t.bytes, isOperandByte b := by
  have hoperations : ∀ op ∈ Op.known, op.name.bytes.all isOperandByte := by decide
  exact List.forall_mem_cons.2
    ⟨List.all_eq_true.1 (hoperations op (Op.known_of_forms hop)), isOperandByte_of_operands h⟩

/-- The text of an instruction is made of few bytes, a line feed and a dot not among them. -/
theorem isCodeByte_of_mem_join {op : Op} {forms : List OperandForm} {operands : List Text} (hop : op.forms = some forms)
    (h : List.Forall₂ OperandForm.Fits forms operands) {b : UInt8} (hb : b ∈ (Text.join " " (op.name :: operands)).bytes) :
    isCodeByte b := by
  have hspace : (Text.ofString " ").bytes.all isCodeByte := by decide
  rcases Text.mem_join hb with hsep | ⟨t, ht, hbt⟩
  · exact List.all_eq_true.1 hspace b hsep
  · rw [isCodeByte, isOperandByte_of_words hop h t ht b hbt, Bool.true_or]

theorem Instr.words_eq (i : Instr) : i.words = i.op.name :: i.words.tail := by
  cases i <;> rfl

/-- An instruction is written with the operands that its operation takes. -/
theorem Instr.Shaped.fits {i : Instr} (h : i.Shaped) {before after : List Line} (hl : (Line.instr i).Linked before after) :
    ∃ forms, i.op.forms = some forms ∧ List.Forall₂ OperandForm.Fits forms i.words.tail := by
  have hregister : ∀ {r : Reg}, r ∈ Reg.named → OperandForm.register.Fits r.name := List.mem_map_of_mem
  cases i with
  | load r n => exact ⟨_, rfl, .cons (hregister h) (.cons ⟨n, rfl⟩ .nil)⟩
  | store r n => exact ⟨_, rfl, .cons (hregister h) (.cons ⟨n, rfl⟩ .nil)⟩
  | loadImm r v => exact ⟨_, rfl, .cons (hregister h.1) (.cons h.2 .nil)⟩
  | loadAddr r l =>
    refine ⟨_, rfl, .cons (hregister h) (.cons ?_ .nil)⟩
    rcases hl with ⟨n, v, rfl, -⟩ | hfixed
    · exact .inl ⟨n, rfl⟩
    · exact .inr (List.mem_map_of_mem hfixed)
  | move d s => exact h.elim
  | op3 op d s t => exact ⟨_, h.1, .cons (hregister h.2.1) (.cons (hregister h.2.2.1) (.cons (hregister h.2.2.2) .nil))⟩
  | op2 op s t => exact ⟨_, h.1, .cons (hregister h.2.1) (.cons (hregister h.2.2) .nil)⟩
  | op1 op r => exact ⟨_, h.1, .cons (hregister h.2) .nil⟩
  | branchIfZero r l =>
    obtain ⟨n, rfl, -⟩ := hl
    exact ⟨_, rfl, .cons (hregister h) (.cons (hregister (by decide)) (.cons ⟨n, rfl⟩ .nil))⟩
  | jump l =>
    obtain ⟨n, rfl, -⟩ := hl
    exact ⟨_, rfl, .cons ⟨n, rfl⟩ .nil⟩
  | syscall => exact ⟨_, rfl, .nil⟩

/-! ## Lines as they are written -/

/-- What is known of a line of code: its shape, its links, and that the label it defines is numbered. -/
structure Line.Regular (x : Line) : Prop where
  shaped : x.Shaped
  linked : ∃ before after, x.Linked before after
  numbered : ∀ l, x.defines? = some l → ∃ n, l = .generated n

theorem Line.render_asciiz (l : Label) (v : Text) :
    (Line.asciiz l 0 v).render = l.name ++ ": .asciiz \"" ++ v ++ "\"" := by
  have hhead : (Text.ofString ": .asciiz \"").bytes = (Text.ofString ":").bytes ++ (Text.ofString " .asciiz \"").bytes := rfl
  exact congrArg Text.mk (by simp [Line.render.head, Text.replicate, hhead])

theorem Line.Regular.codeLine {x : Line} (h : x.Regular) : CodeLine x.render := by
  cases x with
  | blank => exact .blank
  | comment t =>
    have hremarks : ∀ t ∈ remarks, 0x0A ∉ t.bytes := by decide +kernel
    exact .comment (hremarks t h.shaped)
  | label l =>
    obtain ⟨n, rfl⟩ := h.numbered l rfl
    exact .label
  | data => exact .data
  | text => exact .text
  | asciiz l column v =>
    obtain ⟨rfl, hquote, hline⟩ := h.shaped
    obtain ⟨n, rfl⟩ := h.numbered l rfl
    rw [Line.render_asciiz]
    exact .constant hquote hline
  | instr i =>
    obtain ⟨before, after, hl⟩ := h.linked
    obtain ⟨forms, hforms, hfits⟩ := Instr.Shaped.fits h.shaped hl
    rw [Line.render, Instr.render, Instr.words_eq]
    exact .instruction hforms hfits
  | banner t | globl l | verbatim t => exact h.shaped.elim

/-- A line is not taken for something else: it is one line, it changes the section as it should, and it is taken for an
instruction only where it cannot stand among data, and for a constant only where it cannot stand in the text section. -/
structure Line.Legible (x : Line) : Prop where
  unbroken : 0x0A ∉ x.render.bytes
  behind : ∀ s s', x.place s = some s' → sectionBehind (some s) x.render = some s'
  instruction : IsInstruction x.render → x.place .data = none
  constant : IsConstant x.render → x.place .text = none

instance (x : Line) : Decidable x.Legible :=
  decidable_of_iff
    (0x0A ∉ x.render.bytes ∧
      (∀ s ∈ [Section.data, .text], ∀ s' ∈ x.place s, sectionBehind (some s) x.render = some s') ∧
      (IsInstruction x.render → x.place .data = none) ∧ (IsConstant x.render → x.place .text = none))
    ⟨fun ⟨hline, hbehind, hinstr, hconst⟩ =>
        ⟨hline, fun s s' h => hbehind s (by cases s <;> decide) s' h, hinstr, hconst⟩,
      fun h => ⟨h.unbroken, fun s _ s' hs => h.behind s s' hs, h.instruction, h.constant⟩⟩

theorem sectionBehind_of_head {t : Text} (h : t.bytes.head? ≠ some 0x2E) (s : Option Section) : sectionBehind s t = s := by
  have hdata : t ≠ ".data" := fun heq => h (heq ▸ rfl)
  have htext : t ≠ ".text" := fun heq => h (heq ▸ rfl)
  rw [sectionBehind, if_neg hdata, if_neg htext]

/-- A dot is part of the directive that places a constant. -/
theorem not_isConstant {t : Text} (h : 0x2E ∉ t.bytes) : ¬ IsConstant t := by
  intro hcontains
  have hdot : 0x2E ∈ (Text.ofString ".asciiz").bytes := by decide
  exact h ((Text.infix_of_contains hcontains).subset hdot)

/-- A line that begins with a label and a colon is no instruction. -/
theorem not_isInstruction {line t : Text} {rest : List UInt8} (hline : line.bytes = t.bytes ++ 0x3A :: rest)
    (h : isLabelName t) : ¬ IsInstruction line := by
  intro hmem
  have hnames : ∀ t ∈ Op.known.map Op.name, 0x3A ∉ t.bytes := by decide
  have hall : ∀ b ∈ t.bytes, (b != 0x20) = true := fun b hb =>
    bne_iff_ne.2 fun heq => absurd (isNameByte_of_mem h (heq ▸ hb)) (by decide)
  refine hnames _ hmem ?_
  rw [Text.cut_fst, hline, List.takeWhile_append_of_pos hall]
  simp

/-- A line that begins no section, and does not look so, leaves the section as it is. -/
theorem Line.behind_of_head {x : Line} (hdata : x ≠ .data) (htext : x ≠ .text) (hhead : x.render.bytes.head? ≠ some 0x2E)
    (s s' : Section) (h : x.place s = some s') : sectionBehind (some s) x.render = some s' := by
  rw [sectionBehind_of_head hhead, Option.some.injEq]
  cases x with
  | data => exact absurd rfl hdata
  | text => exact absurd rfl htext
  | label | instr | asciiz =>
    rw [Line.place, Option.ite_none_right_eq_some] at h
    exact Option.some.inj h.2
  | verbatim => cases h
  | blank | comment | banner | globl => exact Option.some.inj h

theorem legible_label (n : Nat) : (Line.label (.generated n)).Legible := by
  have hregular : (Label.generated n).Regular := .inl ⟨n, rfl⟩
  have hbytes : (Line.label (.generated n)).render.bytes = (Label.generated n).name.bytes ++ [0x3A] := rfl
  have hname : ∀ b ∈ (Line.label (.generated n)).render.bytes, isNameByte b ∨ b = 0x3A := by
    rw [hbytes]
    simp only [List.mem_append, List.mem_singleton]
    exact fun b hb => hb.imp_left (isNameByte_of_mem hregular.isLabelName)
  have hdot : 0x2E ∉ (Line.label (.generated n)).render.bytes := fun hb => absurd (hname _ hb) (by decide)
  exact {
    unbroken := fun hb => absurd (hname _ hb) (by decide)
    behind := Line.behind_of_head nofun nofun fun hb => hdot (List.mem_of_head? hb)
    instruction := fun _ => rfl
    constant := fun hc => absurd hc (not_isConstant hdot) }

theorem legible_asciiz (n : Nat) {v : Text} (hv : 0x0A ∉ v.bytes) : (Line.asciiz (.generated n) 0 v).Legible := by
  have hregular : (Label.generated n).Regular := .inl ⟨n, rfl⟩
  have hbytes : (Line.asciiz (.generated n) 0 v).render.bytes =
      (Label.generated n).name.bytes ++ 0x3A :: ((Text.ofString " .asciiz \"").bytes ++ v.bytes ++ [0x22]) := by
    have hmiddle : (Text.ofString ": .asciiz \"").bytes = 0x3A :: (Text.ofString " .asciiz \"").bytes := rfl
    have hlast : (Text.ofString "\"").bytes = [0x22] := rfl
    simp [Line.render_asciiz, hmiddle, hlast]
  have hhead : (Line.asciiz (.generated n) 0 v).render.bytes.head? = some 0x6C := by
    rw [hbytes, List.head?_append, head?_name_generated]
    rfl
  refine {
    unbroken := ?_
    behind := Line.behind_of_head nofun nofun (by simp [hhead])
    instruction := fun hi => absurd hi (not_isInstruction hbytes hregular.isLabelName)
    constant := fun _ => rfl }
  have hbetween : 0x0A ∉ (Text.ofString " .asciiz \"").bytes := by decide
  rw [hbytes]
  simp only [List.mem_append, List.mem_cons, List.not_mem_nil, or_false, not_or]
  exact ⟨fun hb => absurd (isNameByte_of_mem hregular.isLabelName hb) (by decide), by decide, ⟨hbetween, hv⟩, by decide⟩

theorem legible_instr {i : Instr} (h : ∀ b ∈ i.render.bytes, isCodeByte b) : (Line.instr i).Legible := by
  have hdot : 0x2E ∉ (Line.instr i).render.bytes := fun hb => absurd (h _ hb) (by decide)
  exact {
    unbroken := fun hb => absurd (h _ hb) (by decide)
    behind := Line.behind_of_head nofun nofun fun hb => hdot (List.mem_of_head? hb)
    instruction := fun _ => rfl
    constant := fun hc => absurd hc (not_isConstant hdot) }

theorem Line.Regular.legible {x : Line} (h : x.Regular) : x.Legible := by
  cases x with
  | blank | data | text => decide +kernel
  | comment t =>
    have hremarks : ∀ t ∈ remarks, (Line.comment t).Legible := by decide +kernel
    exact hremarks t h.shaped
  | label l =>
    obtain ⟨n, rfl⟩ := h.numbered l rfl
    exact legible_label n
  | asciiz l column v =>
    obtain ⟨rfl, -, hline⟩ := h.shaped
    obtain ⟨n, rfl⟩ := h.numbered l rfl
    exact legible_asciiz n hline
  | instr i =>
    obtain ⟨before, after, hl⟩ := h.linked
    obtain ⟨forms, hforms, hfits⟩ := Instr.Shaped.fits h.shaped hl
    refine legible_instr ?_
    rw [Instr.render, Instr.words_eq]
    exact fun b hb => isCodeByte_of_mem_join hforms hfits hb
  | banner t | globl l | verbatim t => exact h.shaped.elim

/-! ## Sections -/

/-- Where lines may stand, their texts stand in the sections that the texts begin. The induction is on the lines, with
the section before them at hand. -/
theorem section_of_placed {s s' : Section} {ls : List Line} (hplaced : placeLines s ls = some s')
    (hlegible : ∀ x ∈ ls, x.Legible) {i : Nat} {line : Text} (hi : (ls.map Line.render)[i]? = some line) :
    ∃ sec, ((ls.map Line.render).take i).foldl sectionBehind (some s) = some sec ∧
      (IsInstruction line → sec = .text) ∧ (IsConstant line → sec = .data) := by
  induction ls generalizing s i with
  | nil => simp at hi
  | cons x ls ih =>
    obtain ⟨hx, hrest⟩ := List.forall_mem_cons.1 hlegible
    rw [placeLines_cons, Option.bind_eq_some_iff] at hplaced
    obtain ⟨s₁, hplace, hplaced⟩ := hplaced
    cases i with
    | zero =>
      cases hi
      refine ⟨s, rfl, fun hinstr => ?_, fun hconst => ?_⟩
      · cases s with
        | text => rfl
        | data => simp [hx.instruction hinstr] at hplace
      · cases s with
        | data => rfl
        | text => simp [hx.constant hconst] at hplace
    | succ i =>
      rw [List.map_cons, List.take_succ_cons, List.foldl_cons, hx.behind s s₁ hplace]
      exact ih hplaced hrest (by simpa using hi)

end Mips

/-! ## Whole programs -/

theorem Laid.generated_of_defines {a b : Nat} {ls : List Line} (h : Laid a b ls) {x : Line} (hx : x ∈ ls) {l : Label}
    (hl : x.defines? = some l) : ∃ n, l = .generated n := by
  cases l with
  | generated n => exact ⟨n, rfl⟩
  | named t =>
    have hmem : Label.named t ∈ ls.filterMap Line.defines? := List.mem_filterMap.2 ⟨x, hx, hl⟩
    have hnone : definitions ls (.named t) = 0 := h.labels _
    exact absurd hmem (List.count_eq_zero.1 hnone)

/-- The lines between prolog and postlog, where the literals are those of a scanner. -/
theorem Program.regular_body (p : Program) (h : ∀ t ∈ p.literals, Scan.LiteralText t.value) (wordSize : Int64) :
    ∀ x ∈ p.body.lines { frame := { wordSize } }, x.Regular := by
  intro x hx
  have hlinks : p.body.Links { frame := { wordSize } } [] := p.links_body nofun
  obtain ⟨i, hi⟩ := List.getElem?_of_mem hx
  exact ⟨p.leaves_body h _ x hx, ⟨_, _, (hlinks.1 []).getElem? hi⟩,
    fun l hl => (p.lays_body _).generated_of_defines hx hl⟩

theorem legible_prolog : ∀ x ∈ prolog, x.Legible := by decide +kernel

theorem legible_postlog : ∀ x ∈ postlog, x.Legible := by decide +kernel

/-- Around code that stays in the text section, the lines of a program stand in their sections. The first line is a
remark, and the second one begins the text section. -/
theorem section_of_program {body : List Line} (hbody : ∀ x ∈ body, x.Legible)
    (hplaced : placeLines .text body = some .text) {i : Nat} {line : Text}
    (hi : ((prolog ++ (body ++ postlog)).map Line.render)[i]? = some line) :
    let lines := (prolog ++ (body ++ postlog)).map Line.render
    (IsInstruction line → sectionAt lines i = some .text) ∧ (IsConstant line → sectionAt lines i = some .data) := by
  have hprolog : placeLines .text prolog.tail.tail = some .text := by decide
  have hpostlog : placeLines .text postlog = some .data := by decide
  have hall : placeLines .text (prolog.tail.tail ++ (body ++ postlog)) = some .data := by
    simp [hprolog, hplaced, hpostlog]
  have hlegible : ∀ x ∈ prolog.tail.tail ++ (body ++ postlog), x.Legible := by
    simp only [List.forall_mem_append]
    exact ⟨fun x hx => legible_prolog x (List.mem_of_mem_tail (List.mem_of_mem_tail hx)), hbody, legible_postlog⟩
  rcases i with _ | _ | i
  · cases hi
    exact ⟨fun h => absurd h (by decide +kernel), fun h => absurd h (by decide +kernel)⟩
  · cases hi
    exact ⟨fun h => absurd h (by decide +kernel), fun h => absurd h (by decide +kernel)⟩
  · obtain ⟨sec, hsec, hinstr, hconst⟩ := section_of_placed hall hlegible (i := i) hi
    have hat : sectionAt ((prolog ++ (body ++ postlog)).map Line.render) (i + 2) = some sec := hsec
    exact ⟨fun h => hat.trans (congrArg some (hinstr h)), fun h => hat.trans (congrArg some (hconst h))⟩

/-- The lines of a scanned source between prolog and postlog are regular, and they stay in the text section. -/
theorem exists_body_scanned (comments : Bool) (file : Int) (source : List Char) (eofFile eofLine eofColumn : Int)
    (wordSize : Int64) :
    let tokens := (scan comments file source).tokens
    ∃ body, (lower wordSize ⟨tokens, eofFile, eofLine, eofColumn⟩).lines = prolog ++ (body ++ postlog) ∧
      (∀ x ∈ body, x.Regular) ∧ placeLines .text body = some .text := by
  intro tokens
  let program := (TokenSource.parse ⟨tokens, eofFile, eofLine, eofColumn⟩).1
  have hliterals : ∀ t ∈ program.literals, Scan.LiteralText t.value := by
    intro t ht
    obtain ⟨hmem, hkind⟩ := TokenSource.literals_parse _ t ht
    exact Scanned.literalText_of_mem hmem hkind
  exact ⟨program.body.lines { frame := { wordSize } }, program.lines_lower_eq _ _, program.regular_body hliterals wordSize,
    (program.lays_body _).placed⟩

/-- No line of a program is broken. -/
theorem unbroken_program {body : List Line} (h : ∀ x ∈ body, x.Legible) :
    ∀ x ∈ prolog ++ (body ++ postlog), 0x0A ∉ x.render.bytes := by
  simp only [List.forall_mem_append]
  exact ⟨fun x hx => (legible_prolog x hx).unbroken, fun x hx => (h x hx).unbroken,
    fun x hx => (legible_postlog x hx).unbroken⟩

/-- Whatever the source and the settings are: the text of the code is read back as its lines, which are those of the
prolog, of the code itself and of the postlog; each line of the code is of a form that an assembler knows; and all
instructions stand in the text section, all string constants in the data section. -/
theorem written_lines_wellFormed (settings : Settings) (file : Int) (source : List Char)
    (eofFile eofLine eofColumn : Int) :
    let tokens := (scan (settings.feature .comments) file source).tokens
    let lowered := lower settings.wordSize ⟨tokens, eofFile, eofLine, eofColumn⟩
    let lines := lowered.lines.map Line.render
    lowered.output.text.lines = lines ++ [Text.empty] ∧
    (∃ body, lines = prolog.map Line.render ++ (body ++ postlog.map Line.render) ∧ ∀ line ∈ body, CodeLine line) ∧
    (∀ i line, lines[i]? = some line → IsInstruction line → sectionAt lines i = some .text) ∧
    (∀ i line, lines[i]? = some line → IsConstant line → sectionAt lines i = some .data) := by
  intro tokens lowered lines
  obtain ⟨body, hlines, hregular, hplaced⟩ :=
    exists_body_scanned (settings.feature .comments) file source eofFile eofLine eofColumn settings.wordSize
  have hlegible : ∀ x ∈ body, x.Legible := fun x hx => (hregular x hx).legible
  have hrender : lines = (prolog ++ (body ++ postlog)).map Line.render := congrArg (List.map Line.render) hlines
  have hunbroken : ∀ line ∈ lines, 0x0A ∉ line.bytes := by
    rw [hrender, List.forall_mem_map]
    exact unbroken_program hlegible
  refine ⟨Text.lines_unlines hunbroken, ⟨body.map Line.render, by simp [hrender], ?_⟩, fun i line hi => ?_,
    fun i line hi => ?_⟩
  · simp only [List.forall_mem_map]
    exact fun x hx => (hregular x hx).codeLine
  · rw [hrender] at hi ⊢
    exact (section_of_program hlegible hplaced hi).1
  · rw [hrender] at hi ⊢
    exact (section_of_program hlegible hplaced hi).2

end AlgolMips
