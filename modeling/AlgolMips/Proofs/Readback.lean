import AlgolMips.Proofs.Assembly
import AlgolMips.Proofs.Correctness
import AlgolMips.Proofs.OnePass

/-!
# Reading the code back

Code is kept as lines, and a run is a run of lines; what is written out is a text. An assembler has the text alone. A reader
of assembly takes a line apart at its colon and its spaces and looks up the names of operations, registers and labels
(`Line.read`). It finds in the text of a translated source the lines that the text was written from, up to the spaces with
which the constants of the postlog are lined up (`readText_translate`). A run does not see these spaces, so whatever is
proved of a run of the lines holds of a run of the text that was written (`prints_readText_iff`).
-/

namespace AlgolMips

open Gen Mips

namespace Mips

/-! ## A reader of assembly -/

/-- The number that a decimal numeral spells, with a minus sign where it has one. -/
def signedValue : List UInt8 → Int
  | 0x2D :: ds => -(Text.digitsValue ds)
  | ds => Text.digitsValue ds

/-- The register with a name. -/
def Reg.ofName? (t : Text) : Option Reg := Reg.named.find? fun r => r.name = t

/-- The operation with a name. -/
def Op.ofName? (t : Text) : Option Op := Op.known.find? fun op => op.name = t

/-- The label with a name: the one with a number where a number gives that name, which is then behind five letters. -/
def Label.ofName (t : Text) : Label :=
  let l := generated (Text.digitsValue (t.bytes.drop 5))
  if l.name = t then l else named t

/-- The frame slot that is addressed so. -/
def slot? (t : Text) : Option Int64 :=
  let n := Int64.ofInt (signedValue (t.cut 0x28).1.bytes)
  if Instr.words.slot n = t then some n else none

/-- The instruction with an operation and operands. -/
def Instr.ofOperands : Op → List Text → Option Instr
  | .lw, [r, n] => do return .load (← Reg.ofName? r) (← slot? n)
  | .sw, [r, n] => do return .store (← Reg.ofName? r) (← slot? n)
  | .li, [r, v] => do return .loadImm (← Reg.ofName? r) v
  | .la, [r, l] => do return .loadAddr (← Reg.ofName? r) (.ofName l)
  | .move, [d, s] => do return .move (← Reg.ofName? d) (← Reg.ofName? s)
  | .beq, [r, z, l] => do
    guard (z = Reg.zero.name)
    return .branchIfZero (← Reg.ofName? r) (.ofName l)
  | .j, [l] => some (.jump (.ofName l))
  | .syscall, [] => some .syscall
  | op, [d, s, t] => do return .op3 op (← Reg.ofName? d) (← Reg.ofName? s) (← Reg.ofName? t)
  | op, [s, t] => do return .op2 op (← Reg.ofName? s) (← Reg.ofName? t)
  | op, [r] => do return .op1 op (← Reg.ofName? r)
  | _, _ => none

/-- The instruction that some words are. -/
def Instr.read : List Text → Option Instr
  | [] => none
  | name :: operands => (Op.ofName? name).bind fun op => ofOperands op operands

namespace Line

/-- A remark, which begins with a number sign. -/
def readRemark (t : Text) : Line :=
  match Text.dropBeginning? "# " t with
  | some rest => .comment rest
  | none => .banner ⟨t.bytes.tail⟩

/-- A line that begins with a label. -/
def readLabelled (t name rest : Text) : Line :=
  if rest.isEmpty then .label (.ofName name)
  else
    match Text.dropBeginning? ".asciiz \"" ⟨rest.bytes.dropWhile (· = 0x20)⟩ with
    | some value => .asciiz (.ofName name) 0 (Text.trimEnding "\"" value)
    | none => .verbatim t

/-- A directive or an instruction. -/
def readWords (t : Text) : Line :=
  if t = "" then .blank
  else if t = ".data" then .data
  else if t = ".text" then .text
  else
    match t.split 0x20 with
    | [word, name] => if word = ".globl" then .globl (.ofName name) else instruction [word, name]
    | words => instruction words
where
  instruction (words : List Text) : Line := (Instr.read words).elim (.verbatim t) .instr

/-- The line that a text is. -/
def read (t : Text) : Line :=
  if t.bytes.head? = some 0x23 then readRemark t
  else
    match t.cut 0x3A with
    | (name, some rest) => readLabelled t name rest
    | (_, none) => readWords t

end Line

/-- The lines of a text, each of them ended. -/
def readText (t : Text) : List Line := t.lines.dropLast.map Line.read

example : readText "main:\nlw $t0 -8($fp)\nbeq $t0 $zero label3\nlabel3:   .asciiz \"a: b\"\n" =
    [.label .main, .instr (.load .t0 (-8)), .instr (.branchIfZero .t0 (.generated 3)),
      .asciiz (.generated 3) 0 "a: b"] := by
  decide +kernel

/-! ## Names and numbers -/

theorem signedValue_ofInt (n : Int) : signedValue (Text.ofInt n).bytes = n := by
  cases n with
  | ofNat m =>
    have hdigits : signedValue (Text.ofNat m).bytes = Text.digitsValue (Text.ofNat m).bytes := by
      unfold signedValue
      split
      · next ds hbytes =>
        have hminus : Text.isDigit 0x2D := Text.isDigit_of_mem_ofNat (n := m) (by simp [hbytes])
        exact absurd hminus (by decide)
      · rfl
    exact hdigits.trans (congrArg Int.ofNat (Text.digitsValue_ofNat m))
  | negSucc m =>
    rw [Text.bytes_ofInt_negSucc, signedValue, Text.digitsValue_ofNat]
    rfl

theorem Reg.ofName?_name {r : Reg} (h : r ∈ Reg.named) : ofName? r.name = some r := by
  have hall : ∀ r ∈ Reg.named, ofName? r.name = some r := by decide
  exact hall r h

theorem Op.ofName?_name {op : Op} (h : op ∈ Op.known) : ofName? op.name = some op := by
  have hall : ∀ op ∈ Op.known, ofName? op.name = some op := by decide
  exact hall op h

theorem Label.ofName_generated (n : Nat) : ofName (generated n).name = generated n := by
  have hdigits : (generated n).name.bytes.drop 5 = (Text.ofNat n).bytes := rfl
  rw [ofName, hdigits, Text.digitsValue_ofNat, if_pos rfl]

theorem Label.ofName_fixed {l : Label} (h : l ∈ fixedLabels) : ofName l.name = l := by
  have hall : ∀ l ∈ fixedLabels, ofName l.name = l := by decide
  exact hall l h

theorem slot?_slot (n : Int64) : slot? (Instr.words.slot n) = some n := by
  have hopening : 0x28 ∉ (Text.ofWord n).bytes := by
    intro hb
    rcases Text.mem_ofInt hb with hdigit | heq
    · exact absurd hdigit (by decide)
    · exact absurd heq (by decide)
  have hbytes : Instr.words.slot n = ⟨(Text.ofWord n).bytes ++ 0x28 :: (Text.ofString "$fp)").bytes⟩ := by
    have hbehind : (Text.ofString "(").bytes ++ (Reg.fp.name.bytes ++ (Text.ofString ")").bytes) =
        0x28 :: (Text.ofString "$fp)").bytes := by decide
    exact congrArg Text.mk (by simp [hbehind])
  have hcut : ((Instr.words.slot n).cut 0x28).1 = Text.ofWord n := by rw [hbytes, Text.cut_append hopening]
  rw [slot?, hcut, Text.ofWord, signedValue_ofInt, Int64.ofInt_toInt, if_pos rfl]

/-! ## Instructions -/

/-- Where an operation is known, its operands are looked at. -/
theorem Instr.read_cons {op : Op} (h : op ∈ Op.known) (operands : List Text) :
    Instr.read (op.name :: operands) = ofOperands op operands := by
  rw [read, Op.ofName?_name h]
  rfl

/-- An instruction is found again from its words. -/
theorem Instr.Shaped.read_words {i : Instr} (h : i.Shaped) {before after : List Line}
    (hl : (Line.instr i).Linked before after) : Instr.read i.words = some i := by
  cases i with
  | load r n | store r n =>
    rw [words, Instr.read_cons (by decide)]
    simp [ofOperands, Reg.ofName?_name h, slot?_slot]
  | loadImm r v =>
    rw [words, Instr.read_cons (by decide)]
    simp [ofOperands, Reg.ofName?_name h.1]
  | loadAddr r l =>
    have hlabel : Label.ofName l.name = l := by
      rcases hl with ⟨n, v, rfl, -⟩ | hfixed
      · exact Label.ofName_generated n
      · exact Label.ofName_fixed hfixed
    rw [words, Instr.read_cons (by decide)]
    simp [ofOperands, Reg.ofName?_name h, hlabel]
  | move d s => exact h.elim
  | op3 op d s t =>
    obtain ⟨hop, hd, hs, ht⟩ := h
    rw [words, Instr.read_cons (Op.known_of_forms hop)]
    cases op <;> simp [Op.forms] at hop <;>
      simp [ofOperands, Reg.ofName?_name hd, Reg.ofName?_name hs, Reg.ofName?_name ht]
  | op2 op s t =>
    obtain ⟨hop, hs, ht⟩ := h
    rw [words, Instr.read_cons (Op.known_of_forms hop)]
    cases op <;> simp [Op.forms] at hop <;> simp [ofOperands, Reg.ofName?_name hs, Reg.ofName?_name ht]
  | op1 op r =>
    obtain ⟨hop, hr⟩ := h
    rw [words, Instr.read_cons (Op.known_of_forms hop)]
    cases op <;> simp [Op.forms] at hop <;> simp [ofOperands, Reg.ofName?_name hr]
  | branchIfZero r l =>
    obtain ⟨n, rfl, -⟩ := hl
    rw [words, Instr.read_cons (by decide)]
    simp [ofOperands, Reg.ofName?_name h, Label.ofName_generated]
  | jump l =>
    obtain ⟨n, rfl, -⟩ := hl
    rw [words, Instr.read_cons (by decide)]
    simp [ofOperands, Label.ofName_generated]
  | syscall => rfl

/-! ## Lines -/

/-- A line without the spaces that line it up with others. -/
def Line.plain : Line → Line
  | asciiz l _ v => asciiz l 0 v
  | x => x

theorem Line.read_of_label {name rest : Text} (hname : isLabelName name) (hhead : name.bytes.head? ≠ some 0x23) :
    Line.read (name ++ ":" ++ rest) = readLabelled (name ++ ":" ++ rest) name rest := by
  have hcolon : 0x3A ∉ name.bytes := fun hb => absurd (isNameByte_of_mem hname hb) (by decide)
  have hbytes : name ++ ":" ++ rest = ⟨name.bytes ++ 0x3A :: rest.bytes⟩ := by
    have hone : (Text.ofString ":").bytes = [0x3A] := rfl
    exact congrArg Text.mk (by simp [hone])
  have hfirst : (name ++ ":" ++ rest).bytes.head? ≠ some 0x23 := by
    rw [hbytes, List.head?_append]
    cases hcase : name.bytes.head? with
    | none => simp
    | some b => simpa [hcase] using hhead
  have hcut : (name ++ ":" ++ rest).cut 0x3A = (name, some rest) := by rw [hbytes, Text.cut_append hcolon]
  rw [Line.read, if_neg hfirst, hcut]

theorem Line.read_label (n : Nat) : Line.read (Line.label (.generated n)).render = .label (.generated n) := by
  have hregular : (Label.generated n).Regular := .inl ⟨n, rfl⟩
  have hwhole : (Line.label (.generated n)).render = (Label.generated n).name ++ ":" ++ Text.empty :=
    congrArg Text.mk (List.append_nil _).symm
  rw [hwhole, Line.read_of_label hregular.isLabelName (by rw [head?_name_generated]; decide), readLabelled,
    if_pos (show Text.empty.isEmpty = true from rfl), Label.ofName_generated]

theorem Line.read_asciiz (n : Nat) (v : Text) :
    Line.read (Line.asciiz (.generated n) 0 v).render = .asciiz (.generated n) 0 v := by
  have hregular : (Label.generated n).Regular := .inl ⟨n, rfl⟩
  have hwhole : (Line.asciiz (.generated n) 0 v).render =
      (Label.generated n).name ++ ":" ++ (" " ++ (".asciiz \"" ++ (v ++ "\""))) := by
    have hspace : (Text.ofString " .asciiz \"").bytes = (Text.ofString " ").bytes ++ (Text.ofString ".asciiz \"").bytes := rfl
    exact congrArg Text.mk (by simp [Line.render.head, Text.replicate, hspace])
  have hvalue : (" " ++ (".asciiz \"" ++ (v ++ "\"")) : Text).bytes.dropWhile (· = 0x20) =
      (".asciiz \"" ++ (v ++ "\"") : Text).bytes := rfl
  rw [hwhole, Line.read_of_label hregular.isLabelName (by rw [head?_name_generated]; decide), readLabelled,
    if_neg (by rintro ⟨⟩), hvalue, Text.dropBeginning?_append]
  simp only [Text.trimEnding_append, Label.ofName_generated]

theorem Line.read_instr {i : Instr} (hwords : ∀ t ∈ i.words, ∀ b ∈ t.bytes, isOperandByte b)
    (hread : Instr.read i.words = some i) : Line.read i.render = .instr i := by
  have hbytes : ∀ b ∈ i.render.bytes, isCodeByte b := by
    intro b hb
    rcases Text.mem_join hb with hsep | ⟨t, ht, hbt⟩
    · have hspace : (Text.ofString " ").bytes.all isCodeByte := by decide
      exact List.all_eq_true.1 hspace b hsep
    · rw [isCodeByte, hwords t ht b hbt, Bool.true_or]
  -- No byte of an instruction begins a remark, ends a label or belongs to a directive.
  have hhead : i.render.bytes.head? ≠ some 0x23 := fun hb => absurd (hbytes _ (List.mem_of_head? hb)) (by decide)
  have hcut : i.render.cut 0x3A = (i.render, none) :=
    Text.cut_of_not_mem fun hb => absurd (hbytes _ hb) (by decide)
  have hsplit : i.render.split 0x20 = i.words :=
    Text.split_join_of_not_mem (by cases i <;> exact List.cons_ne_nil _ _) fun t ht hb =>
      absurd (hwords t ht _ hb) (by decide)
  have hempty : i.render ≠ "" := by
    intro heq
    rw [← hsplit, heq] at hread
    cases hread
  have hdot {t : Text} (ht : 0x2E ∈ t.bytes) : i.render ≠ t := fun heq => absurd (hbytes _ (heq ▸ ht)) (by decide)
  rw [Line.read, if_neg hhead, hcut]
  simp only [readWords, if_neg hempty, if_neg (hdot (t := ".data") (by decide)), if_neg (hdot (t := ".text") (by decide)),
    hsplit]
  split
  · next word name hpair =>
    have hword : word ≠ ".globl" := fun heq => absurd (hwords word (by simp [hpair]) 0x2E (by rw [heq]; decide)) (by decide)
    rw [if_neg hword, readWords.instruction, ← hpair, hread]
    rfl
  · rw [readWords.instruction, hread]
    rfl

/-- A regular line is found again from its text. -/
theorem Line.Regular.read_render {x : Line} (h : x.Regular) : Line.read x.render = x := by
  cases x with
  | blank | data | text => decide +kernel
  | comment t =>
    have hremarks : ∀ t ∈ remarks, Line.read (Line.comment t).render = .comment t := by decide +kernel
    exact hremarks t h.shaped
  | label l =>
    obtain ⟨n, rfl⟩ := h.numbered l rfl
    exact Line.read_label n
  | asciiz l column v =>
    obtain ⟨rfl, -⟩ := h.shaped
    obtain ⟨n, rfl⟩ := h.numbered l rfl
    exact Line.read_asciiz n v
  | instr i =>
    obtain ⟨before, after, hl⟩ := h.linked
    obtain ⟨forms, hforms, hfits⟩ := Instr.Shaped.fits h.shaped hl
    refine Line.read_instr ?_ (Instr.Shaped.read_words h.shaped hl)
    rw [Instr.words_eq]
    exact isOperandByte_of_words hforms hfits
  | banner t | globl l | verbatim t => exact h.shaped.elim

theorem Line.Regular.plain_eq {x : Line} (h : x.Regular) : x.plain = x := by
  cases x with
  | asciiz l column v =>
    obtain ⟨rfl, -⟩ := h.shaped
    rfl
  | _ => rfl

/-- The fixed lines are found again as well, without the spaces between a label and its string. -/
theorem read_fixed : ∀ x ∈ prolog ++ postlog, Line.read x.render = x.plain := by decide +kernel

/-! ## Runs -/

section

variable (o : Overflow) (code : List Line)

theorem target?_plain (l : Label) : target? (code.map Line.plain) l = target? code l := by
  have hlabel (x : Line) : (x.plain = .label l) = (x = .label l) := by cases x <;> simp [Line.plain]
  rw [target?, target?, List.findIdx?_map]
  simp only [Function.comp_def, hlabel]

theorem constant?_plain (l : Label) : constant? (code.map Line.plain) l = constant? code l := by
  have hconstant (x : Line) : x.plain.constant? l = x.constant? l := by cases x <;> rfl
  rw [constant?, constant?, List.findSome?_map]
  simp only [Function.comp_def, hconstant]

theorem exec_plain (d : Data) (i : Instr) : i.exec o (code.map Line.plain) d = i.exec o code d := by
  have hserve (s : Service) : s.serve (code.map Line.plain) d = s.serve code d := by
    cases s <;> simp only [Service.serve, constant?_plain]
  unfold Instr.exec
  simp only [constant?_plain, hserve]

/-- A step does not see spaces. -/
theorem step_plain (m : Machine) : step o (code.map Line.plain) m = step o code m := by
  cases m with
  | stopped d => rfl
  | running pc d =>
    simp only [step, List.getElem?_map]
    cases code[pc]? with
    | none => rfl
    | some x => cases x <;> simp only [Option.map_some, Line.plain, exec_plain, target?_plain]

theorem prints_plain_iff (d : Data) (rest : List Word) (output : Text) :
    Prints o (code.map Line.plain) d rest output ↔ Prints o code d rest output := by
  have hstep : step o (code.map Line.plain) = step o code := funext (step_plain o code)
  simp only [Prints, Reaches, target?_plain, hstep]

end

end Mips

/-- The text that a translation of a source writes out is read as the lines of its lowering. -/
theorem readText_translate (settings : Settings) (file : Int) (source : List Char) (eofFile eofLine eofColumn : Int) :
    let tokens := (scan (settings.feature .comments) file source).tokens
    let t := translate settings ⟨tokens, eofFile, eofLine, eofColumn⟩
    readText t.output.text =
      (lower settings.wordSize ⟨tokens, eofFile, eofLine, eofColumn⟩).lines.map Line.plain := by
  intro tokens t
  obtain ⟨body, hlines, hregular, -⟩ :=
    exists_body_scanned (settings.feature .comments) file source eofFile eofLine eofColumn settings.wordSize
  have hunbroken := unbroken_program fun x hx => (hregular x hx).legible
  have hread : ∀ x ∈ prolog ++ (body ++ postlog), Line.read x.render = x.plain := by
    simp only [List.forall_mem_append]
    refine ⟨fun x hx => read_fixed x (List.mem_append_left _ hx), fun x hx => ?_,
      fun x hx => read_fixed x (List.mem_append_right _ hx)⟩
    rw [(hregular x hx).read_render, (hregular x hx).plain_eq]
  have htext : t.output.text = render (prolog ++ (body ++ postlog)) := by
    rw [← hlines, ← (translate_agrees settings _).lines]
    rfl
  rw [htext, readText, render, Text.lines_unlines (List.forall_mem_map.2 hunbroken), List.dropLast_concat, List.map_map,
    hlines]
  exact List.map_congr_left hread

/-- A run of what a translation writes out is a run of the lines of its lowering. -/
theorem prints_readText_iff (settings : Settings) (file : Int) (source : List Char) (eofFile eofLine eofColumn : Int)
    (o : Overflow) (d : Data) (rest : List Word) (output : Text) :
    let tokens := (scan (settings.feature .comments) file source).tokens
    Prints o (readText (translate settings ⟨tokens, eofFile, eofLine, eofColumn⟩).output.text) d rest output ↔
      Prints o (lower settings.wordSize ⟨tokens, eofFile, eofLine, eofColumn⟩).lines d rest output := by
  intro tokens
  rw [readText_translate, prints_plain_iff]

/-- Where the characters of a source spell a complete plain program that is translated without a diagnostic, the text that
is written out, started at `main`, prints what a run of the program prints and reads what it reads. -/
theorem written_text_prints {p : Program} (hv : p.Valid) (hc : p.Complete) (hp : p.Plain) (hn : p.slots < 2 ^ 32)
    {settings : Settings} (hsize : settings.wordSize = 4) {file : Int} {source : List Char}
    (hscan : (scan (settings.feature .comments) file source).tokens = p.tokens)
    (hsilent : (translate settings { tokens := p.tokens }).work.diagnostics = #[]) {o : Overflow} {regs : Reg → Content}
    (hsp : regs .sp = .base) (hi lo : Word) (frame : Int64 → Word) {input : List Word} {w : World}
    (hrun : p.Runs o ⟨(lower 4 { tokens := p.tokens }).table.load frame, input, ""⟩ w) :
    Prints o (readText (translate settings { tokens := p.tokens }).output.text) (.start regs hi lo frame input) w.input
      ("Program Start\n" ++ w.output ++ "Program End\n") := by
  have hdiagnostics : (lower 4 { tokens := p.tokens }).diagnostics = [] := by
    rw [← hsize, ← (translate_agrees settings _).diagnostics, hsilent]
  have hread := prints_readText_iff settings file source 0 0 0 o (.start regs hi lo frame input) w.input
    ("Program Start\n" ++ w.output ++ "Program End\n")
  dsimp only at hread
  rw [hscan, hsize, lines_lower hv] at hread
  rw [table_lower hv] at hrun
  exact hread.2 ((sound_of_silent hv hc hdiagnostics hp hn).prints hsp hi lo frame hrun)

end AlgolMips
