import AlgolMips.Lowering
import AlgolMips.Proofs.Linking
import AlgolMips.Proofs.Texts

/-!
# Labels

Lines are written as text, and an assembler finds labels in the text: a line defines the name that it begins with if a
colon follows, and the last word of a branch, a jump or a load of an address is its target. For the lines of a lowering
this reading gives back the labels of the lines themselves (`Line.Linked.definedName?_render`,
`Line.Linked.targetName?_render`), since names consist of letters and digits and different labels have different names.

So whatever the tokens are, no label is written twice and every target is there (`labels_defined_once`).
-/

namespace AlgolMips

open Gen Mips

/-! ## Written lines -/

namespace Mips

/-- A byte of the name of a label: a digit or a letter. -/
def isNameByte (b : UInt8) : Bool := Text.isDigit b || (0x41 ≤ b && b ≤ 0x5A) || (0x61 ≤ b && b ≤ 0x7A)

/-- Whether a text can be the name of a label. -/
def isLabelName (t : Text) : Bool := !t.isEmpty && t.bytes.all isNameByte

/-- The label that a written line defines: the name that it begins with, if a colon follows. -/
def definedName? (line : Text) : Option Text :=
  match line.cut 0x3A with
  | (name, some _) => if isLabelName name then some name else none
  | (_, none) => none

/-- The part of a text behind its last space. -/
def lastWord (t : Text) : Text := ⟨(t.bytes.reverse.takeWhile (· != 0x20)).reverse⟩

/-- The target of a written line with some operation: its last word, where its first word is the operation. -/
def targetName? (op : Op) (line : Text) : Option Text :=
  match line.cut 0x20 with
  | (first, some operands) => if first = op.name then some (lastWord operands) else none
  | (_, none) => none

example : definedName? "label7: .asciiz \"a:b\"" = some "label7" := by decide

example : targetName? .beq "beq $t0 $zero label3" = some "label3" := by decide

theorem lastWord_append (front back : List UInt8) : lastWord ⟨front ++ 0x20 :: back⟩ = lastWord ⟨back⟩ := by
  simp only [lastWord, List.reverse_append, List.reverse_cons, List.append_assoc, List.takeWhile_append]
  split
  · next hall => simp [(List.takeWhile_prefix _).eq_of_length hall]
  · rfl

/-- The last of some words is the last of what they make up together. -/
theorem lastWord_join (ws : List Text) {w : Text} (h : 0x20 ∉ w.bytes) : lastWord (Text.join " " (ws ++ [w])) = w := by
  have hspace : (Text.ofString " ").bytes = [0x20] := by decide
  induction ws with
  | nil =>
    have hall : ∀ b ∈ w.bytes.reverse, (b != 0x20) = true :=
      fun b hb => bne_iff_ne.2 fun heq => h (heq ▸ List.mem_reverse.1 hb)
    simp [Text.join, lastWord, List.takeWhile_eq_self_iff.2 hall]
  | cons t ws ih =>
    have hjoin : Text.join " " (t :: ws ++ [w]) = ⟨t.bytes ++ 0x20 :: (Text.join " " (ws ++ [w])).bytes⟩ := by
      cases ws <;> exact congrArg Text.mk (by simp [Text.join, hspace])
    rw [hjoin, lastWord_append]
    exact ih

theorem isNameByte_of_mem {t : Text} (h : isLabelName t) {b : UInt8} (hb : b ∈ t.bytes) : isNameByte b := by
  simp only [isLabelName, Bool.and_eq_true, List.all_eq_true] at h
  exact h.2 b hb

theorem definedName?_of_bytes {line t : Text} {rest : List UInt8} (hline : line.bytes = t.bytes ++ 0x3A :: rest)
    (h : isLabelName t) : definedName? line = some t := by
  have hcolon : 0x3A ∉ t.bytes := fun hmem => absurd (isNameByte_of_mem h hmem) (by decide)
  obtain ⟨bytes⟩ := line
  subst hline
  simp [definedName?, Text.cut_append hcolon, h]

/-- A byte that belongs to no name, before any colon, keeps a line from defining a label. -/
theorem definedName?_eq_none {line : Text} {front rest : List UInt8} {b : UInt8} (hline : line.bytes = front ++ b :: rest)
    (hfront : 0x3A ∉ front) (hb : b ≠ 0x3A) (hname : isNameByte b = false) : definedName? line = none := by
  have hall : ∀ a ∈ front, (a != 0x3A) = true := fun a ha => bne_iff_ne.2 fun heq => hfront (heq ▸ ha)
  have hfst := Text.cut_fst 0x3A line
  simp only [hline, List.takeWhile_append_of_pos hall, List.takeWhile_cons, bne_iff_ne.2 hb, if_true] at hfst
  unfold definedName?
  split
  · next name behind hcut =>
    rw [hcut] at hfst
    simp [show name = _ from hfst, isLabelName, hname]
  · rfl

/-- A line with a target is written as its operation and, behind a space, operands that the target ends. -/
theorem bytes_of_targetName? {op : Op} {line name : Text} (h : targetName? op line = some name) :
    ∃ operands : Text, line.bytes = op.name.bytes ++ 0x20 :: operands.bytes ∧ name = lastWord operands := by
  unfold targetName? at h
  split at h
  · next first operands hcut =>
    split at h
    · next hop =>
      cases h
      exact ⟨operands, hop ▸ Text.bytes_of_cut hcut, rfl⟩
    · cases h
  · cases h

/-! ### Names of labels -/

/-- The labels that are not numbered: the start and those of the fixed strings. -/
def namedLabels : List Label := .main :: fixedLabels

/-- The labels of a program. -/
def Label.Regular (l : Label) : Prop := (∃ n, l = .generated n) ∨ l ∈ namedLabels

theorem head?_name_generated (n : Nat) : (Label.generated n).name.bytes.head? = some 0x6C := by
  have hlabel : (Text.ofString "label").bytes = [0x6C, 0x61, 0x62, 0x65, 0x6C] := by decide
  simp [Label.name, hlabel]

theorem Label.Regular.isLabelName {l : Label} (h : l.Regular) : isLabelName l.name := by
  rcases h with ⟨n, rfl⟩ | hnamed
  · have hword : (Text.ofString "label").bytes ≠ [] ∧ (Text.ofString "label").bytes.all isNameByte := by decide
    have hdigits : (Text.ofNat n).bytes.all isNameByte :=
      List.all_eq_true.2 fun b hb => by simp [isNameByte, Text.isDigit_of_mem_ofNat hb]
    simp [Mips.isLabelName, Text.isEmpty, Label.name, List.all_append, hword, hdigits]
  · have hfixed : ∀ l ∈ namedLabels, Mips.isLabelName l.name := by decide
    exact hfixed l hnamed

/-- Different labels of a program have different names. -/
theorem Label.Regular.eq_of_name {l l' : Label} (h : l.Regular) (h' : l'.Regular) (heq : l.name = l'.name) :
    l = l' := by
  -- no fixed name begins like a numbered one
  have hapart : ∀ l ∈ namedLabels, l = .named l.name ∧ l.name.bytes.head? ≠ some 0x6C := by decide
  rcases h with ⟨n, rfl⟩ | hnamed <;> rcases h' with ⟨n', rfl⟩ | hnamed'
  · have hbytes := congrArg Text.bytes heq
    simp only [Label.name, Text.bytes_append, List.append_cancel_left_eq] at hbytes
    rw [Text.ofNat_injective (congrArg Text.mk hbytes)]
  · exact absurd (heq ▸ head?_name_generated n) (hapart l' hnamed').2
  · exact absurd (heq ▸ head?_name_generated n') (hapart l hnamed).2
  · rw [(hapart l hnamed).1, (hapart l' hnamed').1, heq]

/-! ### Lines as they are written -/

theorem Line.Linked.regular {before after : List Line} {x : Line} {l : Label} (h : x.Linked before after)
    (hl : x.defines? = some l) : l.Regular := by
  cases x with
  | label l' =>
    cases hl
    exact h.elim (fun hmain => .inr (hmain ▸ List.mem_cons_self)) .inl
  | asciiz l' column v =>
    cases hl
    exact h.elim .inl fun hfixed => .inr (List.mem_cons_of_mem _ hfixed)
  | _ => cases hl

/-- The operation of an instruction. -/
def Instr.op : Instr → Op
  | load _ _ => .lw
  | store _ _ => .sw
  | loadImm _ _ => .li
  | loadAddr _ _ => .la
  | move _ _ => .move
  | op3 op _ _ _ => op
  | op2 op _ _ => op
  | op1 op _ => op
  | branchIfZero _ _ => .beq
  | jump _ => .j
  | syscall => .syscall

/-- An instruction is written as its operation, alone or with its operands behind a space. -/
theorem Instr.bytes_render (i : Instr) :
    i = .syscall ∨ i.render.bytes = i.op.name.bytes ++ 0x20 :: (Text.join " " i.words.tail).bytes := by
  have hspace : (Text.ofString " ").bytes = [0x20] := by decide
  cases i <;> simp [Instr.render, Instr.words, Text.join, Instr.op, hspace]

theorem Line.Linked.known {before after : List Line} {i : Instr} (h : (Line.instr i).Linked before after) :
    i.op ∈ Op.known := by
  have hregisters : ∀ op ∈ Op.onRegisters, op ∈ Op.known := by decide
  cases i with
  | op3 op d s t => exact hregisters op h
  | op2 op s t => exact hregisters op h
  | op1 op r => exact hregisters op h
  | _ => simp [Instr.op, Op.known]

/-- A line between others defines the label that it is written with. -/
theorem Line.Linked.definedName?_render {before after : List Line} {x : Line} (h : x.Linked before after) :
    definedName? x.render = x.defines?.map Label.name := by
  have hcolon : (Text.ofString ":").bytes = [0x3A] := by decide
  cases x with
  | blank => decide
  | comment t => exact @definedName?_eq_none _ [] _ _ rfl (by simp) (by decide) (by decide)
  | banner t => exact @definedName?_eq_none _ [] _ _ rfl (by simp) (by decide) (by decide)
  | label l =>
    exact definedName?_of_bytes (by simp [Line.render, hcolon]; rfl) (h.regular rfl).isLabelName
  | data => decide
  | text => decide
  | globl l => exact @definedName?_eq_none _ [] _ _ rfl (by simp) (by decide) (by decide)
  | asciiz l column v =>
    exact definedName?_of_bytes (by simp [Line.render, Line.render.head, hcolon]; rfl) (h.regular rfl).isLabelName
  | instr i =>
    have hnames : ∀ op ∈ Op.known, 0x3A ∉ op.name.bytes := by decide
    rcases i.bytes_render with rfl | hrest
    · decide
    · exact definedName?_eq_none hrest (hnames _ h.known) (by decide) (by decide)
  | verbatim t => exact h.elim

/-- The operations with a label for a target. -/
def Op.targeting : List Op := [.beq, .j, .la]

/-- The label that a line refers to by some operation. -/
def Line.target? : Op → Line → Option Label
  | .beq, instr (.branchIfZero _ l) => some l
  | .j, instr (.jump l) => some l
  | .la, instr (.loadAddr _ l) => some l
  | _, _ => none

/-- A line that begins with a label and a colon has no target. -/
theorem targetName?_of_colon {op : Op} (hop : op ∈ Op.targeting) {line t : Text} {rest : List UInt8}
    (hline : line.bytes = t.bytes ++ 0x3A :: rest) (ht : isLabelName t) : targetName? op line = none := by
  have hops : ∀ op ∈ Op.targeting, op.name.bytes.all (fun b => b != 0x20 && b != 0x3A) := by decide
  have hname : ∀ b ∈ t.bytes, (b != 0x20 && b != 0x3A) = true := by
    intro b hb
    rw [Bool.and_eq_true, bne_iff_ne, bne_iff_ne]
    constructor <;>
    · rintro rfl
      exact absurd (isNameByte_of_mem ht hb) (by decide)
  rw [Option.eq_none_iff_forall_ne_some]
  intro name h
  obtain ⟨operands, hbytes, -⟩ := bytes_of_targetName? h
  -- what stands behind the first word or name is a colon on one side and a space on the other
  have hbehind := congrArg (List.dropWhile fun b => b != 0x20 && b != 0x3A) (hline.symm.trans hbytes)
  rw [List.dropWhile_append_of_pos hname, List.dropWhile_append_of_pos (List.all_eq_true.1 (hops op hop))] at hbehind
  simp at hbehind

/-- A line that begins with another byte than the operation has no target. -/
theorem targetName?_of_head {op : Op} {line : Text} (hne : op.name.bytes ≠ [])
    (hhead : line.bytes.head? ≠ op.name.bytes.head?) : targetName? op line = none := by
  rw [Option.eq_none_iff_forall_ne_some]
  intro name h
  obtain ⟨operands, hbytes, -⟩ := bytes_of_targetName? h
  rw [hbytes, List.head?_append_of_ne_nil _ hne] at hhead
  exact hhead rfl

theorem Line.Linked.targetName?_eq_none {before after : List Line} {x : Line} (h : x.Linked before after)
    (hx : ∀ i, x ≠ .instr i) {op : Op} (hop : op ∈ Op.targeting) : targetName? op x.render = none := by
  have hcolon : (Text.ofString ":").bytes = [0x3A] := by decide
  have hops : ∀ op ∈ Op.targeting, op.name.bytes ≠ [] ∧ op.name.bytes.head? ∉ [none, some 0x23, some 0x2E] := by decide
  have hapart : ∀ b ∈ [none, some 0x23, some 0x2E], x.render.bytes.head? = b → targetName? op x.render = none := by
    intro b hb heq
    exact targetName?_of_head (hops op hop).1 fun hsame => (hops op hop).2 (hsame ▸ heq ▸ hb)
  cases x with
  | blank => exact hapart none (by decide) rfl
  | comment t | banner t => exact hapart (some 0x23) (by decide) rfl
  | data | text => exact hapart (some 0x2E) (by decide) rfl
  | globl l => exact hapart (some 0x2E) (by decide) rfl
  | label l => exact targetName?_of_colon hop (by simp [Line.render, hcolon]; rfl) (h.regular rfl).isLabelName
  | asciiz l column v =>
    exact targetName?_of_colon hop (by simp [Line.render, Line.render.head, hcolon]; rfl) (h.regular rfl).isLabelName
  | instr i => exact absurd rfl (hx i)
  | verbatim t => exact h.elim

theorem Line.target?_of_ne {i : Instr} {op : Op} (h : i.op ≠ op) : (Line.instr i).target? op = none := by
  unfold Line.target?
  split <;> simp_all [Instr.op]

/-- A branch, a jump and the load of an address are the instructions with a target. -/
theorem Line.eq_of_target? {x : Line} {op : Op} {l : Label} (h : x.target? op = some l) :
    (op = .beq ∧ ∃ r, x = .instr (.branchIfZero r l)) ∨ (op = .j ∧ x = .instr (.jump l)) ∨
      (op = .la ∧ ∃ r, x = .instr (.loadAddr r l)) := by
  unfold Line.target? at h
  split at h <;> cases h
  · exact .inl ⟨rfl, _, rfl⟩
  · exact .inr (.inl ⟨rfl, rfl⟩)
  · exact .inr (.inr ⟨rfl, _, rfl⟩)

theorem Line.Linked.regular_target {before after : List Line} {x : Line} (h : x.Linked before after) {op : Op}
    {l : Label} (hl : x.target? op = some l) : l.Regular := by
  rcases Line.eq_of_target? hl with ⟨-, r, rfl⟩ | ⟨-, rfl⟩ | ⟨-, r, rfl⟩
  · obtain ⟨n, hn, -⟩ := h
    exact .inl ⟨n, hn⟩
  · obtain ⟨n, hn, -⟩ := h
    exact .inl ⟨n, hn⟩
  · rcases h with ⟨n, v, hn, -⟩ | hfixed
    · exact .inl ⟨n, hn⟩
    · exact .inr (List.mem_cons_of_mem _ hfixed)

/-- The target in a written instruction is its label. -/
theorem Line.Linked.targetName?_render {before after : List Line} {i : Instr} (h : (Line.instr i).Linked before after)
    {op : Op} (hop : op ∈ Op.targeting) : targetName? op i.render = ((Line.instr i).target? op).map Label.name := by
  have hnames : ∀ a ∈ Op.known, 0x20 ∉ a.name.bytes ∧ ∀ b ∈ Op.targeting, a.name = b.name → a = b := by decide +kernel
  have htargeting : ∀ op ∈ Op.targeting, op ∉ Op.onRegisters := by decide
  have hsyscall : ∀ op ∈ Op.targeting, Op.syscall ≠ op ∧ targetName? op Instr.syscall.render = none := by decide
  rcases i.bytes_render with rfl | hbytes
  · rw [(hsyscall op hop).2, @Line.target?_of_ne .syscall op (hsyscall op hop).1]
    rfl
  have hcut : i.render.cut 0x20 = (i.op.name, some (Text.join " " i.words.tail)) := by
    rw [← Text.cut_append (hnames _ h.known).1, ← hbytes]
  unfold targetName?
  rw [hcut]
  by_cases hsame : i.op = op
  · have hblank : ∀ l, (Line.instr i).target? op = some l → 0x20 ∉ l.name.bytes := fun l hl hmem =>
      absurd (isNameByte_of_mem (h.regular_target hl).isLabelName hmem) (by decide)
    have htarget : ∃ l, (Line.instr i).target? op = some l ∧ lastWord (Text.join " " i.words.tail) = l.name := by
      subst hsame
      cases i with
      | loadAddr r l => exact ⟨l, rfl, lastWord_join [r.name] (hblank l rfl)⟩
      | branchIfZero r l => exact ⟨l, rfl, lastWord_join [r.name, Reg.zero.name] (hblank l rfl)⟩
      | jump l => exact ⟨l, rfl, lastWord_join [] (hblank l rfl)⟩
      | op3 op d s t => exact absurd h (htargeting op hop)
      | op2 op s t => exact absurd h (htargeting op hop)
      | op1 op r => exact absurd h (htargeting op hop)
      | _ => simp [Instr.op, Op.targeting] at hop
    obtain ⟨l, hl, hlast⟩ := htarget
    simp [hsame, hl, hlast]
  · have hdiff : i.op.name ≠ op.name := fun heq => hsame ((hnames _ h.known).2 op hop heq)
    simp [hdiff, Line.target?_of_ne hsame]

theorem Line.Linked.exists_target {before after : List Line} {x : Line} (h : x.Linked before after) {op : Op}
    (hop : op ∈ Op.targeting) {name : Text} (hn : targetName? op x.render = some name) :
    ∃ l, x.target? op = some l ∧ l.name = name := by
  by_cases hx : ∃ i, x = .instr i
  · obtain ⟨i, rfl⟩ := hx
    rw [Line.render, h.targetName?_render hop] at hn
    exact Option.map_eq_some_iff.1 hn
  · rw [h.targetName?_eq_none (fun i hi => hx ⟨i, hi⟩) hop] at hn
    cases hn

/-- The line with a number defines a label. -/
def DefinedAt (lines : List Text) (i : Nat) (name : Text) : Prop := lines[i]?.bind definedName? = some name

/-- The line with a number has a target for some operation. -/
def TargetAt (op : Op) (lines : List Text) (i : Nat) (name : Text) : Prop := lines[i]?.bind (targetName? op) = some name

variable {code : List Line}

theorem Linked.definedAt_iff (h : Linked [] code []) {i : Nat} {name : Text} :
    DefinedAt (code.map Line.render) i name ↔ ∃ x l, code[i]? = some x ∧ x.defines? = some l ∧ l.name = name := by
  rw [DefinedAt, List.getElem?_map]
  cases hx : code[i]? with
  | none => simp
  | some x =>
    have hlinked := h.getElem? hx
    simp [hlinked.definedName?_render]

theorem Linked.exists_of_targetAt (h : Linked [] code []) {op : Op} (hop : op ∈ Op.targeting) {i : Nat} {name : Text}
    (ht : TargetAt op (code.map Line.render) i name) :
    ∃ x l, code[i]? = some x ∧ x.target? op = some l ∧ l.name = name := by
  rw [TargetAt, List.getElem?_map] at ht
  cases hx : code[i]? with
  | none => simp [hx] at ht
  | some x =>
    obtain ⟨l, hl, hname⟩ := (h.getElem? hx).exists_target hop (by simpa [hx] using ht)
    exact ⟨x, l, rfl, hl, hname⟩

/-- Two lines that are written with one name define one label, and are therefore the same. -/
theorem Linked.eq_of_definedAt (h : Linked [] code []) (hu : Unambiguous code) {i j : Nat} {name : Text}
    (hi : DefinedAt (code.map Line.render) i name) (hj : DefinedAt (code.map Line.render) j name) : i = j := by
  obtain ⟨x, l, hx, hl, hname⟩ := h.definedAt_iff.1 hi
  obtain ⟨y, l', hy, hl', hname'⟩ := h.definedAt_iff.1 hj
  have hregular : l.Regular := (h.getElem? hx).regular hl
  have hsame : l = l' := hregular.eq_of_name ((h.getElem? hy).regular hl') (hname.trans hname'.symm)
  exact hu.eq_of_defines hx hy hl (hsame ▸ hl')

theorem Linked.definedAt_of_mem_drop (h : Linked [] code []) {i : Nat} {x : Line} {l : Label}
    (hx : x ∈ code.drop i) (hl : x.defines? = some l) :
    ∃ k, i ≤ k ∧ DefinedAt (code.map Line.render) k l.name := by
  obtain ⟨k, hk⟩ := List.getElem?_of_mem hx
  rw [List.getElem?_drop] at hk
  exact ⟨i + k, Nat.le_add_right i k, h.definedAt_iff.2 ⟨x, l, hk, hl, rfl⟩⟩

theorem Linked.definedAt_of_mem_take (h : Linked [] code []) {i : Nat} {x : Line} {l : Label}
    (hx : x ∈ code.take i) (hl : x.defines? = some l) :
    ∃ k, k < i ∧ DefinedAt (code.map Line.render) k l.name := by
  obtain ⟨k, hk⟩ := List.getElem?_of_mem hx
  rw [List.getElem?_take] at hk
  split at hk
  · next hlt => exact ⟨k, hlt, h.definedAt_iff.2 ⟨x, l, hk, hl, rfl⟩⟩
  · cases hk

end Mips

/-! ## Whole programs -/

theorem Program.links_body (p : Program) {s : GenState} {before : List Line} (h : s.current.Placed before) :
    p.body.Links s before := by
  cases p with
  | bare stop => exact .skip rfl (links_expect h)
  | block opening inside closing stop =>
    have hblock : (Gen.block closing inside.lower).Links s before := links_block inside.links_lower h
    exact hblock.bind (links_expect hblock.2)

theorem linked_prolog (after : List Line) : Linked [] prolog after := by
  have hfixed : Label.programStart ∈ fixedLabels := by decide
  simp [prolog, call, callCode, Line.Linked, hfixed]

theorem linked_postlog (before : List Line) : Linked before postlog [] := by
  have hfixed : ∀ p ∈ fixedStrings, p.1 ∈ fixedLabels := by decide
  have hend : Label.programEnd ∈ fixedLabels := by decide
  simp only [postlog, linked_append]
  refine ⟨?_, linked_of_free ?_ _ _⟩
  · simp [call, callCode, Line.Linked, hend]
  · simp only [List.mem_map, forall_exists_index, and_imp, forall_apply_eq_imp_iff₂]
    exact fun p hp _ _ => .inr (hfixed p hp)

/-- Every program of some tokens is linked, from a state without a string constant. -/
theorem Program.linked_lower (p : Program) (next : Token) (wordSize : Int64) :
    Linked [] ((p.lower next).lines { frame := { wordSize } }) [] := by
  rw [Program.lines_lower_eq]
  have hbody : p.body.Links { frame := { wordSize } } prolog := p.links_body nofun
  simp only [linked_append]
  exact ⟨linked_prolog _, hbody.1 _, linked_postlog _⟩

theorem Program.unambiguous_lower (p : Program) (next : Token) (s : GenState) :
    Unambiguous ((p.lower next).lines s) := by
  rw [Program.lines_lower_eq]
  exact (p.lays_body s).unambiguous

/-- Every fixed label is defined in the postlog. -/
theorem Program.definedAt_fixed (p : Program) (next : Token) (wordSize : Int64) {l : Label} (hl : l ∈ fixedLabels) :
    ∃ k, DefinedAt (((p.lower next).lines { frame := { wordSize } }).map Line.render) k l.name := by
  have hpostlog : ∀ l ∈ fixedLabels, ∃ x ∈ postlog, x.defines? = some l := by decide
  obtain ⟨x, hx, hdefines⟩ := hpostlog l hl
  have hmem : x ∈ ((p.lower next).lines { frame := { wordSize } }).drop 0 := by
    rw [List.drop_zero, Program.lines_lower_eq]
    exact List.mem_append_right _ (List.mem_append_right _ hx)
  obtain ⟨k, -, hk⟩ := (p.linked_lower next wordSize).definedAt_of_mem_drop hmem hdefines
  exact ⟨k, hk⟩

/-- In the lines of any tokens, no two lines define the same label, and every target is defined: that of a branch is a
numbered label of a later line, that of a jump one of an earlier line, and an address is that of a numbered label of an
earlier line or of a fixed string. -/
theorem labels_defined_once (wordSize : Int64) (source : TokenSource) :
    let lines := (lower wordSize source).lines.map Line.render
    (∀ i j name, DefinedAt lines i name → DefinedAt lines j name → i = j) ∧
    (∀ i name, TargetAt .beq lines i name →
      ∃ n k, name = (Label.generated n).name ∧ i < k ∧ DefinedAt lines k name) ∧
    (∀ i name, TargetAt .j lines i name →
      ∃ n k, name = (Label.generated n).name ∧ k < i ∧ DefinedAt lines k name) ∧
    (∀ i name, TargetAt .la lines i name →
      (∃ n k, name = (Label.generated n).name ∧ k < i ∧ DefinedAt lines k name) ∨
      (∃ l k, l ∈ fixedLabels ∧ name = l.name ∧ DefinedAt lines k name)) := by
  have hlinked : Linked [] (lower wordSize source).lines [] := source.parse.1.linked_lower _ wordSize
  have hunique : Unambiguous (lower wordSize source).lines := source.parse.1.unambiguous_lower _ _
  refine ⟨fun i j name hi hj => hlinked.eq_of_definedAt hunique hi hj, fun i name ht => ?_, fun i name ht => ?_,
    fun i name ht => ?_⟩ <;>
  obtain ⟨x, l, hx, hl, rfl⟩ := hlinked.exists_of_targetAt (by decide) ht <;>
  have hline := hlinked.getElem? hx <;>
  rcases Line.eq_of_target? hl with ⟨hop, r, rfl⟩ | ⟨hop, rfl⟩ | ⟨hop, r, rfl⟩ <;>
  cases hop
  · obtain ⟨n, rfl, hmem⟩ := hline
    obtain ⟨k, hk, hdefined⟩ := hlinked.definedAt_of_mem_drop (by simpa using hmem) rfl
    exact ⟨n, k, rfl, hk, hdefined⟩
  · obtain ⟨n, rfl, hmem⟩ := hline
    obtain ⟨k, hk, hdefined⟩ := hlinked.definedAt_of_mem_take (by simpa using hmem) rfl
    exact ⟨n, k, rfl, hk, hdefined⟩
  · rcases hline with ⟨n, v, rfl, hmem⟩ | hfixed
    · obtain ⟨k, hk, hdefined⟩ := hlinked.definedAt_of_mem_take (by simpa using hmem) rfl
      exact .inl ⟨n, k, rfl, hk, hdefined⟩
    · obtain ⟨k, hk⟩ := source.parse.1.definedAt_fixed _ wordSize hfixed
      exact .inr ⟨l, k, hfixed, rfl, hk⟩

end AlgolMips
