import AlgolMips.Proofs.Semantics
import Mathlib.Data.List.Nodup

/-!
# Lines that can be assembled

An assembler takes lines whose instructions and marks stand in the text section and whose constants stand in the data
section, with no label defined twice, every label that is used defined, and every immediate value a numeral.

A lowering stays in the text section and defines every label that it takes exactly once and no other (`Laid`), whatever
the program is. The labels that the code of a well-typed program uses are defined by it, or are those of the fixed
strings.
-/

namespace AlgolMips

open Gen Mips

namespace Mips

/-! ## Assembly -/

/-- The sections of a program. -/
inductive Section where
  | data
  | text
deriving DecidableEq

/-- The section behind a line, if the line may stand in the section before it. -/
def Line.place (s : Section) : Line → Option Section
  | data => some .data
  | text => some .text
  | label _ | instr _ => if s = .text then some s else none
  | asciiz _ _ _ => if s = .data then some s else none
  | verbatim _ => none
  | blank | comment _ | banner _ | globl _ => some s

/-- The section behind some lines, if each of them stands where it may. -/
def placeLines (s : Section) (ls : List Line) : Option Section := ls.foldlM Line.place s

/-- What a line refers to is there in the program. -/
def Line.Resolved (code : List Line) : Line → Prop
  | instr (.loadImm _ v) => (word? v).isSome
  | instr (.loadAddr _ l) => ∃ column v, asciiz l column v ∈ code
  | instr (.branchIfZero _ l) => label l ∈ code
  | instr (.jump l) => label l ∈ code
  | _ => True

/-- A program that an assembler takes. -/
structure Assembles (code : List Line) : Prop where
  placed : (placeLines .text code).isSome
  unambiguous : Unambiguous code
  resolved : ∀ x ∈ code, x.Resolved code

@[simp] theorem placeLines_nil (s : Section) : placeLines s [] = some s := rfl

@[simp] theorem placeLines_cons (s : Section) (x : Line) (ls : List Line) :
    placeLines s (x :: ls) = (x.place s).bind fun s' => placeLines s' ls := rfl

@[simp] theorem placeLines_append (s : Section) (ls ls' : List Line) :
    placeLines s (ls ++ ls') = (placeLines s ls).bind fun s' => placeLines s' ls' := by
  simp only [placeLines, List.foldlM_append]
  rfl

/-! ## Labels defined once -/

/-- How often a label is defined. -/
def definitions (ls : List Line) (l : Label) : Nat := (ls.filterMap Line.defines?).count l

@[simp] theorem definitions_nil (l : Label) : definitions [] l = 0 := rfl

@[simp] theorem definitions_append (ls ls' : List Line) (l : Label) :
    definitions (ls ++ ls') l = definitions ls l + definitions ls' l := by
  simp [definitions]

@[simp] theorem definitions_cons (x : Line) (ls : List Line) (l : Label) :
    definitions (x :: ls) l = (if x.defines? = some l then 1 else 0) + definitions ls l := by
  cases h : x.defines? with
  | none => simp [definitions, h]
  | some l' =>
    by_cases hl : l' = l <;> simp [definitions, h, hl, Nat.add_comm]

/-- One for the labels that are numbered from `a` up to `b`, and none for all others. -/
def numbered (a b : Nat) : Label → Nat
  | .generated n => if a ≤ n ∧ n < b then 1 else 0
  | .named _ => 0

@[simp] theorem numbered_self (a : Nat) (l : Label) : numbered a a l = 0 := by
  cases l with
  | generated n => simp [numbered]
  | named t => rfl

theorem numbered_add {a b c : Nat} (hab : a ≤ b) (hbc : b ≤ c) (l : Label) :
    numbered a b l + numbered b c l = numbered a c l := by
  cases l with
  | generated n => simp only [numbered]; split <;> split <;> split <;> omega
  | named t => rfl

end Mips

/-- Lines that stay in the text section, define each label numbered from `a` up to `b` once, and define no other. -/
structure Laid (a b : Nat) (ls : List Line) : Prop where
  le : a ≤ b
  placed : placeLines .text ls = some .text
  labels : ∀ l, definitions ls l = numbered a b l

theorem Laid.nil (a : Nat) : Laid a a [] := ⟨Nat.le_refl a, rfl, fun l => by simp⟩

theorem Laid.append {a b c : Nat} {ls ls' : List Line} (h : Laid a b ls) (h' : Laid b c ls') :
    Laid a c (ls ++ ls') where
  le := Nat.le_trans h.le h'.le
  placed := by simp [h.placed, h'.placed]
  labels l := by rw [definitions_append, h.labels, h'.labels, numbered_add h.le h'.le]

theorem numbered_one (n : Nat) (l : Label) : (if Label.generated n = l then 1 else 0) = numbered n (n + 1) l := by
  cases l with
  | generated k =>
    simp only [numbered, Label.generated.injEq]
    split <;> split <;> omega
  | named t => simp [numbered]

/-- The label behind a guarded action is numbered between those of the condition and those of the action. -/
theorem Laid.conditional {a b c : Nat} {ls ls' : List Line} (h : Laid a b ls) (h' : Laid (b + 1) c ls') (remark : Text)
    (guard : Instr) (test : Instr) :
    Laid a c (ls ++ ([Line.comment remark, .instr guard, .instr test] ++ (ls' ++ [Line.label (.generated b)]))) where
  le := Nat.le_trans h.le (Nat.le_of_succ_le h'.le)
  placed := by simp [h.placed, h'.placed, Line.place]
  labels l := by
    simp only [definitions_append, definitions_cons, definitions_nil, h.labels, h'.labels, Line.defines?,
      Option.some.injEq, reduceCtorEq, if_false, numbered_one]
    have hbehind : numbered b (b + 1) l + numbered (b + 1) c l = numbered b c l :=
      numbered_add (Nat.le_succ b) h'.le l
    have hall := numbered_add h.le (Nat.le_of_succ_le h'.le) l
    omega

/-- The labels around a loop are numbered before those of its parts. -/
theorem Laid.loop {a b c : Nat} {ls ls' : List Line} (h : Laid (a + 2) b ls) (h' : Laid b c ls') (remark : Text)
    (guard : Instr) (test : Instr) :
    Laid a c ([Line.comment remark, .label (.generated a)] ++ (ls ++ ([Line.instr guard, .instr test] ++
      (ls' ++ [Line.instr (.jump (.generated a)), .label (.generated (a + 1))])))) where
  le := Nat.le_of_succ_le (Nat.le_of_succ_le (Nat.le_trans h.le h'.le))
  placed := by simp [h.placed, h'.placed, Line.place]
  labels l := by
    simp only [definitions_append, definitions_cons, definitions_nil, h.labels, h'.labels, Line.defines?,
      Option.some.injEq, reduceCtorEq, if_false, numbered_one]
    have htwo : numbered a (a + 1) l + numbered (a + 1) (a + 1 + 1) l = numbered a (a + 2) l :=
      numbered_add (Nat.le_succ a) (Nat.le_succ (a + 1)) l
    have hparts := numbered_add h.le h'.le l
    have hall := numbered_add (Nat.le_add_right a 2) (Nat.le_trans h.le h'.le) l
    omega

/-- Every walk from a state lays out its lines between the labels before it and those after it. -/
def Gen.Lays {α : Type} (m : Gen α) : Prop := ∀ s, Laid s.labels (m s).state.labels (m.lines s)

namespace Gen

variable {α β : Type}

theorem Lays.bind {m : Gen α} {f : α → Gen β} (h : m.Lays) (hf : ∀ a, (f a).Lays) : (m >>= f).Lays := by
  intro s
  rw [lines_bind, state_bind]
  exact (h s).append (hf _ _)

/-- A walk that leaves no lines and takes no labels. -/
theorem Lays.of_none {m : Gen α} (hl : ∀ s, m.lines s = []) (hs : ∀ s, (m s).state.labels = s.labels) : m.Lays := by
  intro s
  rw [hl, hs]
  exact .nil _

theorem lays_pure (a : α) : (pure a : Gen α).Lays := .of_none (fun _ => rfl) fun _ => rfl

theorem lays_emit {ls : List Line} (hp : placeLines .text ls = some .text) (hd : ls.filterMap Line.defines? = []) :
    (emit ls).Lays := by
  intro s
  refine ⟨Nat.le_refl _, by simpa using hp, fun l => ?_⟩
  simp [definitions, hd]

theorem lays_produce (r : Rule) : (produce r).Lays := .of_none (by simp) fun _ => rfl

theorem lays_note (n : Note) : (note n).Lays := .of_none (by simp) fun _ => rfl

theorem lays_report (tok : Token) (f : Fault) : (report tok f).Lays := .of_none (by simp) fun _ => rfl

theorem lays_expect (k : Kind) (tok : Token) : (expect k tok).Lays := .of_none (by simp) (by simp)

theorem lays_current : current.Lays := .of_none (by simp) fun _ => rfl

theorem lays_setCurrent (d : Operand) : (setCurrent d).Lays := .of_none (by simp) fun _ => rfl

theorem lays_newTemp : newTemp.Lays := .of_none (by simp) fun _ => rfl

theorem lays_resolve (name : Text) : (resolve name).Lays := .of_none (by simp) fun _ => rfl

theorem placeLines_instrs (code : List Instr) : placeLines .text (code.map Line.instr) = some .text := by
  induction code with
  | nil => rfl
  | cons i code ih => simpa [Line.place] using ih

theorem lays_binary (remark : Text) (left right : Operand) (code : List Instr) (result : Ty) :
    (binary remark left right code result).Lays := by
  unfold binary
  refine (lays_emit ?_ ?_).bind fun _ => lays_newTemp.bind fun _ => (lays_emit rfl rfl).bind fun _ => lays_setCurrent _
  · simp [Line.place, placeLines_instrs]
  · simp [Line.defines?]

theorem lays_add (op : Token) (left right : Operand) : (add op left right).Lays := by
  unfold add
  split
  · exact lays_binary _ _ _ _ _
  · exact lays_report _ _

theorem lays_mul (op : Token) (left right : Operand) : (mul op left right).Lays := by
  unfold mul
  split
  · exact lays_binary _ _ _ _ _
  · exact lays_report _ _

theorem lays_compare (op : Token) (left right : Operand) : (Gen.compare op left right).Lays := by
  unfold Gen.compare
  split
  · exact lays_setCurrent _
  · split
    · exact lays_report _ _
    · exact lays_binary _ _ _ _ _

theorem lays_negate (op : Token) (d : Operand) : (negate op d).Lays := by
  unfold negate
  split
  · exact lays_report _ _
  · exact lays_emit rfl rfl

/-- One label is taken, and it is the label of the constant. -/
theorem laid_inlineString (n : Nat) (v : Text) : Laid n (n + 1) (inlineString (.generated n) v) where
  le := Nat.le_succ n
  placed := rfl
  labels l := by simp [inlineString, Line.defines?, numbered_one]

theorem lays_literal (lexeme : Text) : (literal lexeme).Lays := by
  intro s
  by_cases h : Ty.ofLiteral lexeme = .string
  · rw [(literal_string h).1, (literal_string h).2]
    exact laid_inlineString _ _
  · rw [(literal_immediate h).1, (literal_immediate h).2]
    exact ⟨Nat.le_refl _, rfl, fun l => by simp [Line.defines?]⟩

theorem lays_reference (tok : Token) : (reference tok).Lays := by
  unfold reference
  refine (lays_produce _).bind fun _ => (lays_resolve _).bind fun r => ?_
  cases r with
  | error e => exact (lays_report _ _).bind fun _ => lays_pure _
  | ok v => exact (lays_setCurrent _).bind fun _ => lays_pure _

end Gen

theorem Expr.lays_lower {l : Level} (e : Expr l) : e.lower.Lays := by
  induction e with
  | add left op right ihl ihr =>
    exact ihl.bind fun _ => lays_current.bind fun _ => ihr.bind fun _ => lays_current.bind fun _ => lays_add _ _ _
  | term e ih => exact (lays_produce _).bind fun _ => ih
  | mul left op right ihl ihr =>
    exact ihl.bind fun _ => lays_current.bind fun _ => ihr.bind fun _ => lays_current.bind fun _ => lays_mul _ _ _
  | relation e ih => exact (lays_produce _).bind fun _ => ih
  | compare left op right ihl ihr =>
    exact (lays_produce _).bind fun _ => ihl.bind fun _ => lays_current.bind fun _ => ihr.bind fun _ =>
      lays_current.bind fun _ => lays_compare _ _ _
  | factor e ih => exact (lays_produce _).bind fun _ => ih
  | missing => exact lays_produce _
  | name tok => exact (lays_produce _).bind fun _ => (lays_reference tok).bind fun _ => lays_pure _
  | literal tok => exact (lays_produce _).bind fun _ => lays_literal _
  | negation op e ih =>
    exact (lays_produce _).bind fun _ => ih.bind fun _ => lays_current.bind fun _ => lays_negate _ _
  | group opening e closing ih =>
    exact (lays_produce _).bind fun _ => ih.bind fun _ => lays_expect _ _

/-! ### Statements -/

namespace Gen

theorem lays_declaration (type name : Token) : (declaration type name).Lays := by
  refine .of_none (by simp) fun s => ?_
  by_cases hk : name.kind = .ident
  · rw [state_declaration hk, declare]
    split <;> rfl
  · simp [declaration, hk]

theorem lays_storeIn (target : Token) (v : Variable) : (storeIn target v).Lays := by
  refine lays_current.bind fun d => ?_
  split
  · refine lays_emit ?_ ?_ <;> cases d.place <;> rfl
  · exact lays_report _ _

theorem lays_assignment (target sign : Token) {value : Gen Unit} (h : value.Lays) :
    (assignment target sign value).Lays := by
  refine (lays_produce _).bind fun _ => (lays_resolve _).bind fun r => ?_
  cases r with
  | error e => exact (lays_report _ _).bind fun _ => (lays_expect _ _).bind fun _ => h
  | ok v =>
    exact (lays_reference _).bind fun _ => (lays_expect _ _).bind fun _ => h.bind fun _ => lays_storeIn _ _

theorem lays_conditional (opening middle : Token) {condition action : Gen Unit} (hc : condition.Lays)
    (ha : action.Lays) : (conditional opening middle condition action).Lays := by
  intro s
  rw [lines_conditional, state_conditional]
  exact (hc s).conditional (ha { (condition s).state with labels := (condition s).state.labels + 1 }) _ _ _

theorem lays_loop (opening middle : Token) {condition action : Gen Unit} (hc : condition.Lays)
    (ha : action.Lays) : (loop opening middle condition action).Lays := by
  intro s
  rw [lines_loop, state_loop]
  exact (hc { s with labels := s.labels + 2 }).loop (ha _) _ _ _

theorem lays_block (closing : Token) {inside : Gen Unit} (h : inside.Lays) : (block closing inside).Lays := by
  intro s
  rw [lines_block, state_block]
  exact h { s with table := s.table.enter }

theorem lays_readCurrent (keyword : Token) : (readCurrent keyword).Lays := by
  refine lays_current.bind fun d => ?_
  split
  · exact (lays_note _).bind fun _ => lays_emit rfl rfl
  · exact lays_report _ _

theorem lays_read (keyword opening : Token) (target : Option Token) (closing : Token) :
    (read keyword opening target closing).Lays := by
  refine (lays_produce _).bind fun _ => (lays_expect _ _).bind fun _ => ?_
  cases target with
  | none => exact (lays_produce _).bind fun _ => lays_expect _ _
  | some tok =>
    refine (lays_reference tok).bind fun b => ?_
    cases b with
    | false => exact lays_expect _ _
    | true => exact (lays_readCurrent _).bind fun _ => lays_expect _ _

/-- Printing defines no label. -/
theorem printLines_laid {statement : Text} {d : Operand} {ls : List Line} (h : printLines statement d = some ls) :
    placeLines .text ls = some .text ∧ ls.filterMap Line.defines? = [] := by
  rcases printLines_cases h with ⟨type, -, rfl⟩ | rfl
  · exact ⟨rfl, rfl⟩
  · cases hplace : d.place <;> simp [Operand.load, hplace, call, callCode, Line.place, Line.defines?]

theorem lays_write (keyword opening : Token) {value : Gen Unit} (h : value.Lays) (closing : Token) :
    (write keyword opening value closing).Lays := by
  refine (lays_produce _).bind fun _ => (lays_expect _ _).bind fun _ => h.bind fun _ => (lays_note _).bind fun _ =>
    lays_current.bind fun d => ?_
  split
  · next ls hls =>
    obtain ⟨hplaced, hnone⟩ := printLines_laid hls
    refine (lays_emit ?_ ?_).bind fun _ => lays_expect _ _
    · split <;> simp [hplaced, lineEndLines, call, callCode, Line.place]
    · split <;> simp [hnone, lineEndLines, call, callCode, Line.defines?]
  · exact lays_expect _ _

theorem lays_enter (n : Note) : (enter n).Lays := (lays_produce _).bind fun _ => lays_note _

end Gen

theorem Code.lays_lower {x : Extent} (c : Code x) : c.lower.Lays := by
  induction c with
  | empty => exact lays_produce _
  | declare type name => exact (lays_enter _).bind fun _ => lays_declaration _ _
  | assign target sign value => exact (lays_enter _).bind fun _ => lays_assignment _ _ value.lays_lower
  | ifThen opening condition middle action ih =>
    exact (lays_enter _).bind fun _ => lays_conditional _ _ condition.lays_lower ih
  | whileDo opening condition middle action ih =>
    exact (lays_enter _).bind fun _ => lays_loop _ _ condition.lays_lower ih
  | block opening inside closing ih => exact (lays_enter _).bind fun _ => lays_block _ ih
  | read keyword opening target closing => exact (lays_enter _).bind fun _ => lays_read _ _ _ _
  | write keyword opening value closing => exact (lays_enter _).bind fun _ => lays_write _ _ value.lays_lower _
  | done => exact lays_pure _
  | last s ih => exact ih
  | next s separator rest ihs ihr => exact ihs.bind fun _ => (lays_expect _ _).bind fun _ => ihr

/-! ### Whole programs -/

theorem Program.lays_body (p : Program) : p.body.Lays := by
  cases p with
  | bare stop => exact (lays_produce _).bind fun _ => lays_expect _ _
  | block opening inside closing stop =>
    exact (lays_block _ inside.lays_lower).bind fun _ => lays_expect _ _

/-- The lines of a program stand between the prolog and the postlog. -/
theorem Program.lines_lower_eq (p : Program) (next : Token) (s : GenState) :
    (p.lower next).lines s = prolog ++ (p.body.lines s ++ postlog) := by
  by_cases heof : next.isEof <;> simp [Program.lower, heof]

/-- Between prolog and postlog, numbered labels are defined once; the fixed ones are defined around them. -/
theorem Laid.unambiguous {a b : Nat} {ls : List Line} (h : Laid a b ls) : Unambiguous (prolog ++ (ls ++ postlog)) := by
  rw [Unambiguous, List.nodup_iff_count_le_one]
  intro l
  have hcount : List.count l ((prolog ++ (ls ++ postlog)).filterMap Line.defines?) =
      definitions prolog l + (definitions ls l + definitions postlog l) := by
    simp [definitions]
  rw [hcount, h.labels]
  cases l with
  | generated n =>
    have hp : definitions prolog (.generated n) = 0 := by
      simp [prolog, call, callCode, Line.defines?, Label.main]
    have hq : definitions postlog (.generated n) = 0 := by
      simp [postlog, call, callCode, fixedStrings, Line.defines?, Label.programStart, Label.programEnd, Label.true,
        Label.false, Label.lineEnd]
    rw [hp, hq]
    simp only [numbered]
    split <;> omega
  | named t =>
    -- the lines between define no label of this sort, and the others are a fixed list
    have hfixed : (prolog.filterMap Line.defines? ++ postlog.filterMap Line.defines?).Nodup := by decide
    have hone := List.nodup_iff_count_le_one.1 hfixed (.named t)
    rw [List.count_append] at hone
    simpa [numbered, definitions] using hone

/-! ## References -/

/-- What lines refer to is there. -/
def Resolves (code ls : List Line) : Prop := ∀ x ∈ ls, x.Resolved code

/-- A place at a label is that of a string constant. -/
def Operand.Anchored (code : List Line) (d : Operand) : Prop :=
  ∀ l, d.place = .label l → ∃ column v, Line.asciiz l column v ∈ code

theorem Operand.inFrame_anchored (code : List Line) (τ : Ty) (n : Int64) : (Operand.inFrame τ n).Anchored code := nofun

variable {code : List Line}

@[simp] theorem resolves_append {ls ls' : List Line} :
    Resolves code (ls ++ ls') ↔ Resolves code ls ∧ Resolves code ls' :=
  List.forall_mem_append

theorem resolves_operatorLines {remark : Text} {left right : Operand} {instrs : List Instr} {slot : Int64}
    (h : Resolves code (instrs.map Line.instr)) : Resolves code (operatorLines remark left right instrs slot) := by
  simp only [operatorLines, resolves_append]
  refine ⟨⟨?_, h⟩, ?_⟩ <;> simp [Resolves, Line.Resolved]

/-- The instructions of an operator refer to registers alone. -/
theorem resolves_operation (operation : Operation) : Resolves code (operation.instrs.map Line.instr) := by
  refine List.forall_mem_map.2 fun i hi => ?_
  rcases operation.form_of_mem hi with ⟨op, a, rfl⟩ | ⟨op, a, b, rfl⟩ | ⟨op, a, b, c, rfl⟩ <;> trivial

theorem Expr.Operates.resolves {k l m : Level} {e : Expr k} {left : Expr l} {right : Expr m} {remark : Text}
    {instrs : List Instr} {result : Ty} {s : GenState} (h : e.Operates left right remark instrs result s)
    (hl : Resolves code (left.lower.lines s)) (hr : Resolves code (right.lower.lines (left.lower s).state))
    (hi : Resolves code (instrs.map Line.instr)) :
    Resolves code (e.lower.lines s) ∧ (e.lower s).state.current.Anchored code := by
  rw [h.1, h.2]
  simp only [resolves_append]
  exact ⟨⟨hl, hr, resolves_operatorLines hi⟩, Operand.inFrame_anchored _ _ _⟩

/-- A literal with a value is put down as a numeral. -/
theorem word?_immediate {lexeme : Text} (h : (literalValue? lexeme).isSome) (hs : Ty.ofLiteral lexeme ≠ .string) :
    ∃ w, word? (immediate lexeme) = some w ∧ literalValue? lexeme = some (.number w) := by
  unfold immediate
  unfold literalValue? at h ⊢
  cases hty : Ty.ofLiteral lexeme with
  | integer =>
    simp only [hty, Option.isSome_map] at h ⊢
    obtain ⟨w, hw⟩ := Option.isSome_iff_exists.1 h
    exact ⟨w, by simpa using hw, by simp [hw]⟩
  | logical =>
    by_cases htrue : lexeme = "true"
    · exact ⟨1, by simp only [htrue, if_true]; decide +kernel, by simp [htrue, truth]⟩
    · exact ⟨0, by simp only [htrue, if_true, if_false]; decide +kernel, by simp [htrue, truth]⟩
  | string => exact absurd hty hs
  | invalid => simp [hty] at h
  | unknown n => simp [hty] at h

/-- The code of a plain expression with a type refers to constants of its own. -/
theorem Regular.resolves_lower {Γ : Env} {l : Level} {e : Expr l} {τ : Ty} (h : Regular Γ e τ) {s : GenState}
    (hΓ : s.table.env = Γ) (hsub : e.lower.lines s ⊆ code) :
    Resolves code (e.lower.lines s) ∧ (e.lower s).state.current.Anchored code := by
  induction h generalizing s with
  | @joined _ _ _ _ left right operation _ _ hjoins htakes hl hr ihl ihr =>
    have hΓ' : (left.lower s).state.table.env = Γ := by rw [Expr.table_lower, hΓ]
    have he := hjoins.operates htakes (hΓ ▸ hl.hasType) (hΓ ▸ hr.hasType)
    rw [he.1, List.append_subset, List.append_subset] at hsub
    exact he.resolves (ihl hΓ hsub.1).1 (ihr hΓ' hsub.2.1).1 (resolves_operation operation)
  | wrapped hwraps _ ih =>
    rw [hwraps.lines] at hsub ⊢
    rw [hwraps.state]
    exact ih hΓ hsub
  | name hd =>
    subst hΓ
    obtain ⟨v, hres, _⟩ := SymbolTable.resolve_of_find? hd
    simp only [Expr.lower, lines_bind, lines_produce, lines_pure, state_bind, state_produce, state_pure,
      reference_ok hres]
    exact ⟨by simp [Resolves], Operand.inFrame_anchored _ _ _⟩
  | @literal tok hvalue _ =>
    simp only [Expr.lower, lines_bind, lines_produce, state_bind, state_produce, List.nil_append] at hsub ⊢
    by_cases hstring : Ty.ofLiteral tok.value = .string
    · rw [(literal_string hstring).1] at hsub ⊢
      rw [(literal_string hstring).2]
      -- the label of the operand is that of the constant placed here
      refine ⟨by simp [Resolves, inlineString, Line.Resolved], ?_⟩
      rintro l ⟨⟩
      exact ⟨0, quoted tok.value, hsub (by simp [inlineString, quoted])⟩
    · obtain ⟨w, hw, _⟩ := word?_immediate hvalue hstring
      rw [(literal_immediate hstring).1, (literal_immediate hstring).2]
      exact ⟨by simp [Resolves, Line.Resolved, hw], Operand.inFrame_anchored _ _ _⟩

theorem resolves_call (service : Service) : Resolves code (call service) := by
  have hcode : (word? (Text.ofInt service.code)).isSome := by
    cases service <;> decide +kernel
  simp [Resolves, call, callCode, Line.Resolved, hcode]

/-- An operand is loaded from its slot, or by the address of its constant. -/
theorem resolved_load {d : Operand} (h : d.Anchored code) (r : Reg) : (Line.instr (d.load r)).Resolved code := by
  cases hplace : d.place with
  | slot n => simp [Operand.load, hplace, Line.Resolved]
  | label l => simpa [Operand.load, hplace, Line.Resolved] using h l hplace

theorem resolves_printLines {statement : Text} {d : Operand} {ls : List Line} (h : d.Anchored code)
    (hls : printLines statement d = some ls) : Resolves code ls := by
  rcases printLines_cases hls with ⟨type, -, rfl⟩ | rfl
  · simp only [printLines.number, resolves_append]
    exact ⟨⟨by simp [Resolves, Line.Resolved], resolves_call _⟩, by simp [Resolves, Line.Resolved]⟩
  · simp only [resolves_append]
    exact ⟨⟨by simpa [Resolves, Line.Resolved] using resolved_load h .a0, resolves_call _⟩,
      by simp [Resolves, Line.Resolved]⟩

theorem resolves_lineEndLines (hend : ∃ column v, Line.asciiz .lineEnd column v ∈ code) :
    Resolves code lineEndLines := by
  rw [lineEndLines, List.cons_append, ← List.singleton_append]
  simp only [resolves_append]
  exact ⟨by simpa [Resolves, Line.Resolved] using hend, resolves_call _, by simp [Resolves, Line.Resolved]⟩

/-- The code of a plain well-typed statement refers to labels of its own and to the line end. -/
theorem Code.resolves_lower {x : Extent} (c : Code x) (hv : c.Valid) (s : GenState) (hs : c.Scoped s.table.env)
    (ht : Typed s.table.env c) (hp : c.Plain s.table.env) (hsub : c.lower.lines s ⊆ code)
    (hend : ∃ column v, Line.asciiz .lineEnd column v ∈ code) : Resolves code (c.lower.lines s) := by
  induction c generalizing s with
  | empty => simp [Code.lower, Resolves]
  | declare type name => simp [Code.lower, Resolves]
  | assign target sign value =>
    cases ht with
    | assign hd hvalue =>
      obtain ⟨v, hres, hty, _⟩ := SymbolTable.resolve_of_find? hd
      simp only [Code.lower, lines_bind, lines_enter, state_enter, List.nil_append] at hsub ⊢
      rw [lines_assignment hres _ (by rw [hty]; exact Expr.current_ty hvalue rfl)] at hsub ⊢
      rw [List.append_subset] at hsub
      obtain ⟨hlines, hplace⟩ :=
        (hvalue.regular hp).resolves_lower (s := { s with current := .inFrame v.ty v.offset }) rfl hsub.1
      simp only [resolves_append]
      exact ⟨hlines, by simpa [Resolves, Line.Resolved] using resolved_load hplace .t0⟩
  | ifThen opening condition middle action ih =>
    cases ht with
    | ifThen hcondition haction =>
      simp only [Code.lower, lines_bind, lines_enter, state_enter, List.nil_append, lines_conditional,
        List.append_subset, resolves_append] at hsub ⊢
      obtain ⟨hfirst, _, hsecond, hlabel⟩ := hsub
      refine ⟨((hcondition.regular hp.1).resolves_lower rfl hfirst).1, ?_,
        ih hv.2.2.2 _ (by simpa using hs.2) (by simpa using haction) (by simpa using hp.2) hsecond, ?_⟩
      · simpa [Resolves, Line.Resolved] using hlabel
      · simp [Resolves, Line.Resolved]
  | whileDo opening condition middle action ih =>
    cases ht with
    | whileDo hcondition haction =>
      simp only [Code.lower, lines_bind, lines_enter, state_enter, List.nil_append, lines_loop,
        List.append_subset, resolves_append] at hsub ⊢
      obtain ⟨htop, hfirst, _, hsecond, hbottom⟩ := hsub
      -- the branch leads to the label at the bottom, and the jump back to the one at the top
      refine ⟨by simp [Resolves, Line.Resolved], ?_, ?_,
        ih hv.2.2.2 _ (by simpa using hs.2) (by simpa using haction) (by simpa using hp.2) hsecond, ?_⟩
      · exact ((hcondition.regular hp.1).resolves_lower (s := { s with labels := s.labels + 2 }) rfl hfirst).1
      · simpa [Resolves, Line.Resolved] using hbottom (List.mem_cons_of_mem _ List.mem_cons_self)
      · simpa [Resolves, Line.Resolved] using htop (List.mem_cons_of_mem _ List.mem_cons_self)
  | block opening inside closing ih =>
    cases ht with
    | block hinside =>
      have henter := SymbolTable.env_enter s.table
      simp only [Code.lower, lines_bind, lines_enter, state_enter, List.nil_append, lines_block] at hsub ⊢
      exact ih hv.2.1 { s with table := s.table.enter } (by rw [henter]; exact hs) (by rw [henter]; exact hinside)
        (by rw [henter]; exact hp) hsub
  | read keyword opening target closing =>
    cases ht with
    | read hd hinteger =>
      obtain ⟨v, hres, hty, _⟩ := SymbolTable.resolve_of_find? hd
      simp only [Code.lower, lines_bind, lines_enter, state_enter, List.nil_append]
      rw [lines_read hres (hty.trans hinteger), List.cons_append, ← List.singleton_append]
      simp only [resolves_append]
      exact ⟨by simp [Resolves, Line.Resolved], resolves_call _, by simp [Resolves, Line.Resolved]⟩
  | write keyword opening value closing =>
    cases ht with
    | write hvalue =>
      simp only [Code.lower, lines_bind, lines_enter, state_enter, List.nil_append] at hsub ⊢
      cases hprint : printLines (if keyword.value = "writeln" then "writeln" else "write")
          (value.lower s).state.current with
      | none =>
        rw [lines_write_none _ hprint] at hsub ⊢
        exact ((hvalue.regular hp).resolves_lower rfl hsub).1
      | some ls =>
        rw [lines_write _ hprint] at hsub ⊢
        rw [List.append_subset] at hsub
        obtain ⟨hlines, hplace⟩ := (hvalue.regular hp).resolves_lower rfl hsub.1
        simp only [resolves_append]
        refine ⟨hlines, resolves_printLines hplace hprint, ?_⟩
        split
        · exact resolves_lineEndLines hend
        · simp [Resolves]
  | done => simp [Code.lower, Resolves]
  | last c ih =>
    cases ht with
    | last ht => exact ih hv.1 s hs ht hp hsub
  | next c separator rest ihs ihr =>
    cases ht with
    | next hfirst hrest =>
      have hafter := c.env_lower hv.1 s hs.1
      simp only [Code.lower, lines_bind, lines_expect, state_expect, List.nil_append, List.append_subset,
        resolves_append] at hsub ⊢
      exact ⟨ihs hv.1 s hs.1 hfirst hp.1 hsub.1, ihr hv.2.2 _ (by rw [hafter]; exact hs.2)
        (by rw [hafter]; exact hrest) (by rw [hafter]; exact hp.2) hsub.2⟩

end AlgolMips
