import AlgolMips.Proofs.Evaluation

/-!
# Runs of statements

Every complete run of a plain well-typed statement is followed by its code: from data that mirror the world before it,
the machine goes from the first line of the statement to behind its last one, and the data then mirror the world after
it (`Exec.follows`).

The induction is on the run of the source. A loop that is entered again is the same statement at the same place, so that
the second part of its run starts where the first one did; the code jumps to one line behind the start, which is where
the start leads.
-/

namespace AlgolMips

open Gen Mips

/-! ## Worlds and machines -/

/-- Data that hold the cells of a world, its input, and its output behind what was printed before. -/
structure Mirrors (code : List Line) (T : SymbolTable) (lead : Text) (w : World) (d : Data) : Prop extends
    Matches code T w.store d where
  input : d.input = w.input
  output : d.output = lead ++ w.output

/-- A whole program with the symbol table that its lowering leaves after `N` slots. -/
structure Linked (code : List Line) (T : SymbolTable) (N : Nat) : Prop where
  unambiguous : Unambiguous code
  lineEnd : constant? code .lineEnd = some "\\n"
  bound : N < 2 ^ 32
  tally : Tally ⟨slotAt N, 4⟩ T N

/-- A statement of that program, reached by its lowering in the state `s` after `n` slots. -/
structure Situated (T : SymbolTable) (N : Nat) {x : Extent} (c : Code x) (s : GenState) (n : Nat) : Prop where
  valid : c.Valid
  names : c.Scoped s.table.env
  typed : Typed s.table.env c
  plain : c.Plain s.table.env
  tally : Tally s.frame s.table n
  le : n + c.slots ≤ N
  grows : Grows (c.lower s).state.table T (n + c.slots) N

/-- An expression of that program. -/
structure Stands (T : SymbolTable) (N : Nat) {l : Level} (e : Expr l) (τ : Ty) (s : GenState) (n : Nat) : Prop where
  typed : HasType s.table.env e τ
  plain : e.Plain s.table.env
  tally : Tally s.frame s.table n
  le : n + e.slots ≤ N
  grows : Grows s.table T (n + e.slots) N

variable {o : Overflow} {code : List Line} {T : SymbolTable} {N : Nat} {lead : Text}

/-- Between the slots of a table and the later ones there is no cell. -/
theorem spare_of_grows {f : Frame} {t : SymbolTable} {n m : Nat} (h : Tally f t n) (hg : Grows t T m N) (hm : m ≤ N)
    (hN : N < 2 ^ 32) : Spare T n m := by
  intro c v hv j hj hlt heq
  -- an old cell comes before these slots, and a later one behind them
  rcases hg.fresh c v hv with hold | ⟨i, hi, hiN, hoffset⟩
  · obtain ⟨i, hi, hoffset⟩ := h.below c v hold
    have := slotAt_inj (by omega) (by omega) (hoffset.symm.trans heq)
    omega
  · have := slotAt_inj (by omega) (by omega) (hoffset.symm.trans heq)
    omega

namespace Mirrors

variable {w : World} {d d' : Data}

theorem writes {n m : Nat} (h : Mirrors code T lead w d) (hw : Writes n m d d') (hs : Spare T n m) :
    Mirrors code T lead w d' :=
  { toMatches := h.toMatches.writes hw hs
    input := hw.input.trans h.input
    output := hw.output.trans h.output }

/-- Storing the representation of a value in the slot of a cell assigns it. -/
theorem assign (h : Mirrors code T lead w d) (hT : Linked code T N) {c : Cell} {v : Variable} (hv : T.HasCell c v)
    {value : Value} {content : Content} (hr : Represents code value content) :
    Mirrors code T lead (w.assign c value) (d.put v.offset content) where
  base := h.base
  input := h.input
  output := h.output
  cells c' v' hv' := by
    by_cases hc : c' = c
    · subst hc
      rw [hT.tally.hasCell_unique hv' hv]
      simpa [World.assign] using hr
    · have hne : v'.offset ≠ v.offset := fun heq => hc (hT.tally.distinct _ _ _ _ hv' hv heq)
      simpa [World.assign, Function.update_of_ne hc, Function.update_of_ne hne] using h.cells c' v' hv'

theorem set (h : Mirrors code T lead w d) {r : Reg} (hr : r ≠ .fp) (c : Content) :
    Mirrors code T lead w (d.set r c) where
  base := by simpa [hr.symm] using h.base
  input := h.input
  output := h.output
  cells := h.cells

theorem print (h : Mirrors code T lead w d) (t : Text) : Mirrors code T lead (w.print t) (d.print t) where
  base := h.base
  input := h.input
  output := by simp [World.print, h.output, Text.append_assoc]
  cells := h.cells

end Mirrors

/-! ## Pieces of code -/

/-- An operand that holds a value is loaded as what represents the value. -/
theorem run_load {d : Data} {operand : Operand} {v : Value} (h : Holds code d operand v) (hbase : d.get .fp = .base)
    (r : Reg) : ∃ c, Represents code v c ∧ (Line.instr (operand.load r)).run o code d = some (d.set r c) := by
  unfold Holds at h
  split at h
  · next n hplace => exact ⟨d.frame n, h, by simp [Operand.load, hplace, Line.run, Instr.exec, hbase]⟩
  · next l hplace =>
    cases v with
    | number a => cases h
    | text t =>
      obtain ⟨l', v, hl, hconstant, htext⟩ := h
      cases hl
      exact ⟨.address l, ⟨l, v, rfl, hconstant, htext⟩, by simp [Operand.load, hplace, Line.run, Instr.exec, hconstant]⟩

/-- Loading an operand and storing it again copies what represents its value. -/
theorem run_copy {d : Data} {operand : Operand} {v : Value} (h : Holds code d operand v) (hbase : d.get .fp = .base)
    (remark : Text) (offset : Int64) :
    ∃ c, Represents code v c ∧
      runLines o code [.comment remark, .instr (operand.load .t0), .instr (.store .t0 offset)] d =
        some ((d.set .t0 c).put offset c) := by
  obtain ⟨c, hc, hload⟩ := run_load (o := o) h hbase .t0
  refine ⟨c, hc, ?_⟩
  rw [runLines_cons, Line.run_comment, Option.bind_some, runLines_cons, hload]
  simp [Line.run, Instr.exec, hbase]

/-- A service that goes on is asked for by its lines. -/
theorem run_call {service : Service} {d d' : Data}
    (h : service.serve code (d.set .v0 (.number (.ofInt 32 service.code))) = some (d', .next)) :
    runLines o code (call service) d = some d' := by
  have hword : word? (Text.ofInt service.code) = some (.ofInt 32 service.code) := by
    cases service <;> decide +kernel
  have hservice : Service.ofWord? (.ofInt 32 service.code) = some service := by
    cases service <;> decide
  simp [call, callCode, Line.run, Instr.exec, hword, hservice, h]

/-- The code of an expression leads behind it, with its value in its operand. -/
theorem Stands.reaches {l : Level} {e : Expr l} {τ : Ty} {s : GenState} {n : Nat} (h : Stands T N e τ s n)
    (hT : Linked code T N) {pc : Nat} (hcode : CodeAt code pc (e.lower.lines s)) {w : World} {d : Data}
    (hd : Mirrors code T lead w d) {v : Value} (hv : e.eval o s.table.env w.store = some v) :
    ∃ d', Reaches o code (.running pc d) (.running (pc + (e.lower.lines s).length) d') ∧ Mirrors code T lead w d' ∧
      Holds code d' (e.lower s).state.current v := by
  have hspare := spare_of_grows h.tally h.grows h.le hT.bound
  have hcomputes := (h.typed.regular h.plain).computes_lower rfl hT.unambiguous h.grows.keeps hcode.subset h.tally.frame
    hspare (Nat.lt_of_le_of_lt h.le hT.bound) hv
  obtain ⟨d', hrun, hwrites, hholds⟩ := hcomputes.run d hd.toMatches
  exact ⟨d', hcode.reaches hrun, hd.writes hwrites hspare, hholds⟩

theorem Mips.step_branchIfZero {pc target : Nat} {r : Reg} {l : Label} {d : Data} {a : Word}
    (hcode : code[pc]? = some (.instr (.branchIfZero r l))) (hr : d.get r = .number a)
    (htarget : target? code l = some target) :
    step o code (.running pc d) = some (.running (if a = 0 then target else pc + 1) d) := by
  by_cases ha : a = 0
  · simp [step, hcode, Instr.exec, hr, ha, htarget]
  · have ha' : ¬ a = 0#32 := ha
    simp [step, hcode, Instr.exec, hr, ha']

/-- A guard loads a number and branches where it is zero. -/
theorem reaches_guard {pc target : Nat} {operand : Operand} {l : Label} {d : Data} {a : Word}
    (hcode : CodeAt code pc [.instr (.load .t0 operand.place.offset), .instr (.branchIfZero .t0 l)])
    (hbase : d.get .fp = .base) (hholds : Holds code d operand (.number a)) (htarget : target? code l = some target) :
    Reaches o code (.running pc d)
      (.running (if a = 0 then target else pc + 2) (d.set .t0 (.number a))) := by
  obtain ⟨x, hplace, hx⟩ := hholds.number
  have hload : step o code (.running pc d) = some (.running (pc + 1) (d.set .t0 (.number a))) :=
    CodeAt.step_of_run hcode.head (by simp [Line.run, Instr.exec, hplace, Place.offset, hbase, hx])
  exact .head hload (.single (step_branchIfZero hcode.tail.head (by simp) htarget))

theorem reaches_jump {pc target : Nat} {l : Label} {d : Data} (hcode : code[pc]? = some (.instr (.jump l)))
    (htarget : target? code l = some target) : Reaches o code (.running pc d) (.running target d) :=
  .single (by simp [step, hcode, Instr.exec, htarget])

theorem run_printNumber {statement type : Text} {operand : Operand} {a : Word} {w : World} {d : Data}
    (hd : Mirrors code T lead w d) (hholds : Holds code d operand (.number a)) :
    ∃ d', runLines o code (printLines.number statement operand type) d = some d' ∧
      Mirrors code T lead (w.print (Text.ofInt a.toInt)) d' := by
  obtain ⟨x, hplace, hx⟩ := hholds.number
  have hprint : runLines o code (call .printInt) (d.set .a0 (.number a)) =
      some (((d.set .a0 (.number a)).set .v0 (.number 1)).print (Text.ofInt a.toInt)) :=
    run_call (by simp [Service.serve, Service.code])
  refine ⟨_, ?_, ((hd.set (r := .a0) (by decide) (.number a)).set (r := .v0) (by decide) (.number 1)).print _⟩
  simp [printLines.number, Line.run, Instr.exec, hd.base, hplace, Place.offset, hx, hprint]

/-- The constant whose address is in the argument register is printed as the text that it stands for. -/
theorem run_printConstant {l : Label} {v t : Text} (hc : constant? code l = some v) (ht : unescape v.bytes = t.bytes)
    (d : Data) : runLines o code (call .printString) (d.set .a0 (.address l)) =
      some (((d.set .a0 (.address l)).set .v0 (.number 4)).print t) :=
  run_call (by simp [Service.serve, Service.code, hc, ht])

theorem run_printText {remark : Text} {operand : Operand} {t : Text} {w : World} {d : Data}
    (hd : Mirrors code T lead w d) (hholds : Holds code d operand (.text t)) :
    ∃ d', runLines o code ([Line.comment remark, .instr (operand.load .a0)] ++ call .printString ++ [Line.blank]) d = some d' ∧
      Mirrors code T lead (w.print t) d' := by
  obtain ⟨_, ⟨l, v, rfl, hconstant, htext⟩, hload⟩ := run_load (o := o) hholds hd.base .a0
  refine ⟨_, ?_, ((hd.set (r := .a0) (by decide) (.address l)).set (r := .v0) (by decide) (.number 4)).print t⟩
  simp [hload, run_printConstant hconstant htext]

/-- Printing an operand prints its value. -/
theorem printLines_of_fits (statement : Text) {operand : Operand} {v : Value} (hfits : v.fits operand.ty) :
    ∃ ls, printLines statement operand = some ls ∧ ∀ w d, Mirrors code T lead w d → Holds code d operand v →
      ∃ d', runLines o code ls d = some d' ∧ Mirrors code T lead (w.print v.display) d' := by
  cases hty : operand.ty <;> rw [hty] at hfits <;> cases v <;> cases hfits <;> simp only [printLines, hty]
  · exact ⟨_, rfl, fun w d => run_printNumber⟩
  · exact ⟨_, rfl, fun w d => run_printNumber⟩
  · exact ⟨_, rfl, fun w d => run_printText⟩

theorem run_lineEndLines (hT : Linked code T N) {w : World} {d : Data} (hd : Mirrors code T lead w d) :
    ∃ d', runLines o code lineEndLines d = some d' ∧ Mirrors code T lead (w.print "\n") d' := by
  have hend : unescape (Text.ofString "\\n").bytes = (Text.ofString "\n").bytes := by decide
  have hset := (hd.set (r := .a0) (by decide) (.address .lineEnd)).set (r := .v0) (by decide) (.number 4)
  refine ⟨_, ?_, hset.print "\n"⟩
  simp [lineEndLines, Line.run, Instr.exec, hT.lineEnd, run_printConstant hT.lineEnd hend]

/-! ## Parts of statements -/

namespace Situated

variable {s : GenState} {n : Nat}

theorem growsFrom {x : Extent} {c : Code x} (h : Situated T N c s n) (hN : N < 2 ^ 32) : Grows s.table T n N :=
  (c.tally_lower h.valid s h.names h.typed h.plain (Nat.lt_of_le_of_lt h.le hN) h.tally).2.trans h.grows
    (Nat.le_add_right _ _) h.le

/-- A condition that is lowered in `s₁`, and the action behind it that is lowered in `s₂`. -/
theorem guarded {condition : Expr .expression} {action : Stmt} {s₁ s₂ : GenState}
    (hcondition : HasType s₁.table.env condition .logical) (haction : Typed s₁.table.env action)
    (hv : action.Valid) (hs : action.Scoped s₁.table.env)
    (hp : condition.Plain s₁.table.env ∧ action.Plain s₁.table.env) (htally : Tally s₁.frame s₁.table n) (hframe : s₂.frame = (condition.lower s₁).state.frame)
    (htable : s₂.table = s₁.table) (hle : n + condition.slots + action.slots ≤ N)
    (hgrows : Grows (action.lower s₂).state.table T (n + condition.slots + action.slots) N) (hN : N < 2 ^ 32) :
    Stands T N condition .logical s₁ n ∧ Situated T N action s₂ (n + condition.slots) := by
  have htally' := condition.tally_lower s₁ hcondition hp.1 htally
  rw [condition.table_lower, ← htable, ← hframe] at htally'
  have hinner : Situated T N action s₂ (n + condition.slots) :=
    { valid := hv
      names := htable ▸ hs
      typed := htable ▸ haction
      plain := htable ▸ hp.2
      tally := htally'
      le := hle
      grows := hgrows }
  -- between the condition and the end of the program only the action and what follows declare anything
  have hrest : Grows s₁.table T (n + condition.slots) N := htable ▸ hinner.growsFrom hN
  exact ⟨⟨hcondition, hp.1, htally, Nat.le_of_add_right_le hle, hrest⟩, hinner⟩

theorem ifThen {opening middle : Token} {condition : Expr .expression} {action : Stmt}
    (h : Situated T N (.ifThen opening condition middle action) s n) (hN : N < 2 ^ 32) :
    Stands T N condition .logical s n ∧
      Situated T N action { (condition.lower s).state with labels := (condition.lower s).state.labels + 1 }
        (n + condition.slots) := by
  cases h.typed with
  | ifThen hcondition haction =>
    have hgrows := h.grows
    have hle := h.le
    simp only [Code.lower, state_bind, state_enter, state_conditional, Code.slots, ← Nat.add_assoc] at hgrows hle
    exact guarded hcondition haction h.valid.2.2.2 h.names.2 h.plain h.tally rfl (condition.table_lower s) hle hgrows hN

theorem whileDo {opening middle : Token} {condition : Expr .expression} {action : Stmt}
    (h : Situated T N (.whileDo opening condition middle action) s n) (hN : N < 2 ^ 32) :
    Stands T N condition .logical { s with labels := s.labels + 2 } n ∧
      Situated T N action (condition.lower { s with labels := s.labels + 2 }).state (n + condition.slots) := by
  cases h.typed with
  | whileDo hcondition haction =>
    have hgrows := h.grows
    have hle := h.le
    simp only [Code.lower, state_bind, state_enter, state_loop, Code.slots, ← Nat.add_assoc] at hgrows hle
    exact guarded hcondition haction h.valid.2.2.2 h.names.2 h.plain h.tally rfl (condition.table_lower _) hle hgrows hN

theorem assign {target sign : Token} {value : Expr .expression} {d : Binding} {v : Variable}
    (h : Situated T N (.assign target sign value) s n) (hd : s.table.env.find? target.value = some d)
    (hv : s.table.resolve target.value = .ok v) :
    Stands T N value d.ty { s with current := .inFrame v.ty v.offset } n := by
  cases h.typed with
  | assign hd' hvalue =>
    rw [hd] at hd'
    cases hd'
    have hgrows := h.grows
    simp only [Code.lower, state_bind, state_enter, state_assignment hv, Expr.table_lower] at hgrows
    exact ⟨hvalue, h.plain, h.tally, h.le, hgrows⟩

theorem write {keyword opening closing : Token} {value : Expr .expression}
    (h : Situated T N (.write keyword opening value closing) s n) : ∃ τ, Stands T N value τ s n := by
  cases h.typed with
  | @write _ _ _ _ _ τ hvalue =>
    have hgrows := h.grows
    simp only [Code.lower, state_bind, state_enter, state_write, Expr.table_lower] at hgrows
    exact ⟨τ, hvalue, h.plain, h.tally, h.le, hgrows⟩

theorem block {opening closing : Token} {inside : Body} (h : Situated T N (.block opening inside closing) s n) :
    Situated T N inside { s with table := s.table.enter } n := by
  have henter := SymbolTable.env_enter s.table
  cases h.typed with
  | block hinside =>
    have hgrows := h.grows
    simp only [Code.lower, state_bind, state_enter, state_block] at hgrows
    exact {
      valid := h.valid.2.1
      names := by rw [henter]; exact h.names
      typed := by rw [henter]; exact hinside
      plain := by rw [henter]; exact h.plain
      tally := h.tally.enter
      le := h.le
      grows :=
        { keeps := fun c v hv => hgrows.keeps c v (SymbolTable.hasCell_leave.2 hv)
          fresh := fun c v hv => (hgrows.fresh c v hv).imp_left SymbolTable.hasCell_leave.1 } }

theorem last {c : Stmt} (h : Situated T N (.last c) s n) : Situated T N c s n := by
  cases h.typed with
  | last hc => exact ⟨h.valid.1, h.names, hc, h.plain, h.tally, h.le, h.grows⟩

theorem next {c : Stmt} {separator : Token} {rest : Body} (h : Situated T N (.next c separator rest) s n)
    (hN : N < 2 ^ 32) :
    Situated T N c s n ∧ Situated T N rest (c.lower s).state (n + c.slots) := by
  cases h.typed with
  | next hfirst hrest =>
    have hafter := c.env_lower h.valid.1 s h.names.1
    have hgrows := h.grows
    have hle := h.le
    simp only [Code.lower, state_bind, state_expect, Code.slots, ← Nat.add_assoc] at hgrows hle
    obtain ⟨htally, _⟩ := c.tally_lower h.valid.1 s h.names.1 hfirst h.plain.1 (by omega) h.tally
    have hsecond : Situated T N rest (c.lower s).state (n + c.slots) :=
      { valid := h.valid.2.2
        names := by rw [hafter]; exact h.names.2
        typed := by rw [hafter]; exact hrest
        plain := by rw [hafter]; exact h.plain.2
        tally := htally
        le := hle
        grows := hgrows }
    have hgrows' := hsecond.growsFrom hN
    exact ⟨⟨h.valid.1, h.names.1, hfirst, h.plain.1, h.tally, Nat.le_of_add_right_le hle, hgrows'⟩, hsecond⟩

end Situated

/-! ## Statements -/

/-- From data that mirror `w`, the machine runs through the lines `ls`, and then mirrors `w'`. -/
def Follows (o : Overflow) (code : List Line) (T : SymbolTable) (lead : Text) (ls : List Line) (w w' : World) : Prop :=
  ∀ pc d, CodeAt code pc ls → Mirrors code T lead w d →
    ∃ d', Reaches o code (.running pc d) (.running (pc + ls.length) d') ∧ Mirrors code T lead w' d'

theorem Follows.nil (w : World) : Follows o code T lead [] w w := fun _ d _ hd => ⟨d, .refl, hd⟩

theorem Follows.append {ls ls' : List Line} {w w' w'' : World} (h : Follows o code T lead ls w w')
    (h' : Follows o code T lead ls' w' w'') : Follows o code T lead (ls ++ ls') w w'' := by
  intro pc d hcode hd
  obtain ⟨d₁, hfirst, hd₁⟩ := h pc d hcode.left hd
  obtain ⟨d₂, hsecond, hd₂⟩ := h' (pc + ls.length) d₁ hcode.right hd₁
  rw [List.length_append, ← Nat.add_assoc]
  exact ⟨d₂, hfirst.trans hsecond, hd₂⟩

theorem follows_assign {target sign : Token} {value : Expr .expression} {s : GenState} {n : Nat} {w : World}
    {b : Binding} {v : Value} (hT : Linked code T N) (h : Situated T N (.assign target sign value) s n)
    (hb : s.table.env.find? target.value = some b) (hv : value.eval o s.table.env w.store = some v) :
    Follows o code T lead ((Code.assign target sign value).lower.lines s) w (w.assign b.cell v) := by
  obtain ⟨var, hres, hty, scope, hscope, hid, hat⟩ := SymbolTable.resolve_of_find? hb
  have hcell : T.HasCell b.cell var :=
    (h.growsFrom hT.bound).keeps _ _ ⟨scope, List.mem_append_left _ hscope, hid, hat⟩
  have hvalue := h.assign hb hres
  intro pc d hcode hd
  simp only [Code.lower, lines_bind, lines_enter, state_enter, List.nil_append] at hcode ⊢
  rw [lines_assignment hres _ (by rw [hty]; exact Expr.current_ty hvalue.typed rfl)] at hcode ⊢
  obtain ⟨d₁, hreach, hd₁, hholds⟩ := hvalue.reaches hT hcode.left hd hv
  obtain ⟨c, hc, hstore⟩ := run_copy (o := o) hholds hd₁.base "assignment" var.offset
  rw [List.length_append, ← Nat.add_assoc]
  exact ⟨_, hreach.trans (hcode.right.reaches hstore), (hd₁.set (r := .t0) (by decide) c).assign hT hcell hc⟩

theorem follows_read {keyword opening tok closing : Token} {s : GenState} {n : Nat} {w : World} {b : Binding} {a : Word}
    {rest : List Word} (hT : Linked code T N) (h : Situated T N (.read keyword opening (some tok) closing) s n)
    (hb : s.table.env.find? tok.value = some b) (hinput : w.input = a :: rest) :
    Follows o code T lead ((Code.read keyword opening (some tok) closing).lower.lines s) w
      ({ w with input := rest }.assign b.cell (.number a)) := by
  obtain ⟨var, hres, hty, scope, hscope, hid, hat⟩ := SymbolTable.resolve_of_find? hb
  have hcell : T.HasCell b.cell var :=
    (h.growsFrom hT.bound).keeps _ _ ⟨scope, List.mem_append_left _ hscope, hid, hat⟩
  cases h.typed with
  | read hb' hinteger =>
    rw [hb] at hb'
    cases hb'
    intro pc d hcode hd
    simp only [Code.lower, lines_bind, lines_enter, state_enter, List.nil_append] at hcode ⊢
    rw [lines_read hres (hty.trans hinteger)] at hcode ⊢
    have hread : runLines o code (call .readInt) d =
        some (((d.set .v0 (.number 5)).setInput rest).set .v0 (.number a)) :=
      run_call (by simp [Service.serve, Service.code, hd.input, hinput])
    have htaken : Mirrors code T lead { w with input := rest }
        (((d.set .v0 (.number 5)).setInput rest).set .v0 (.number a)) :=
      { base := by simpa using hd.base
        cells := hd.cells
        input := rfl
        output := hd.output }
    refine ⟨_, hcode.reaches ?_, htaken.assign hT hcell rfl⟩
    simp [hread, Line.run, Instr.exec, hd.base]

theorem follows_write {keyword opening closing : Token} {value : Expr .expression} {s : GenState} {n : Nat} {w : World}
    {v : Value} (hT : Linked code T N) (h : Situated T N (.write keyword opening value closing) s n)
    (hv : value.eval o s.table.env w.store = some v) :
    Follows o code T lead ((Code.write keyword opening value closing).lower.lines s) w
      (w.print (v.display ++ if keyword.value = "writeln" then "\n" else "")) := by
  obtain ⟨τ, hvalue⟩ := h.write
  have hfits := (hvalue.typed.regular hvalue.plain).fits_eval hv
  rw [← Expr.current_ty hvalue.typed rfl] at hfits
  obtain ⟨ls, hls, hprint⟩ := @printLines_of_fits o code T lead
    (if keyword.value = "writeln" then "writeln" else "write") _ _ hfits
  simp only [Code.lower, lines_bind, lines_enter, state_enter, List.nil_append]
  rw [lines_write _ hls]
  intro pc d hcode hd
  obtain ⟨d₁, hreach, hd₁, hholds⟩ := hvalue.reaches hT hcode.left hd hv
  obtain ⟨d₂, hrun, hd₂⟩ := hprint w d₁ hd₁ hholds
  by_cases hk : keyword.value = "writeln"
  · -- behind the value the line is ended
    obtain ⟨d₃, hend, hd₃⟩ := run_lineEndLines (o := o) hT hd₂
    simp only [hk, if_true] at hcode ⊢
    rw [List.length_append, ← Nat.add_assoc]
    refine ⟨d₃, hreach.trans (hcode.right.reaches ?_), ?_⟩
    · simp [hrun, hend]
    · simpa [World.print, Text.append_assoc] using hd₃
  · simp only [hk, if_false, List.append_nil] at hcode ⊢
    rw [List.length_append, ← Nat.add_assoc]
    refine ⟨d₂, hreach.trans (hcode.right.reaches hrun), ?_⟩
    simpa [World.print, Text.append_empty] using hd₂

/-- The lines of a condition lead behind them, with a number in an operand. -/
def Tests (o : Overflow) (code : List Line) (T : SymbolTable) (lead : Text) (ls : List Line) (operand : Operand)
    (w : World) (a : Word) : Prop :=
  ∀ pc d, CodeAt code pc ls → Mirrors code T lead w d →
    ∃ d', Reaches o code (.running pc d) (.running (pc + ls.length) d') ∧ Mirrors code T lead w d' ∧
      Holds code d' operand (.number a)

section Guarded

variable {condition action : List Line} {operand : Operand} {w w' : World} {a : Word} {remark : Text}

/-- A conditional passes its action where the number is zero. -/
theorem follows_conditional (hT : Linked code T N) {skip : Label}
    (hc : Tests o code T lead condition operand w a) (hzero : a = 0 → w' = w)
    (hnonzero : a ≠ 0 → Follows o code T lead action w w') :
    Follows o code T lead (condition ++ ([Line.comment remark, .instr (.load .t0 operand.place.offset),
      .instr (.branchIfZero .t0 skip)] ++ (action ++ [Line.label skip]))) w w' := by
  intro pc d hcode hd
  obtain ⟨d₁, hreach, hd₁, hholds⟩ := hc pc d hcode.left hd
  have hguard := hcode.right.left
  have hlabel := hcode.right.right.right.head
  have hbranch := reaches_guard (o := o) hguard.tail hd₁.base hholds (target?_of_codeAt hT.unambiguous hlabel)
  have htest := (hreach.tail (CodeAt.step_of_run hguard.head (Line.run_comment remark d₁))).trans hbranch
  have hd₂ := hd₁.set (r := .t0) (by decide) (.number a)
  simp only [List.length_append, List.length_cons, List.length_nil, ← Nat.add_assoc] at hlabel htest ⊢
  by_cases ha : a = 0
  · rw [if_pos ha] at htest
    rw [hzero ha]
    exact ⟨_, htest.tail (CodeAt.step_of_run hlabel (Line.run_label skip _)), hd₂⟩
  · rw [if_neg ha] at htest
    obtain ⟨d₃, haction, hd₃⟩ := hnonzero ha _ _ hcode.right.right.left hd₂
    exact ⟨d₃, (htest.trans haction).tail (CodeAt.step_of_run hlabel (Line.run_label skip _)), hd₃⟩

/-- A loop passes its action where the number is zero, and otherwise starts again behind it. -/
theorem follows_loop (hT : Linked code T N) {top bottom : Label} {loop : List Line}
    (hloop : loop = [Line.comment remark, .label top] ++ (condition ++ ([Line.instr (.load .t0 operand.place.offset),
      .instr (.branchIfZero .t0 bottom)] ++ (action ++ [Line.instr (.jump top), .label bottom]))))
    (hc : Tests o code T lead condition operand w a) (hzero : a = 0 → w' = w)
    (hnonzero : a ≠ 0 → ∃ w₁, Follows o code T lead action w w₁ ∧ Follows o code T lead loop w₁ w') :
    Follows o code T lead loop w w' := by
  intro pc d hcode hd
  have hagain := hcode
  rw [hloop] at hcode
  have hstart := hcode.left
  have hguard := hcode.right.right.left
  have hback := hcode.right.right.right.right
  obtain ⟨d₁, hreach, hd₁, hholds⟩ := hc _ d hcode.right.left hd
  have hbranch := reaches_guard (o := o) hguard hd₁.base hholds (target?_of_codeAt hT.unambiguous hback.tail.head)
  have hd₂ := hd₁.set (r := .t0) (by decide) (.number a)
  have hfirst : ∀ d, step o code (.running pc d) = some (.running (pc + 1) d) := fun d =>
    CodeAt.step_of_run hstart.head (Line.run_comment remark d)
  have htop : step o code (.running (pc + 1) d) = some (.running (pc + 2) d) :=
    CodeAt.step_of_run hstart.tail.head (Line.run_label top d)
  have hentry : Reaches o code (.running pc d) (.running (pc + 2) d) := .head (hfirst d) (.single htop)
  have htest := hentry.trans (hreach.trans hbranch)
  -- the loop is as long as its four parts, so that its end is the line behind the label at the bottom
  have hlength : pc + loop.length = pc + 2 + condition.length + 2 + action.length + 1 + 1 := by
    simp only [hloop, List.length_append, List.length_cons, List.length_nil]
    omega
  by_cases ha : a = 0
  · rw [if_pos ha] at htest
    rw [hzero ha, hlength]
    exact ⟨_, htest.tail (CodeAt.step_of_run hback.tail.head (Line.run_label bottom _)), hd₂⟩
  · rw [if_neg ha] at htest
    obtain ⟨w₁, haction, hrest⟩ := hnonzero ha
    obtain ⟨d₃, hbody, hd₃⟩ := haction _ _ hcode.right.right.right.left hd₂
    obtain ⟨d₄, hrun, hd₄⟩ := hrest pc d₃ hagain hd₃
    -- the jump leads to the line behind the start, where the start leads too
    have hjump := reaches_jump (o := o) (d := d₃) hback.head (target?_of_codeAt hT.unambiguous hstart.tail.head)
    have hne : Machine.running pc d₃ ≠ .running (pc + loop.length) d₄ := by
      simp only [ne_eq, Machine.running.injEq, not_and]
      omega
    exact ⟨d₄, ((htest.trans hbody).trans hjump).trans (hrun.after_step hne (hfirst d₃)), hd₄⟩

end Guarded

/-- The code of a statement follows every complete run of it. -/
theorem Exec.follows {Γ : Env} {x : Extent} {c : Code x} {w w' : World} (h : Exec o Γ c w w') (hT : Linked code T N)
    {s : GenState} {n : Nat} (hΓ : s.table.env = Γ) (hs : Situated T N c s n) :
    Follows o code T lead (c.lower.lines s) w w' := by
  induction h generalizing s n with
  | empty => exact .nil _
  | declare =>
    simp only [Code.lower, lines_bind, lines_enter, lines_declaration]
    exact .nil _
  | assign hd hv =>
    subst hΓ
    exact follows_assign hT hs hd hv
  | ifTrue hv ha _ ih =>
    subst hΓ
    obtain ⟨hcondition, haction⟩ := hs.ifThen hT.bound
    simp only [Code.lower, lines_bind, lines_enter, state_enter, List.nil_append, lines_conditional]
    refine follows_conditional hT (fun pc d hcode hd => hcondition.reaches hT hcode hd hv) (fun hz => absurd hz ha) ?_
    exact fun _ => ih (by simp) haction
  | ifFalse hv =>
    subst hΓ
    obtain ⟨hcondition, haction⟩ := hs.ifThen hT.bound
    simp only [Code.lower, lines_bind, lines_enter, state_enter, List.nil_append, lines_conditional]
    exact follows_conditional hT (fun pc d hcode hd => hcondition.reaches hT hcode hd hv) (fun _ => rfl)
      fun hne => absurd rfl hne
  | whileTrue hv ha _ _ iha ihl =>
    subst hΓ
    obtain ⟨hcondition, haction⟩ := hs.whileDo hT.bound
    -- the rest of the run is one of the same statement, lowered in the same state
    have hrest := ihl rfl hs
    simp only [Code.lower, lines_bind, lines_enter, state_enter, List.nil_append, lines_loop] at hrest ⊢
    refine follows_loop hT rfl (fun pc d hcode hd => hcondition.reaches hT hcode hd hv) (fun hz => absurd hz ha) ?_
    exact fun _ => ⟨_, iha (by simp) haction, hrest⟩
  | whileFalse hv =>
    subst hΓ
    obtain ⟨hcondition, haction⟩ := hs.whileDo hT.bound
    simp only [Code.lower, lines_bind, lines_enter, state_enter, List.nil_append, lines_loop]
    exact follows_loop hT rfl (fun pc d hcode hd => hcondition.reaches hT hcode hd hv) (fun _ => rfl)
      fun hne => absurd rfl hne
  | block _ ih =>
    subst hΓ
    simp only [Code.lower, lines_bind, lines_enter, state_enter, List.nil_append, lines_block]
    exact ih (SymbolTable.env_enter s.table) hs.block
  | read hd hinput =>
    subst hΓ
    exact follows_read hT hs hd hinput
  | write hv =>
    subst hΓ
    exact follows_write hT hs hv
  | done => exact .nil _
  | last _ ih => exact ih hΓ hs.last
  | next _ _ ihs ihr =>
    subst hΓ
    obtain ⟨hfirst, hrest⟩ := hs.next hT.bound
    simp only [Code.lower, lines_bind, lines_expect, state_expect, List.nil_append]
    exact (ihs rfl hfirst).append (ihr (Code.env_lower _ hfirst.valid s hfirst.names) hrest)

end AlgolMips
