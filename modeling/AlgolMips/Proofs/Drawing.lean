import AlgolMips.Lowering
import AlgolMips.Proofs.Allocation
import AlgolMips.Proofs.Emission

/-!
# The session behind a lowering

A lowering works on its symbol table and its frame by the calls of a session and in no other way. The temporaries of the
session can be read off the code: they are the slots in which literals and operators store their values. `Draws` states
both for a walk, and it goes from the parts of a walk to the whole.
-/

namespace AlgolMips

open Gen Mips

/-! ## Temporaries in the code -/

/-- The comments above the code of literals and operators. -/
def resultComments : List Text := ["literal", "expression", "term", "relfactor"]

/-- The slots in which literals and operators store their values: behind each of their comments the slot of the next
store. A value may be awaited from the start. -/
def resultSlots (awaited : Bool) : List Line → List Int64
  | [] => []
  | .comment c :: rest => resultSlots (awaited || decide (c ∈ resultComments)) rest
  | .instr (.store _ offset) :: rest =>
    if awaited then offset :: resultSlots false rest else resultSlots false rest
  | _ :: rest => resultSlots awaited rest

/-- A line announces no value of a literal or an operator. -/
def Mips.Line.Plain (l : Line) : Prop := ∀ c, l = .comment c → c ∉ resultComments

theorem plain_cons_comment {c : Text} {ls : List Line} (hc : c ∉ resultComments) (h : ∀ l ∈ ls, l.Plain) :
    ∀ l ∈ Line.comment c :: ls, l.Plain := by
  refine List.forall_mem_cons.2 ⟨?_, h⟩
  rintro c ⟨⟩
  exact hc

/-- A line stores nothing and is no comment. -/
def Mips.Line.Computes (l : Line) : Prop := (∀ c, l ≠ .comment c) ∧ ∀ r offset, l ≠ .instr (.store r offset)

@[simp] theorem resultSlots_comment (awaited : Bool) (c : Text) (rest : List Line) :
    resultSlots awaited (.comment c :: rest) = resultSlots (awaited || decide (c ∈ resultComments)) rest := by
  rw [resultSlots]

@[simp] theorem resultSlots_store (awaited : Bool) (r : Reg) (offset : Int64) (rest : List Line) :
    resultSlots awaited (.instr (.store r offset) :: rest) =
      if awaited then offset :: resultSlots false rest else resultSlots false rest := by
  rw [resultSlots]

theorem resultSlots_cons (awaited : Bool) {l : Line} (h : l.Computes) (rest : List Line) :
    resultSlots awaited (l :: rest) = resultSlots awaited rest := by
  rw [resultSlots]
  · exact h.1
  · exact h.2

theorem resultSlots_plain {ls : List Line} (h : ∀ l ∈ ls, l.Plain) (after : List Line) :
    resultSlots false (ls ++ after) = resultSlots false after := by
  induction ls with
  | nil => rfl
  | cons l rest ih =>
    obtain ⟨hl, hrest⟩ := List.forall_mem_cons.1 h
    rw [List.cons_append, ← ih hrest]
    -- nothing is awaited, so a store counts as little as any other line
    by_cases hcomment : ∃ c, l = .comment c
    · obtain ⟨c, rfl⟩ := hcomment
      simp [hl c rfl]
    · by_cases hstore : ∃ r offset, l = .instr (.store r offset)
      · obtain ⟨r, offset, rfl⟩ := hstore
        simp
      · exact resultSlots_cons false ⟨fun c hc => hcomment ⟨c, hc⟩, fun r o hs => hstore ⟨r, o, hs⟩⟩ _

theorem resultSlots_computes {ls : List Line} (h : ∀ l ∈ ls, l.Computes) (after : List Line) :
    resultSlots true (ls ++ after) = resultSlots true after := by
  induction ls with
  | nil => rfl
  | cons l rest ih =>
    obtain ⟨hl, hrest⟩ := List.forall_mem_cons.1 h
    rw [List.cons_append, resultSlots_cons true hl, ih hrest]

/-! ## Walks that draw from a session -/

/-- The symbol table and the frame of a state. -/
def GenState.session (s : GenState) : Session := ⟨s.table, s.frame⟩

namespace Gen

variable {α β : Type} {s : GenState}

/-- A walk asks some calls of the session of its state, and stores in the temporaries that it is given. -/
def Draws (m : Gen α) (s : GenState) : Prop :=
  ∃ calls, (m s).state.session = s.session.run calls ∧
    ∀ after, resultSlots false (m.lines s ++ after) = s.session.temporaries calls ++ resultSlots false after

theorem Draws.bind {m : Gen α} {f : α → Gen β} (h : m.Draws s) (hf : (f (m s).value).Draws (m s).state) :
    (m >>= f).Draws s := by
  obtain ⟨first, hstate, hslots⟩ := h
  obtain ⟨second, hstate', hslots'⟩ := hf
  refine ⟨first ++ second, ?_, fun after => ?_⟩
  · rw [state_bind, hstate', hstate, Session.run_append]
  · rw [lines_bind, List.append_assoc, hslots, hslots', hstate, Session.temporaries_append, List.append_assoc]

/-- One call without a temporary, and code without results. -/
theorem draws_call {m : Gen α} (c : Call) (hstate : (m s).state.session = (s.session.perform c).2)
    (hc : (s.session.perform c).1.temporary? = none) (hl : ∀ l ∈ m.lines s, l.Plain) : m.Draws s := by
  refine ⟨[c], hstate, fun after => ?_⟩
  rw [resultSlots_plain hl]
  simp [Session.temporaries, Session.answers, hc]

/-- A step that leaves table and frame alone. -/
theorem draws_of_same {m : Gen α} (hstate : (m s).state.session = s.session) (hl : ∀ l ∈ m.lines s, l.Plain) :
    m.Draws s :=
  ⟨[], hstate, resultSlots_plain hl⟩

/-- A step without code that leaves table and frame alone. -/
theorem draws_of_none {m : Gen α} (hstate : (m s).state.session = s.session) (hl : m.lines s = []) : m.Draws s :=
  draws_of_same hstate (by simp [hl])

/-- A step without code that leaves the state alone is passed over. -/
theorem Draws.skip {m : Gen α} {f : α → Gen β} (hstate : (m s).state.session = s.session) (hl : m.lines s = [])
    (hf : (f (m s).value).Draws (m s).state) : (m >>= f).Draws s :=
  (draws_of_none hstate hl).bind hf

theorem draws_emit {ls : List Line} (hl : ∀ l ∈ ls, l.Plain) : (emit ls).Draws s :=
  draws_of_same rfl (by simpa using hl)

theorem draws_report {tok : Token} {f : Fault} : (report tok f).Draws s := draws_of_none rfl rfl

theorem draws_expect {k : Kind} {tok : Token} : (expect k tok).Draws s := draws_of_none (by simp) (by simp)

/-- A literal or an operator takes one temporary and stores its value there. -/
theorem draws_result {m : Gen α} (comment : Text) (code : List Line) {r : Reg}
    (hcomment : comment ∈ resultComments) (hcode : ∀ l ∈ code, l.Computes)
    (hl : m.lines s = .comment comment :: code ++ [.instr (.store r s.frame.next)])
    (hstate : (m s).state.session = ⟨s.table, s.frame.alloc.2⟩) : m.Draws s := by
  refine ⟨[.temporary], hstate, fun after => ?_⟩
  rw [hl, List.cons_append, List.cons_append, List.append_assoc]
  rw [resultSlots_comment, decide_eq_true hcomment, Bool.or_true, resultSlots_computes hcode]
  exact resultSlots_store true r s.frame.next after

/-! ### Expressions -/

/-- The instructions of an operator store nothing. -/
theorem computes_operation (operation : Operation) : ∀ l ∈ operation.instrs.map Line.instr, l.Computes := by
  refine List.forall_mem_map.2 fun i hi => ?_
  rcases operation.form_of_mem hi with ⟨op, a, rfl⟩ | ⟨op, a, b, rfl⟩ | ⟨op, a, b, c, rfl⟩ <;> exact ⟨nofun, nofun⟩

theorem remark_mem_resultComments (operation : Operation) : operation.remark ∈ resultComments := by
  cases operation <;> simp [Operation.remark, resultComments]

theorem draws_binary (operation : Operation) {left right : Operand} {result : Ty} :
    (binary operation.remark left right operation.instrs result).Draws s := by
  refine draws_result operation.remark
    ([.instr (.load .t0 left.place.offset), .instr (.load .t1 right.place.offset)] ++ operation.instrs.map Line.instr)
    (remark_mem_resultComments operation) ?_ (lines_binary ..) rfl
  intro l hl
  rcases List.mem_append.1 hl with hload | hinstr
  · simp only [List.mem_cons, List.not_mem_nil, or_false] at hload
    rcases hload with rfl | rfl <;> simp [Line.Computes]
  · exact computes_operation operation l hinstr

theorem draws_add {op : Token} {left right : Operand} : (add op left right).Draws s := by
  unfold add
  split
  · exact draws_binary (.sum op.value)
  · exact draws_report

theorem draws_mul {op : Token} {left right : Operand} : (mul op left right).Draws s := by
  unfold mul
  split
  · exact draws_binary (.product op.value)
  · exact draws_report

theorem draws_compare {op : Token} {left right : Operand} : (Gen.compare op left right).Draws s := by
  unfold Gen.compare
  split
  · exact draws_of_none rfl rfl
  · split
    · exact draws_report
    · exact draws_binary (.comparison op.value)

theorem draws_negate {op : Token} {d : Operand} : (negate op d).Draws s := by
  unfold negate
  split
  · exact draws_report
  · exact draws_emit (plain_cons_comment (by decide) (by simp [Line.Plain]))

theorem draws_literal {lexeme : Text} : (literal lexeme).Draws s := by
  by_cases hty : Ty.ofLiteral lexeme = .string
  · refine draws_of_same ?_ ?_
    · rw [(literal_string hty).2]
      rfl
    · rw [(literal_string hty).1]
      simp [inlineString, Line.Plain]
  · refine draws_result "literal" [.instr (.loadImm .t0 (immediate lexeme))] (by simp [resultComments])
      (by simp [Line.Computes]) (literal_immediate hty).1 ?_
    rw [(literal_immediate hty).2]
    rfl

theorem draws_reference {tok : Token} : (reference tok).Draws s := by
  cases hres : s.table.resolve tok.value with
  | error e => exact draws_of_none (by simp [reference, hres]) (by simp [reference, hres])
  | ok v => exact draws_of_none (by rw [(reference_ok hres).1]; rfl) (reference_ok hres).2.2

end Gen

theorem Expr.draws_lower {l : Level} (e : Expr l) (s : GenState) : e.lower.Draws s := by
  induction e generalizing s with
  | add left op right ihl ihr => exact (ihl _).bind (.skip rfl rfl ((ihr _).bind (.skip rfl rfl draws_add)))
  | term e ih => exact .skip rfl rfl (ih _)
  | mul left op right ihl ihr => exact (ihl _).bind (.skip rfl rfl ((ihr _).bind (.skip rfl rfl draws_mul)))
  | relation e ih => exact .skip rfl rfl (ih _)
  | compare left op right ihl ihr =>
    exact .skip rfl rfl ((ihl _).bind (.skip rfl rfl ((ihr _).bind (.skip rfl rfl draws_compare))))
  | factor e ih => exact .skip rfl rfl (ih _)
  | missing => exact draws_of_none rfl rfl
  | name tok => exact .skip rfl rfl (draws_reference.bind (draws_of_none rfl rfl))
  | literal tok => exact .skip rfl rfl draws_literal
  | negation op e ih => exact .skip rfl rfl ((ih _).bind (.skip rfl rfl draws_negate))
  | group opening e closing ih => exact .skip rfl rfl ((ih _).bind draws_expect)

/-! ### Statements -/

namespace Gen

variable {s : GenState}

/-- A declaration asks for its variable, and takes the answer as it is. -/
theorem draws_declaration {type name : Token} : (declaration type name).Draws s := by
  by_cases hk : name.kind = .ident
  · refine draws_call (.declare name (Ty.ofKeyword type.value)) ?_ ?_ (by simp)
    · rw [state_declaration hk]
      cases hd : s.table.declare s.frame name (Ty.ofKeyword type.value) <;>
        simp [declare, Session.perform, GenState.session, hd]
    · simp only [Session.perform]
      split <;> rfl
  · exact draws_of_none (by simp [declaration, hk]) (by simp)

theorem draws_storeIn {target : Token} {v : Variable} : (storeIn target v).Draws s := by
  refine .skip rfl rfl ?_
  split
  · exact draws_emit (plain_cons_comment (by decide) (by simp [Line.Plain]))
  · exact draws_report

theorem draws_assignment {target sign : Token} {value : Gen Unit} (hvalue : ∀ s, value.Draws s) :
    (assignment target sign value).Draws s := by
  refine .skip rfl rfl (.skip rfl rfl ?_)
  split
  · exact draws_report.bind (draws_expect.bind (hvalue _))
  · exact draws_reference.bind (draws_expect.bind ((hvalue _).bind draws_storeIn))

theorem draws_expectCondition {tok : Token} {g : Guarded} : (expectCondition tok g).Draws s :=
  draws_of_none (by simp) (by simp)

theorem draws_conditional {opening middle : Token} {condition action : Gen Unit} (hcondition : ∀ s, condition.Draws s)
    (haction : ∀ s, action.Draws s) : (conditional opening middle condition action).Draws s := by
  refine .skip rfl rfl ((hcondition _).bind (draws_expectCondition.bind (.skip rfl rfl (.skip rfl rfl ?_))))
  exact (draws_emit (plain_cons_comment (by decide) (by simp [Line.Plain]))).bind
    (draws_expect.bind ((haction _).bind (draws_emit (by simp [Line.Plain]))))

theorem draws_loop {opening middle : Token} {condition action : Gen Unit} (hcondition : ∀ s, condition.Draws s)
    (haction : ∀ s, action.Draws s) : (loop opening middle condition action).Draws s := by
  refine .skip rfl rfl (.skip rfl rfl (.skip rfl rfl ?_))
  refine (draws_emit (plain_cons_comment (by decide) (by simp [Line.Plain]))).bind ((hcondition _).bind ?_)
  refine draws_expect.bind (draws_expectCondition.bind (.skip rfl rfl ?_))
  exact (draws_emit (by simp [Line.Plain])).bind ((haction _).bind (draws_emit (by simp [Line.Plain])))

theorem draws_enterScope : enterScope.Draws s := draws_call .enter rfl rfl (by simp)

theorem draws_leaveScope : leaveScope.Draws s := draws_call .leave rfl rfl (by simp)

theorem draws_block {closing : Token} {inside : Gen Unit} (hinside : ∀ s, inside.Draws s) :
    (block closing inside).Draws s :=
  .skip rfl rfl (draws_enterScope.bind ((hinside _).bind (draws_expect.bind draws_leaveScope)))

theorem draws_readCurrent {keyword : Token} : (readCurrent keyword).Draws s := by
  refine .skip rfl rfl ?_
  split
  · exact .skip rfl rfl (draws_emit (plain_cons_comment (by decide) (by simp [call, callCode, Line.Plain])))
  · exact draws_report

theorem draws_read {keyword opening : Token} {target : Option Token} {closing : Token} :
    (read keyword opening target closing).Draws s := by
  refine .skip rfl rfl (draws_expect.bind ?_)
  cases target with
  | none => exact .skip rfl rfl draws_expect
  | some tok =>
    refine draws_reference.bind ?_
    split
    · exact draws_readCurrent.bind draws_expect
    · exact draws_expect

theorem plain_printLines {statement : Text} (hstatement : statement ∈ (["write", "writeln"] : List Text)) {d : Operand}
    {ls : List Line} (h : printLines statement d = some ls) : ∀ l ∈ ls, l.Plain := by
  have hall : ∀ c ∈ (["write", "writeln"] : List Text), (∀ type ∈ (["integer", "logical"] : List Text),
      c ++ " statement " ++ type ∉ resultComments) ∧ c ++ " statement string" ∉ resultComments := by decide
  obtain ⟨hnumber, hstring⟩ := hall statement hstatement
  rcases printLines_cases h with ⟨type, htype, rfl⟩ | rfl
  · exact plain_cons_comment (hnumber type htype) (by simp [call, callCode, Line.Plain])
  · exact plain_cons_comment hstring (by simp [call, callCode, Line.Plain])

theorem plain_lineEndLines : ∀ l ∈ lineEndLines, l.Plain := by
  simp [lineEndLines, call, callCode, Line.Plain]

theorem draws_write {keyword opening : Token} {value : Gen Unit} {closing : Token} (hvalue : ∀ s, value.Draws s) :
    (write keyword opening value closing).Draws s := by
  refine .skip rfl rfl (draws_expect.bind ((hvalue _).bind (.skip rfl rfl (.skip rfl rfl ?_))))
  split
  · next ls hls =>
    refine (draws_emit ?_).bind draws_expect
    have hprint : ∀ l ∈ ls, l.Plain := by
      refine plain_printLines ?_ hls
      split <;> simp
    split
    · intro l hl
      exact (List.mem_append.1 hl).elim (hprint l) (plain_lineEndLines l)
    · exact hprint
  · exact draws_expect

end Gen

theorem Code.draws_lower {x : Extent} (c : Code x) (s : GenState) : c.lower.Draws s := by
  induction c generalizing s with
  | empty => exact draws_of_none rfl rfl
  | declare type name => exact .skip rfl rfl draws_declaration
  | assign target sign value => exact .skip rfl rfl (draws_assignment value.draws_lower)
  | ifThen opening condition middle action ih => exact .skip rfl rfl (draws_conditional condition.draws_lower ih)
  | whileDo opening condition middle action ih => exact .skip rfl rfl (draws_loop condition.draws_lower ih)
  | block opening inside closing ih => exact .skip rfl rfl (draws_block ih)
  | read keyword opening target closing => exact .skip rfl rfl draws_read
  | write keyword opening value closing => exact .skip rfl rfl (draws_write value.draws_lower)
  | done => exact draws_of_none rfl rfl
  | last s ih => exact ih _
  | next s separator rest ihs ihr => exact (ihs _).bind (draws_expect.bind (ihr _))

theorem Program.draws_body (p : Program) (s : GenState) : p.body.Draws s := by
  cases p with
  | bare stop => exact .skip rfl rfl draws_expect
  | block opening inside closing stop => exact (draws_block inside.draws_lower).bind draws_expect

theorem Program.draws_lower (p : Program) (next : Token) (s : GenState) : (p.lower next).Draws s := by
  have hprolog : ∀ l ∈ prolog, l.Plain := by simp [prolog, call, callCode, Line.Plain]
  have hpostlog : ∀ l ∈ postlog, l.Plain := by simp [postlog, fixedStrings, call, callCode, Line.Plain]
  refine .skip rfl rfl (.skip rfl rfl ((draws_emit hprolog).bind ((p.draws_body _).bind ((draws_emit hpostlog).bind ?_))))
  split
  · exact draws_of_none rfl rfl
  · exact draws_of_none rfl rfl

/-- Every lowering is a session that starts fresh, and its temporaries are the slots of the results in the code. -/
theorem lower_draws (wordSize : Int64) (source : TokenSource) :
    ∃ calls, (lower wordSize source).state.session = (Session.fresh wordSize).run calls ∧
      resultSlots false (lower wordSize source).lines = (Session.fresh wordSize).temporaries calls := by
  rcases hparse : source.parse with ⟨program, rest⟩
  obtain ⟨calls, hstate, hslots⟩ := program.draws_lower (rest.headD source.eof) { frame := { wordSize } }
  have hlines := hslots []
  rw [List.append_nil] at hlines
  refine ⟨calls, ?_, ?_⟩
  · rw [lower, hparse]
    exact hstate
  · rw [lower, hparse]
    exact hlines.trans (List.append_nil _)

/-! ## Slots are handed out once -/

/-- In every session the slots are handed out by number, to variables and temporaries alike, and what is refused takes
none. Two of them are one iff their distance goes around the machine word, so fewer than `2 ^ 32` slots of a positive size
below `2 ^ 31` lie apart, each below the one before. A lowering is such a session. -/
theorem slots_handed_out_once (wordSize : Int64) :
    (∀ calls : List Call,
      let start := Session.fresh wordSize
      let slots := start.slots calls
      let table := (start.run calls).table
      let taken := ((table.active ++ table.retired).flatMap Scope.vars).map Variable.offset ++ start.temporaries calls
      (∀ (k : Nat) offset, slots[k]? = some offset → offset = Int64.ofInt (-(k * wordSize.toInt))) ∧
      (∀ c e, ((start.run calls).perform c).1 = .refused e → ((start.run calls).perform c).2 = start.run calls) ∧
      (∀ i j : Nat, i < slots.length → j < slots.length →
        (slots[i]? = slots[j]? ↔ (2 ^ 64 : Int) ∣ (i - j) * wordSize.toInt)) ∧
      taken.Perm slots ∧
      (0 < wordSize.toInt → wordSize.toInt < 2 ^ 31 → slots.length < 2 ^ 32 →
        slots.Pairwise (· > ·) ∧ taken.Nodup)) ∧
    ∀ source : TokenSource, ∃ calls, (lower wordSize source).state.session = (Session.fresh wordSize).run calls ∧
      resultSlots false (lower wordSize source).lines = (Session.fresh wordSize).temporaries calls := by
  refine ⟨fun calls => ?_, lower_draws wordSize⟩
  have hperm := Session.perm_taken wordSize calls
  refine ⟨fun k offset => Session.eq_of_getElem?_slots, fun c e => Session.perform_refused,
    fun i j => Session.getElem?_slots_inj, hperm, fun hpos hsmall hfew => ?_⟩
  have hdown := Session.pairwise_slots hpos hsmall hfew
  exact ⟨hdown, hperm.nodup_iff.2 (hdown.imp fun hlt => (Int64.ne_of_lt hlt).symm)⟩

/-- An inner declaration hides an outer one, and a third one is refused. -/
def hidingCalls : List Call :=
  [.declare (.plain .ident "x") .integer, .temporary, .enter, .declare (.plain .ident "x") .string,
    .declare (.plain .ident "X") .logical, .leave, .temporary]

theorem hidingCalls_slots_apart :
    (Session.fresh 4).slots hidingCalls = [0, -4, -8, -12] ∧
      ((Session.fresh 4).slots hidingCalls).Pairwise (· > ·) ∧
      ((((Session.fresh 4).run hidingCalls).table.active ++ ((Session.fresh 4).run hidingCalls).table.retired).flatMap
        Scope.vars |>.map Variable.offset |>.append ((Session.fresh 4).temporaries hidingCalls)).Nodup := by
  refine ⟨by decide +kernel, ?_⟩
  exact ((slots_handed_out_once 4).1 hidingCalls).2.2.2.2 (by decide) (by decide) (by decide +kernel)

end AlgolMips
