import AlgolMips.Proofs.Layout

/-!
# Links between lines

Lines refer to labels: a branch to the end of what it skips, a jump to the start of a loop, a load of an address to a
string constant. `Linked before ls after` says that every reference of the lines `ls` is to a line on the right side of
it, where `before` stands in front of them and `after` behind them; it also keeps apart the operations that refer to
labels from those that work on registers.

A lowering links its lines whatever the program is (`Code.links_lower`). What it carries along is the current operand: a
string constant is put down where it is met, and its label may be loaded long after, also by a statement that reports a
fault in between. So the operand is always placed in the lines so far (`Operand.Placed`).
-/

namespace AlgolMips

open Gen Mips

namespace Mips

/-! ## Lines -/

/-- The operations that work on registers alone. -/
def Op.onRegisters : List Op :=
  [.add, .sub, .or, .and, .mult, .div, .mfhi, .mflo, .slt, .sgt, .seq, .sne, .not]

/-- The labels of the fixed strings. -/
def fixedLabels : List Label := fixedStrings.map Prod.fst

/-- What a line between others needs of them. A branch leads to a later label, a jump to an earlier one, and an address
is that of an earlier constant or of a fixed string. Labels are numbered, or those of the lines around a program. -/
def Line.Linked (before after : List Line) : Line → Prop
  | label l => l = .main ∨ ∃ n, l = .generated n
  | asciiz l _ _ => (∃ n, l = .generated n) ∨ l ∈ fixedLabels
  | instr (.branchIfZero _ l) => ∃ n, l = .generated n ∧ label l ∈ after
  | instr (.jump l) => ∃ n, l = .generated n ∧ label l ∈ before
  | instr (.loadAddr _ l) => (∃ n v, l = .generated n ∧ asciiz l 0 v ∈ before) ∨ l ∈ fixedLabels
  | instr (.op3 op _ _ _) | instr (.op2 op _ _) | instr (.op1 op _) => op ∈ Op.onRegisters
  | verbatim _ => False
  | _ => True

/-- Lines have what they need, where some lines stand before them and some after them. -/
def Linked (before : List Line) : List Line → List Line → Prop
  | [], _ => True
  | x :: ls, after => x.Linked before (ls ++ after) ∧ Linked (before ++ [x]) ls after

@[simp] theorem linked_nil (before after : List Line) : Linked before [] after := trivial

@[simp] theorem linked_cons (before : List Line) (x : Line) (ls after : List Line) :
    Linked before (x :: ls) after ↔ x.Linked before (ls ++ after) ∧ Linked (before ++ [x]) ls after := .rfl

@[simp] theorem linked_append (before ls ls' after : List Line) :
    Linked before (ls ++ ls') after ↔ Linked before ls (ls' ++ after) ∧ Linked (before ++ ls) ls' after := by
  induction ls generalizing before with
  | nil => simp
  | cons x ls ih => simp [ih, and_assoc]

/-- Each of some linked lines has what it needs in the lines around it. -/
theorem Linked.getElem? {before ls after : List Line} (h : Linked before ls after) {i : Nat} {x : Line}
    (hx : ls[i]? = some x) : x.Linked (before ++ ls.take i) (ls.drop (i + 1) ++ after) := by
  induction ls generalizing before i with
  | nil => simp at hx
  | cons y ls ih =>
    cases i with
    | zero =>
      cases hx
      simpa using h.1
    | succ i => simpa using ih h.2 (by simpa using hx)

/-- A line has what it needs wherever it stands. -/
def Line.Free (x : Line) : Prop := ∀ before after, x.Linked before after

theorem linked_of_free {ls : List Line} (h : ∀ x ∈ ls, x.Free) (before after : List Line) :
    Linked before ls after := by
  induction ls generalizing before with
  | nil => trivial
  | cons x ls ih =>
    rw [List.forall_mem_cons] at h
    exact ⟨h.1 _ _, ih h.2 _⟩

end Mips

/-! ## Walks -/

/-- The label of an operand is that of a constant placed before. -/
def Operand.Placed (before : List Line) (d : Operand) : Prop :=
  ∀ l, d.place = .label l → ∃ n v, l = .generated n ∧ Line.asciiz l 0 v ∈ before

theorem Operand.placed_inFrame (before : List Line) (ty : Ty) (offset : Int64) :
    (Operand.inFrame ty offset).Placed before := nofun

theorem Operand.Placed.append {before : List Line} {d : Operand} (h : d.Placed before) (ls : List Line) :
    d.Placed (before ++ ls) := by
  intro l hl
  obtain ⟨n, v, hn, hmem⟩ := h l hl
  exact ⟨n, v, hn, List.mem_append_left _ hmem⟩

/-- Behind some lines a walk leaves lines that are linked, and an operand whose label is known. -/
def Gen.Links {α : Type} (m : Gen α) (s : GenState) (before : List Line) : Prop :=
  (∀ after, Linked before (m.lines s) after) ∧ (m s).state.current.Placed (before ++ m.lines s)

namespace Gen

variable {α β : Type} {s : GenState} {before : List Line}

theorem Links.bind {m : Gen α} {f : α → Gen β} (h : m.Links s before)
    (hf : (f (m s).value).Links (m s).state (before ++ m.lines s)) : (m >>= f).Links s before := by
  constructor
  · intro after
    rw [lines_bind, linked_append]
    exact ⟨h.1 _, hf.1 _⟩
  · rw [lines_bind, state_bind, ← List.append_assoc]
    exact hf.2

/-- A step without lines is passed over. -/
theorem Links.skip {m : Gen α} {f : α → Gen β} (hl : m.lines s = [])
    (hf : (f (m s).value).Links (m s).state before) : (m >>= f).Links s before := by
  constructor
  · intro after
    rw [lines_bind, hl]
    exact hf.1 after
  · rw [lines_bind, state_bind, hl]
    exact hf.2

theorem links_of_none {m : Gen α} (hl : m.lines s = []) (hc : (m s).state.current = s.current)
    (h : s.current.Placed before) : m.Links s before := by
  rw [Links, hl, hc, List.append_nil]
  exact ⟨fun _ => trivial, h⟩

theorem links_emit {ls : List Line} (hl : ∀ after, Linked before ls after) (h : s.current.Placed before) :
    (emit ls).Links s before := by
  rw [Links, lines_emit]
  exact ⟨hl, h.append ls⟩

theorem links_setCurrent {d : Operand} (h : d.Placed before) : (setCurrent d).Links s before := by
  rw [Links, lines_setCurrent, List.append_nil]
  exact ⟨fun _ => trivial, h⟩

theorem links_binary {remark : Text} {left right : Operand} {code : List Instr} {result : Ty}
    (hc : ∀ i ∈ code, (Line.instr i).Free) : (binary remark left right code result).Links s before := by
  constructor
  · intro after
    rw [lines_binary]
    refine linked_of_free (fun x hx => ?_) _ _
    simp only [operatorLines, List.cons_append, List.nil_append, List.mem_cons, List.mem_append, List.mem_map,
      List.not_mem_nil, or_false] at hx
    rcases hx with rfl | rfl | rfl | ⟨i, hi, rfl⟩ | rfl
    · exact fun _ _ => trivial
    · exact fun _ _ => trivial
    · exact fun _ _ => trivial
    · exact hc i hi
    · exact fun _ _ => trivial
  · exact Operand.placed_inFrame _ _ _

theorem links_report {tok : Token} {f : Fault} (h : s.current.Placed before) : (report tok f).Links s before :=
  links_of_none rfl rfl h

/-- The instructions of an operator work on registers. -/
theorem free_operation (operation : Operation) : ∀ i ∈ operation.instrs, (Line.instr i).Free := by
  have hall : ∀ i ∈ operatorInstrs, (Line.instr i).Free := by
    simp only [operatorInstrs, List.forall_mem_cons, List.not_mem_nil, false_implies, implies_true, Line.Free, Line.Linked,
      forall_const]
    decide
  exact fun i hi => hall i (operation.mem_operatorInstrs i hi)

theorem links_add {op : Token} {left right : Operand} (h : s.current.Placed before) :
    (add op left right).Links s before := by
  unfold add
  split
  · exact links_binary (free_operation (.sum op.value))
  · exact links_report h

theorem links_mul {op : Token} {left right : Operand} (h : s.current.Placed before) :
    (mul op left right).Links s before := by
  unfold mul
  split
  · exact links_binary (free_operation (.product op.value))
  · exact links_report h

/-- A comparison that is not made brings the left operand back. -/
theorem links_compare {op : Token} {left right : Operand} (hleft : left.Placed before) (h : s.current.Placed before) :
    (Gen.compare op left right).Links s before := by
  unfold Gen.compare
  split
  · exact links_setCurrent hleft
  · split
    · exact links_report h
    · exact links_binary (free_operation (.comparison op.value))

theorem links_negate {op : Token} {d : Operand} (h : s.current.Placed before) : (negate op d).Links s before := by
  unfold negate
  split
  · exact links_report h
  · refine links_emit (fun after => ?_) h
    simp [Line.Linked, Op.onRegisters]

theorem links_literal {lexeme : Text} : (literal lexeme).Links s before := by
  by_cases hty : Ty.ofLiteral lexeme = .string
  · rw [Links, (literal_string hty).1, (literal_string hty).2]
    refine ⟨fun after => ?_, ?_⟩
    · simp [inlineString, Line.Linked]
    · rintro l ⟨⟩
      exact ⟨_, _, rfl, List.mem_append_right _ (List.mem_cons_of_mem _ List.mem_cons_self)⟩
  · rw [Links, (literal_immediate hty).1, (literal_immediate hty).2]
    exact ⟨fun after => by simp [Line.Linked], Operand.placed_inFrame _ _ _⟩

theorem links_reference {tok : Token} (h : s.current.Placed before) : (reference tok).Links s before := by
  cases hres : s.table.resolve tok.value with
  | error e =>
    refine links_of_none ?_ ?_ h <;> simp [reference, hres]
  | ok v =>
    rw [Links, (reference_ok hres).1, (reference_ok hres).2.2]
    exact ⟨fun _ => trivial, Operand.placed_inFrame _ _ _⟩

end Gen

theorem Expr.links_lower {l : Level} (e : Expr l) {s : GenState} {before : List Line} (h : s.current.Placed before) :
    e.lower.Links s before := by
  induction e generalizing s before with
  | add left op right ihl ihr =>
    have hl := ihl h
    exact hl.bind (.skip rfl ((ihr hl.2).bind (.skip rfl (links_add (ihr hl.2).2))))
  | term e ih => exact .skip rfl (ih h)
  | mul left op right ihl ihr =>
    have hl := ihl h
    exact hl.bind (.skip rfl ((ihr hl.2).bind (.skip rfl (links_mul (ihr hl.2).2))))
  | relation e ih => exact .skip rfl (ih h)
  | compare left op right ihl ihr =>
    have hl := ihl h
    exact .skip rfl (hl.bind (.skip rfl ((ihr hl.2).bind (.skip rfl (links_compare (hl.2.append _) (ihr hl.2).2)))))
  | factor e ih => exact .skip rfl (ih h)
  | missing => exact links_of_none rfl rfl h
  | name tok => exact .skip rfl ((links_reference h).bind (links_of_none rfl rfl (links_reference h).2))
  | literal tok => exact .skip rfl links_literal
  | negation op e ih => exact .skip rfl ((ih h).bind (.skip rfl (links_negate (ih h).2)))
  | group opening e closing ih =>
    exact .skip rfl ((ih h).bind (links_of_none (by simp) (by simp) (ih h).2))

/-! ### Statements -/

namespace Gen

variable {s : GenState} {before : List Line}

theorem links_expect {k : Kind} {tok : Token} (h : s.current.Placed before) : (expect k tok).Links s before :=
  links_of_none (by simp) (by simp) h

theorem links_declaration {type name : Token} (h : s.current.Placed before) :
    (declaration type name).Links s before := by
  refine links_of_none (by simp) ?_ h
  by_cases hk : name.kind = .ident
  · rw [state_declaration hk, declare]
    split <;> rfl
  · simp [declaration, hk]

/-- An operand is loaded from its slot, or by the address of a constant placed before. -/
theorem linked_load {d : Operand} (h : d.Placed before) (r : Reg) (after : List Line) :
    (Line.instr (d.load r)).Linked before after := by
  cases hplace : d.place with
  | slot n => simp [Operand.load, hplace, Line.Linked]
  | label l =>
    simp only [Operand.load, hplace]
    exact .inl (h l hplace)

theorem links_storeIn {target : Token} {v : Variable} (h : s.current.Placed before) :
    (storeIn target v).Links s before := by
  refine .skip rfl ?_
  split
  · refine links_emit (fun after => ?_) h
    exact ⟨trivial, linked_load (h.append _) .t0 _, trivial, trivial⟩
  · exact links_report h

theorem links_assignment {target sign : Token} {value : Gen Unit}
    (hvalue : ∀ {s before}, s.current.Placed before → value.Links s before) (h : s.current.Placed before) :
    (assignment target sign value).Links s before := by
  refine .skip rfl (.skip rfl ?_)
  simp only [value_resolve, state_produce, state_resolve]
  split
  · exact .skip rfl (.skip (by simp) (hvalue (by simpa using h)))
  · have href : (reference target).Links s before := links_reference h
    have hsign : (expect .assign sign (reference target s).state).state.current.Placed
        (before ++ (reference target).lines s) := by simpa using href.2
    have hafter := hvalue hsign
    exact href.bind (.skip (by simp) (hafter.bind (links_storeIn hafter.2)))

/-- The branch leads behind the action, to a label that stands there whatever the action is. -/
theorem links_conditional {opening middle : Token} {condition action : Gen Unit}
    (hcondition : ∀ {s before}, s.current.Placed before → condition.Links s before)
    (haction : ∀ {s before}, s.current.Placed before → action.Links s before) (h : s.current.Placed before) :
    (conditional opening middle condition action).Links s before := by
  rw [Links, lines_conditional, state_conditional]
  have hc := hcondition h
  have ha := fun ls => haction (s := { (condition s).state with labels := (condition s).state.labels + 1 }) (hc.2.append ls)
  constructor
  · intro after
    simp only [linked_append]
    refine ⟨hc.1 _, ?_, (ha _).1 _, ?_⟩
    · simp [Line.Linked]
    · simp [Line.Linked]
  · simpa only [List.append_assoc] using (ha _).2.append _

/-- The branch leads behind the loop and the jump back to its start. -/
theorem links_loop {opening middle : Token} {condition action : Gen Unit}
    (hcondition : ∀ {s before}, s.current.Placed before → condition.Links s before)
    (haction : ∀ {s before}, s.current.Placed before → action.Links s before) (h : s.current.Placed before) :
    (loop opening middle condition action).Links s before := by
  rw [Links, lines_loop, state_loop]
  have hc := fun ls => hcondition (s := { s with labels := s.labels + 2 }) (h.append ls)
  have ha := fun ls ls' => haction ((hc ls).2.append ls')
  constructor
  · intro after
    simp only [linked_append]
    refine ⟨?_, (hc _).1 _, ?_, (ha _ _).1 _, ?_⟩
    · simp [Line.Linked]
    · simp [Line.Linked]
    · simp [Line.Linked]
  · simpa only [List.append_assoc] using (ha _ _).2.append _

theorem links_block {closing : Token} {inside : Gen Unit}
    (hinside : ∀ {s before}, s.current.Placed before → inside.Links s before) (h : s.current.Placed before) :
    (block closing inside).Links s before := by
  rw [Links, lines_block, state_block]
  exact hinside (s := { s with table := s.table.enter }) h

theorem links_readCurrent {keyword : Token} (h : s.current.Placed before) :
    (readCurrent keyword).Links s before := by
  refine .skip rfl ?_
  split
  · refine .skip rfl (links_emit (fun after => ?_) h)
    simp [call, callCode, Line.Linked]
  · exact links_report h

theorem links_read {keyword opening : Token} {target : Option Token} {closing : Token} (h : s.current.Placed before) :
    (read keyword opening target closing).Links s before := by
  refine .skip rfl (.skip (by simp) ?_)
  have hopen : (expect .lparen opening (produce .inout s).state).state.current.Placed before := by simpa using h
  cases target with
  | none => exact .skip rfl (links_expect hopen)
  | some tok =>
    have href : (reference tok).Links _ before := links_reference hopen
    refine href.bind ?_
    split
    · exact (links_readCurrent href.2).bind (links_expect (links_readCurrent href.2).2)
    · exact links_expect href.2

theorem linked_printLines {statement : Text} {d : Operand} {ls : List Line} (h : d.Placed before)
    (hls : printLines statement d = some ls) (after : List Line) : Linked before ls after := by
  rcases printLines_cases hls with ⟨type, -, rfl⟩ | rfl
  · simp [printLines.number, call, callCode, Line.Linked]
  · simp only [List.cons_append, List.nil_append, linked_cons]
    exact ⟨trivial, linked_load (h.append _) .a0 _, by simp [call, callCode, Line.Linked]⟩

theorem linked_lineEndLines (before after : List Line) : Linked before lineEndLines after := by
  have hfixed : Label.lineEnd ∈ fixedLabels := by decide
  simp [lineEndLines, call, callCode, Line.Linked, hfixed]

theorem links_write {keyword opening : Token} {value : Gen Unit} {closing : Token}
    (hvalue : ∀ {s before}, s.current.Placed before → value.Links s before) (h : s.current.Placed before) :
    (write keyword opening value closing).Links s before := by
  refine .skip rfl (.skip (by simp) ?_)
  have hval := hvalue (s := (expect .lparen opening (produce .inout s).state).state) (by simpa using h)
  refine hval.bind (.skip rfl (.skip rfl ?_))
  split
  · next ls hls =>
    have hprint := linked_printLines hval.2 hls
    refine Links.bind (links_emit (fun after => ?_) hval.2) (links_expect (hval.2.append _))
    split
    · exact (linked_append ..).2 ⟨hprint _, linked_lineEndLines _ _⟩
    · exact hprint after
  · exact links_expect hval.2

end Gen

theorem Code.links_lower {x : Extent} (c : Code x) {s : GenState} {before : List Line} (h : s.current.Placed before) :
    c.lower.Links s before := by
  induction c generalizing s before with
  | empty => exact links_of_none rfl rfl h
  | declare type name => exact .skip rfl (links_declaration h)
  | assign target sign value => exact .skip rfl (links_assignment value.links_lower h)
  | ifThen opening condition middle action ih => exact .skip rfl (links_conditional condition.links_lower ih h)
  | whileDo opening condition middle action ih => exact .skip rfl (links_loop condition.links_lower ih h)
  | block opening inside closing ih => exact .skip rfl (links_block ih h)
  | read keyword opening target closing => exact .skip rfl (links_read h)
  | write keyword opening value closing => exact .skip rfl (links_write value.links_lower h)
  | done => exact links_of_none rfl rfl h
  | last s ih => exact ih h
  | next s separator rest ihs ihr =>
    have hs := ihs h
    exact hs.bind (.skip (by simp) (ihr (by simpa using hs.2)))

end AlgolMips
