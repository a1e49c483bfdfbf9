import AlgolMips.Proofs.Correctness
import AlgolMips.Proofs.InPlace

/-!
# Values of expressions

A plain expression may be lowered in any state that a session can come to. Its code then runs straight through, from
all data whose frame pointer is set: it leaves the value of the expression in the slot of its operand and changes no slot
that was handed out before. Whether there is a value depends on the divisors that are met and, where overflows trap, on
the sums.
-/

namespace AlgolMips

open Gen Mips

/-! ## Cells along a session -/

namespace Session

theorem slots_cons (s : Session) (c : Call) (rest : List Call) :
    s.slots (c :: rest) = (s.perform c).1.slot?.toList ++ (s.perform c).2.slots rest := by
  cases h : (s.perform c).1.slot? <;> simp [slots, answers, h]

/-- A call gives the slot that it takes to at most one new cell. -/
theorem tally_perform {s : Session} {n : Nat} (h : Tally s.frame s.table n) (hn : n < 2 ^ 32) (c : Call) :
    Tally (s.perform c).2.frame (s.perform c).2.table (n + (s.perform c).1.slot?.toList.length) := by
  rcases s.perform_cases c with ⟨-, hc⟩ | ⟨-, hc⟩ | ⟨-, hc⟩ | ⟨tok, ty, v, -, -, hv, hc⟩ | ⟨-, -, hslot, -, hc⟩
  · rw [hc]
    exact h.enter
  · rw [hc]
    exact h.leave
  · simp only [hc, h.frame, Frame.alloc_slotAt]
    exact h.temporaries 1
  · have hoffset : v.offset = slotAt n := by simp [hv, h.frame, Frame.alloc]
    simp only [hc, h.frame, Frame.alloc_slotAt]
    exact h.bind hn hoffset
  · rw [hc, hslot]
    exact h

/-- Every cell of a session has a slot of its own among those handed out. -/
theorem tally_run {s : Session} {n : Nat} (h : Tally s.frame s.table n) (calls : List Call)
    (hfew : n + (s.slots calls).length < 2 ^ 32) :
    Tally (s.run calls).frame (s.run calls).table (n + (s.slots calls).length) := by
  induction calls generalizing s n with
  | nil => exact h
  | cons c rest ih =>
    rw [slots_cons, List.length_append, ← Nat.add_assoc] at hfew ⊢
    exact ih (tally_perform h (by omega) c) hfew

theorem tally_fresh (calls : List Call) (hfew : ((fresh 4).slots calls).length < 2 ^ 32) :
    Tally ((fresh 4).run calls).frame ((fresh 4).run calls).table ((fresh 4).slots calls).length := by
  have hstart : Tally (fresh 4).frame (fresh 4).table 0 := Tally.start
  have hrun := tally_run hstart calls (by rwa [Nat.zero_add])
  rwa [Nat.zero_add] at hrun

end Session

/-! ## Straight code -/

/-- A line that neither defines a label nor goes to one. -/
def Mips.Line.Straight (x : Line) : Prop :=
  x.defines? = none ∧ (∀ r l, x ≠ .instr (.branchIfZero r l)) ∧ ∀ l, x ≠ .instr (.jump l)

theorem straight_operatorLines (operation : Operation) (left right : Operand) (slot : Int64) :
    ∀ x ∈ operatorLines operation.remark left right operation.instrs slot, x.Straight := by
  have hall : ∀ i ∈ operatorInstrs, (Line.instr i).Straight := by simp [operatorInstrs, Line.Straight, Line.defines?]
  have hinstrs : ∀ i ∈ operation.instrs, (Line.instr i).Straight := fun i hi => hall i (operation.mem_operatorInstrs i hi)
  simpa [operatorLines, or_imp, forall_and, Line.Straight, Line.defines?] using hinstrs

/-- No operator takes a string. -/
theorem Operation.Takes.ne_string {operation : Operation} {ρ σ : Ty} (h : operation.Takes ρ σ) :
    ρ ≠ .string ∧ σ ≠ .string := by
  cases operation with
  | sum | product => exact ⟨h.2, h.1 ▸ h.2⟩
  | comparison => exact ⟨h.1, by rw [h.2]; decide⟩

/-- A plain expression that is no string is straight code. -/
theorem Regular.straight_lower {Γ : Env} {l : Level} {e : Expr l} {τ : Ty} (h : Regular Γ e τ) (hτ : τ ≠ .string)
    {s : GenState} (hΓ : s.table.env = Γ) : ∀ x ∈ e.lower.lines s, x.Straight := by
  induction h generalizing s with
  | @joined _ _ _ _ left right operation ρ σ hjoins htakes hl hr ihl ihr =>
    have hΓ' : (left.lower s).state.table.env = Γ := by rw [Expr.table_lower, hΓ]
    obtain ⟨hρ, hσ⟩ := Operation.Takes.ne_string htakes
    rw [(hjoins.operates htakes (hΓ ▸ hl.hasType) (hΓ ▸ hr.hasType)).1]
    simp only [List.forall_mem_append]
    exact ⟨ihl hρ hΓ, ihr hσ hΓ', straight_operatorLines operation _ _ _⟩
  | wrapped hwraps _ ih =>
    rw [hwraps.lines]
    exact ih hτ hΓ
  | name hd =>
    obtain ⟨v, hres, -⟩ := SymbolTable.resolve_of_find? (hΓ ▸ hd)
    simp [Expr.lower, reference_ok hres]
  | literal => simp [Expr.lower, (literal_immediate hτ).1, Line.Straight, Line.defines?]

theorem Regular.slotCount_eq {Γ : Env} {l : Level} {e : Expr l} {τ : Ty} (h : Regular Γ e τ) :
    e.slotCount Γ = e.slots := by
  induction h with
  | joined hjoins htakes _ hr ihl ihr => rw [hjoins.slotCount_eq htakes hr.hasType, hjoins.slots, ihl, ihr]
  | wrapped hwraps _ ih => rw [hwraps.slotCount_eq, hwraps.slots, ih]
  | name | literal => rfl

/-! ## Existence of values -/

/-- Whether a sum or a difference does not fit into a word. -/
def sumOverflows (op : Text) (a b : Word) : Bool :=
  if op = "+" then a.saddOverflow b else if op = "-" then a.ssubOverflow b else false

/-- No division by zero and, where overflows trap, no sum that overflows. -/
def Operation.Admits (o : Overflow) : Operation → Word → Word → Prop
  | sum op, a, b => o = .traps → sumOverflows op a b = false
  | product op, _, b => op ∈ (["/", "div", "rem"] : List Text) → b ≠ 0
  | comparison _, _, _ => True

/-- Every name stands for a number, and every operator admits the numbers that it meets. -/
def Expr.Defined (o : Overflow) (Γ : Env) (store : Cell → Value) : {l : Level} → Expr l → Prop
  | _, .add left op right => left.Defined o Γ store ∧ right.Defined o Γ store ∧
      ∀ a b, left.eval o Γ store = some (.number a) → right.eval o Γ store = some (.number b) →
        (Operation.sum op.value).Admits o a b
  | _, .term e => e.Defined o Γ store
  | _, .mul left op right => left.Defined o Γ store ∧ right.Defined o Γ store ∧
      ∀ a b, left.eval o Γ store = some (.number a) → right.eval o Γ store = some (.number b) →
        (Operation.product op.value).Admits o a b
  | _, .relation e => e.Defined o Γ store
  | _, .compare left _ right => left.Defined o Γ store ∧ right.Defined o Γ store
  | _, .factor e => e.Defined o Γ store
  | _, .missing => False
  | _, .name tok => ∃ w, (Expr.name tok).eval o Γ store = some (.number w)
  | _, .literal _ => True
  | _, .negation _ e => e.Defined o Γ store
  | _, .group _ e _ => e.Defined o Γ store

theorem Mips.Overflow.exists_admit_iff (o : Overflow) (overflows : Bool) (w : Word) :
    (∃ v, o.admit overflows w = some v) ↔ (o = .traps → overflows = false) := by
  cases o <;> cases overflows <;> simp [ Overflow.admit]

theorem exists_sum?_iff (o : Overflow) (op : Text) (a b : Word) :
    (∃ w, sum? o op a b = some w) ↔ (o = .traps → sumOverflows op a b = false) := by
  unfold sum? sumOverflows
  split
  · exact o.exists_admit_iff _ _
  · split
    · exact o.exists_admit_iff _ _
    · simp

theorem exists_product?_iff (op : Text) (a b : Word) :
    (∃ w, product? op a b = some w) ↔ (op ∈ (["/", "div", "rem"] : List Text) → b ≠ 0) := by
  unfold product?
  split
  · next hmul => exact iff_of_true ⟨_, rfl⟩ fun hop => absurd (hmul ▸ hop) (by decide)
  · split
    · next hdiv => rcases hdiv with rfl | rfl <;> simp
    · next hdiv =>
      obtain ⟨hslash, hdiv⟩ := not_or.1 hdiv
      split
      · next hrem => simp [hrem]
      · next hrem => simp [hslash, hdiv, hrem]

/-- An operator has a result exactly for the numbers that it admits. -/
theorem Operation.exists_apply_iff (o : Overflow) (operation : Operation) (a b : Word) :
    (∃ w, operation.apply o a b = some w) ↔ operation.Admits o a b := by
  cases operation with
  | sum op => exact exists_sum?_iff o op a b
  | product op => exact exists_product?_iff op a b
  | comparison op => exact iff_of_true ⟨_, rfl⟩ trivial

section

variable {k l m : Level} {e : Expr k} {left : Expr l} {right : Expr m} {operation : Operation} {o : Overflow} {Γ : Env}
  {store : Cell → Value}

theorem Expr.Joins.defined_iff (h : e.Joins left operation right) :
    e.Defined o Γ store ↔ left.Defined o Γ store ∧ right.Defined o Γ store ∧
      ∀ a b, left.eval o Γ store = some (.number a) → right.eval o Γ store = some (.number b) →
        operation.Admits o a b := by
  cases h with
  | add | mul => exact Iff.rfl
  | compare => exact ⟨fun hd => ⟨hd.1, hd.2, fun _ _ _ _ => trivial⟩, fun hd => ⟨hd.1, hd.2.1⟩⟩

theorem Expr.Wraps.defined_iff (h : e.Wraps left) : e.Defined o Γ store ↔ left.Defined o Γ store := by
  cases h <;> exact Iff.rfl

end

/-- A plain expression that is no string has a number as its value exactly where it is defined. -/
theorem Regular.exists_eval_iff {o : Overflow} {Γ : Env} {store : Cell → Value} {l : Level} {e : Expr l} {τ : Ty}
    (h : Regular Γ e τ) (hτ : τ ≠ .string) :
    (∃ w, e.eval o Γ store = some (.number w)) ↔ e.Defined o Γ store := by
  induction h with
  | @joined _ _ _ _ left right operation ρ σ hjoins htakes _ _ ihl ihr =>
    obtain ⟨hρ, hσ⟩ := Operation.Takes.ne_string htakes
    -- All operators are alike here: both operands must have a value, and the operator a result for these.
    rw [hjoins.eval, hjoins.defined_iff, ← ihl hρ, ← ihr hσ]
    constructor
    · rintro ⟨w, hw⟩
      obtain ⟨_, hleft, hrest⟩ := Option.bind_eq_some_iff.1 hw
      obtain ⟨_, hright, hcombine⟩ := Option.bind_eq_some_iff.1 hrest
      obtain ⟨a, b, r, rfl, rfl, hr, -⟩ := Value.combine_eq_some hcombine
      refine ⟨⟨a, hleft⟩, ⟨b, hright⟩, fun a' b' ha hb => ?_⟩
      cases hleft.symm.trans ha
      cases hright.symm.trans hb
      exact (operation.exists_apply_iff o a b).1 ⟨r, hr⟩
    · rintro ⟨⟨a, ha⟩, ⟨b, hb⟩, hadmits⟩
      obtain ⟨w, hw⟩ := (operation.exists_apply_iff o a b).2 (hadmits a b ha hb)
      exact ⟨w, by simp [ha, hb, Value.combine, hw]⟩
  | wrapped hwraps _ ih => rw [hwraps.eval, hwraps.defined_iff, ih hτ]
  | name => exact Iff.rfl
  | literal hsome =>
    obtain ⟨w, -, hw⟩ := word?_immediate hsome hτ
    exact iff_of_true ⟨w, hw⟩ trivial

/-! ## The value in its slot -/

/-- What is not changed by an expression that leaves the memory as it is: all slots but its own. -/
theorem Touches.frame_of_loaded {T : SymbolTable} {m : Memory} {n k : Nat} {d d' : Data} (h : Touches T n k d d')
    (hd : Loaded T m d) (hd' : Loaded T m d') {x : Int64} (hx : ∀ j, n ≤ j → j < k → x ≠ slotAt j) :
    d'.frame x = d.frame x := by
  by_cases hcell : ∃ c v, T.HasCell c v ∧ x = v.offset
  · obtain ⟨c, v, hv, rfl⟩ := hcell
    rw [hd'.cells c v hv, hd.cells c v hv]
  · exact h.frame x (fun c v hv heq => hcell ⟨c, v, hv, heq⟩) hx

/-- In every state that a session with slots of four bytes comes to: a plain expression of numbers is read back from its
tokens, and takes the slots that are counted for it. Its lines define no label and go to none. If it has a value, the
lines leave it in the slot of the operand and change nothing else but slots that were not handed out before. It has one
exactly where its names stand for numbers, no divisor is zero and, if overflows trap, no sum overflows. -/
theorem expression_leaves_value (calls : List Call) (s : GenState) (hs : s.session = (Session.fresh 4).run calls)
    (e : Expr .expression) (hv : e.Valid) (τ : Ty) (ht : HasType s.table.env e τ) (hτ : τ = .integer ∨ τ = .logical)
    (hp : e.Plain s.table.env) (hfew : ((Session.fresh 4).slots calls).length + e.slots < 2 ^ 32) (o : Overflow)
    (code : List Line) (d : Data) (hbase : d.get .fp = .base) :
    let before := (Session.fresh 4).slots calls
    let lines := e.lower.lines s
    let store := (s.table.contents d.frame).store
    (∀ eof rest, Parse.nextKind rest ∉ Level.expression.continuations →
      (Parse.expression eof (e.tokens ++ rest)).val = (e, rest)) ∧
    s.frame = .after 4 before.length ∧ (e.lower s).state.frame = .after 4 (before.length + e.slots) ∧
    (∀ x ∈ lines, x.Straight) ∧
    ((∃ w, e.eval o s.table.env store = some (.number w)) ↔ e.Defined o s.table.env store) ∧
    ∀ w, e.eval o s.table.env store = some (.number w) →
      ∃ d' offset, runLines o code lines d = some d' ∧
        (e.lower s).state.current = .inFrame τ offset ∧ d'.frame offset = .number w ∧
        (∀ x ∈ before, d'.frame x = d.frame x) ∧
        (∀ x, ¬ Frame.Hands 4 before.length e.slots x → d'.frame x = d.frame x) ∧
        d'.get .fp = .base ∧ d'.input = d.input ∧ d'.output = d.output ∧
        ∀ pc, CodeAt code pc lines → Reaches o code (.running pc d) (.running (pc + lines.length) d') := by
  intro before lines store
  have hregular := ht.regular hp
  have hcount := hregular.slotCount_eq
  have hstring : τ ≠ .string := by rcases hτ with rfl | rfl <;> decide
  have htally : Tally s.frame s.table before.length := by
    have hrun := Session.tally_fresh calls (by omega)
    rwa [← hs] at hrun
  have hafter := (ht.tally_lower htally).frame
  rw [hcount] at hafter
  refine ⟨fun eof rest hrest => (Parse.readsBack e hv).expression_val hrest,
    htally.frame.trans (Frame.after_four _).symm, hafter.trans (Frame.after_four _).symm,
    hregular.straight_lower hstring rfl, hregular.exists_eval_iff hstring, fun w hw => ?_⟩
  obtain ⟨x, hact, hread⟩ := hregular.act_eq hw
  have hloaded := htally.loaded hbase
  have hacts : Acts o code s.table lines _ _ _ _ x _ := ht.acting rfl htally (by rwa [hcount]) hact
  obtain ⟨d', hrun, htouches, hloaded', hat⟩ := hacts d hloaded
  obtain ⟨offset, hplace, hvalue⟩ := hat.read hloaded' (hread w rfl)
  have hkept : ∀ x, ¬ Frame.Hands 4 before.length e.slots x → d'.frame x = d.frame x := fun x hx =>
    htouches.frame_of_loaded hloaded hloaded' fun j hj hlt heq =>
      hx ⟨j, hj, hcount ▸ hlt, heq.trans (Frame.slot_four j).symm⟩
  have hcurrent : (e.lower s).state.current = .inFrame τ offset := by
    rw [Operand.inFrame, ← hplace, ← Expr.current_ty ht rfl]
  refine ⟨d', offset, hrun, hcurrent, hvalue, fun x hx => hkept x fun hands => ?_, hkept,
    htouches.base.trans hbase, htouches.input, htouches.output, fun pc hat => hat.reaches hrun⟩
  exact hands.not_mem_slots (by decide) (by decide) hfew hx

/-- `x - 6 / 4 - 1` -/
def nestedDifference : Expr .expression :=
  .add (.add (.term (.relation (.factor (.name (.plain .ident "x"))))) (.plain .addOp "-")
    (.mul (.relation (.factor (.literal (.plain .literal "6")))) (.plain .mulOp "/")
      (.factor (.literal (.plain .literal "4"))))) (.plain .addOp "-")
    (.relation (.factor (.literal (.plain .literal "1"))))

/-- With nine in `x` the value is seven. It comes to stand in the seventh slot, and `x` keeps its own. -/
theorem nestedDifference_leaves_seven :
    let calls : List Call := [.enter, .declare (.plain .ident "x") .integer]
    let session := (Session.fresh 4).run calls
    let s : GenState := { table := session.table, frame := session.frame }
    let d : Data :=
      { regs := fun _ => .base, hi := 0, lo := 0, frame := fun _ => .number 9, input := [], output := "" }
    ∃ d', runLines .traps [] (nestedDifference.lower.lines s) d = some d' ∧
      (nestedDifference.lower s).state.current = .inFrame .integer (-24) ∧ d'.frame (-24) = .number 7 ∧
      d'.frame 0 = .number 9 := by
  intro calls session s d
  have hv : nestedDifference.Valid := by simp [nestedDifference, Expr.Valid, Token.plain]
  have ht : HasType s.table.env nestedDifference .integer :=
    .add (.add (.term (.relation (.factor (.name (d := ⟨"x", .integer, 1, 0⟩) (by decide +kernel)))))
      (.mul (.relation (.factor .literal)) (.factor .literal) (by decide)) (by decide)) (.relation (.factor .literal))
      (by decide)
  have hp : nestedDifference.Plain s.table.env := by
    refine ⟨⟨trivial, ?_, ?_⟩, ?_⟩ <;> exact ⟨by decide +kernel, by decide +kernel⟩
  have hfew : ((Session.fresh 4).slots calls).length + nestedDifference.slots < 2 ^ 32 := by decide +kernel
  have hvalue : nestedDifference.eval .traps s.table.env (s.table.contents d.frame).store = some (.number 7) := by
    decide +kernel
  have hleaves := expression_leaves_value calls s rfl nestedDifference hv .integer ht (.inl rfl) hp hfew .traps [] d rfl
  obtain ⟨d', offset, hrun, hcurrent, hframe, hkept, -⟩ := hleaves.2.2.2.2.2 7 hvalue
  have hplace : (nestedDifference.lower s).state.current = .inFrame .integer (-24) := by decide +kernel
  obtain rfl : offset = -24 := by rw [hplace] at hcurrent; simpa [Operand.inFrame] using hcurrent.symm
  exact ⟨d', hrun, hplace, hframe, hkept 0 (by decide +kernel)⟩

end AlgolMips
