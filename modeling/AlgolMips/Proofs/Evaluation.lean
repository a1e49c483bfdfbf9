import AlgolMips.Proofs.Layout
import AlgolMips.Proofs.Slots
import AlgolMips.Proofs.Texts

/-!
# Code of expressions

The code of a plain expression computes its value. Run from data that match the cells of the source, it leaves the value
where the operand of the lowering says, and writes nothing but the slots that the lowering took for the expression
(`Regular.computes_lower`).

The operand may be a temporary or the slot of a variable itself. A left operand is still there after the right one was
computed, because later slots are other slots.
-/

namespace AlgolMips

open Gen Mips

/-! ## Matching -/

/-- A value as it is kept in registers and slots: a text by the address of a constant that spells it. -/
def Represents (code : List Line) : Value → Content → Prop
  | .number w, c => c = .number w
  | .text t, c => ∃ l v, c = .address l ∧ constant? code l = some v ∧ unescape v.bytes = t.bytes

/-- A machine holds the contents of all cells, each in the slot of its variable. -/
structure Matches (code : List Line) (T : SymbolTable) (store : Cell → Value) (d : Data) : Prop where
  base : d.get .fp = .base
  cells : ∀ c v, T.HasCell c v → Represents code (store c) (d.frame v.offset)

/-- An operand says where a value is. -/
def Holds (code : List Line) (d : Data) (operand : Operand) (v : Value) : Prop :=
  match operand.place with
  | .slot n => Represents code v (d.frame n)
  | .label l => Represents code v (.address l)

/-- No cell has one of the slots from `n` up to `m`. -/
def Spare (T : SymbolTable) (n m : Nat) : Prop :=
  ∀ c v, T.HasCell c v → ∀ j, n ≤ j → j < m → v.offset ≠ slotAt j

theorem Spare.mono {T : SymbolTable} {n m n' m' : Nat} (h : Spare T n m) (hn : n ≤ n') (hm : m' ≤ m) :
    Spare T n' m' :=
  fun c v hv j hj hlt => h c v hv j (Nat.le_trans hn hj) (Nat.lt_of_lt_of_le hlt hm)

/-- Data before and after straight code that writes only the slots from `n` up to `m`. -/
structure Writes (n m : Nat) (d d' : Data) : Prop where
  base : d'.get .fp = d.get .fp
  input : d'.input = d.input
  output : d'.output = d.output
  frame : ∀ x, (∀ j, n ≤ j → j < m → x ≠ slotAt j) → d'.frame x = d.frame x

theorem Writes.trans {n m k : Nat} {d d' d'' : Data} (h : Writes n m d d') (h' : Writes m k d' d'') (hnm : n ≤ m)
    (hmk : m ≤ k) : Writes n k d d'' where
  base := h'.base.trans h.base
  input := h'.input.trans h.input
  output := h'.output.trans h.output
  frame x hx := by
    rw [h'.frame x fun j hj hlt => hx j (Nat.le_trans hnm hj) hlt,
      h.frame x fun j hj hlt => hx j hj (Nat.lt_of_lt_of_le hlt hmk)]

theorem Matches.writes {code : List Line} {T : SymbolTable} {store : Cell → Value} {d d' : Data} {n m : Nat}
    (h : Matches code T store d) (hw : Writes n m d d') (hs : Spare T n m) : Matches code T store d' where
  base := hw.base.trans h.base
  cells c v hv := by
    rw [hw.frame v.offset (hs c v hv)]
    exact h.cells c v hv

/-- From matching data, lines compute a value into an operand, and write only the slots from `n` up to `m`. An operand
in a slot stands in one of these or in the slot of a cell. -/
structure Computes (o : Overflow) (code : List Line) (T : SymbolTable) (store : Cell → Value) (ls : List Line)
    (operand : Operand) (n m : Nat) (v : Value) : Prop where
  run : ∀ d, Matches code T store d →
    ∃ d', runLines o code ls d = some d' ∧ Writes n m d d' ∧ Holds code d' operand v
  place : ∀ x, operand.place = .slot x → (∃ c w, T.HasCell c w ∧ w.offset = x) ∨ ∃ j, n ≤ j ∧ j < m ∧ x = slotAt j

/-- A number is in a slot. -/
theorem Holds.number {code : List Line} {d : Data} {operand : Operand} {w : Word}
    (h : Holds code d operand (.number w)) : ∃ x, operand.place = .slot x ∧ d.frame x = .number w := by
  unfold Holds at h
  split at h
  · next x hplace => exact ⟨x, hplace, h⟩
  · next l hplace => cases h

/-! ## Operators -/

/-- Instructions that take their operands from the two temporary registers and leave the result in the first. -/
def Applies (o : Overflow) (code : List Line) (instrs : List Instr) (f : Word → Word → Option Word) : Prop :=
  ∀ d a b w, d.get .t0 = .number a → d.get .t1 = .number b → f a b = some w →
    ∃ d', runLines o code (instrs.map Line.instr) d = some d' ∧ d'.get .t0 = .number w ∧ d'.get .fp = d.get .fp ∧
      d'.frame = d.frame ∧ d'.input = d.input ∧ d'.output = d.output

variable {o : Overflow} {code : List Line}

/-- A single three-register operation. -/
theorem applies_op3 {op : Op} {f : Word → Word → Option Word} (h : ∀ a b, f a b = op.compute o a b) :
    Applies o code [.op3 op .t0 .t0 .t1] f := by
  intro d a b w ha hb hw
  rw [h] at hw
  exact ⟨d.set .t0 (.number w), by simp [Line.run, Instr.exec, ha, hb, hw], by simp⟩

/-- A single three-register operation with its operands the other way round. -/
theorem applies_op3_swapped {op : Op} {f : Word → Word → Option Word} (h : ∀ a b, f a b = op.compute o b a) :
    Applies o code [.op3 op .t0 .t1 .t0] f := by
  intro d a b w ha hb hw
  rw [h] at hw
  exact ⟨d.set .t0 (.number w), by simp [Line.run, Instr.exec, ha, hb, hw], by simp⟩

theorem applies_additive (op : Text) : Applies o code (additive op) (sum? o op) := by
  unfold additive
  refine applies_op3 fun a b => ?_
  unfold sum?
  split
  · rfl
  · split <;> rfl

/-- A quotient or a remainder, taken from its own register. -/
theorem applies_division {f : Word → Word → Option Word} {mv : Op} (hf : ∀ a b w, f a b = some w → b ≠ 0 ∧
      ((mv = .mflo ∧ w = a.sdiv b) ∨ (mv = .mfhi ∧ w = a.srem b))) :
    Applies o code [.op2 .div .t0 .t1, .op1 mv .t0] f := by
  intro d a b w ha hb hw
  obtain ⟨hb0, hcase⟩ := hf a b w hw
  have hne : ¬ b = 0#32 := hb0
  rcases hcase with ⟨rfl, rfl⟩ | ⟨rfl, rfl⟩
  · exact ⟨(d.setHiLo (a.srem b) (a.sdiv b)).set .t0 (.number (a.sdiv b)),
      by simp [Line.run, Instr.exec, ha, hb, hne], by simp⟩
  · exact ⟨(d.setHiLo (a.srem b) (a.sdiv b)).set .t0 (.number (a.srem b)),
      by simp [Line.run, Instr.exec, ha, hb, hne], by simp⟩

theorem applies_multiplicative (op : Text) : Applies o code (multiplicative op) (product? op) := by
  unfold multiplicative
  split
  · next htimes =>
    intro d a b w ha hb hw
    simp only [product?, htimes, if_true, Option.some.injEq] at hw
    subst hw
    exact ⟨(d.setHiLo ((a.signExtend 64 * b.signExtend 64).extractLsb' 32 32) (a * b)).set .t0 (.number (a * b)),
      by simp [Line.run, Instr.exec, ha, hb], by simp⟩
  · next htimes =>
    split
    · next hdiv =>
      refine applies_division fun a b w hw => ?_
      simp only [product?, if_neg htimes, if_pos hdiv] at hw
      split at hw
      · cases hw
      · next hne => exact ⟨hne, .inl ⟨rfl, (Option.some.inj hw).symm⟩⟩
    · next hdiv =>
      split
      · next hrem =>
        refine applies_division fun a b w hw => ?_
        simp only [product?, if_neg htimes, if_neg hdiv, if_pos hrem] at hw
        split at hw
        · cases hw
        · next hne => exact ⟨hne, .inr ⟨rfl, (Option.some.inj hw).symm⟩⟩
      · next hrem =>
        refine applies_op3 fun a b => ?_
        simp only [product?, if_neg htimes, if_neg hdiv, if_neg hrem]
        rfl

theorem applies_relational (op : Text) :
    Applies o code (relational op) fun a b => some (comparison op a b) := by
  unfold relational comparison
  split
  · exact applies_op3 fun a b => rfl
  · split
    · exact applies_op3 fun a b => rfl
    · split
      · exact applies_op3_swapped fun a b => by simp [Op.compute, eq_comm]
      · exact applies_op3_swapped fun a b => by simp [Op.compute, eq_comm]

/-- The instructions of an operator leave its result. -/
theorem applies_operation (operation : Operation) : Applies o code operation.instrs (operation.apply o) := by
  cases operation with
  | sum op => exact applies_additive op
  | product op => exact applies_multiplicative op
  | comparison op => exact applies_relational op

/-- The lines of an operator leave its result in their slot, and change no other. -/
theorem run_operatorLines {instrs : List Instr} {f : Word → Word → Option Word} (happlies : Applies o code instrs f)
    (remark : Text) {left right : Operand} (slot : Int64) {d : Data} {a b w : Word} (hbase : d.get .fp = .base)
    (ha : d.frame left.place.offset = .number a) (hb : d.frame right.place.offset = .number b) (hw : f a b = some w) :
    ∃ d', runLines o code (operatorLines remark left right instrs slot) d = some d' ∧ d'.get .fp = .base ∧
      d'.frame = Function.update d.frame slot (.number w) ∧ d'.input = d.input ∧ d'.output = d.output := by
  obtain ⟨d', hrun, hresult, hfp, hframe, hinput, houtput⟩ :=
    happlies ((d.set .t0 (.number a)).set .t1 (.number b)) a b w (by simp) (by simp) hw
  have hbase' : d'.get .fp = .base := by simpa [hbase] using hfp
  refine ⟨d'.put slot (.number w), ?_, by simpa using hbase', by simp [hframe], by simpa using hinput,
    by simpa using houtput⟩
  simp [operatorLines, hrun, Line.run, Instr.exec, hbase, ha, hb, hbase', hresult]

/-! ## Expressions -/

variable {T : SymbolTable} {store : Cell → Value} {s : GenState}

/-- An operator computes its result from those of its operands. -/
theorem Expr.Operates.computes {k l m : Level} {e : Expr k} {left : Expr l} {right : Expr m} {remark : Text}
    {instrs : List Instr} {result : Ty} {f : Word → Word → Option Word} {a b w : Word} {i j h : Nat}
    (he : e.Operates left right remark instrs result s) (happlies : Applies o code instrs f) (hw : f a b = some w)
    (hl : Computes o code T store (left.lower.lines s) (left.lower s).state.current i j (.number a))
    (hr : Computes o code T store (right.lower.lines (left.lower s).state)
      (right.lower (left.lower s).state).state.current j h (.number b))
    (hframe : (right.lower (left.lower s).state).state.frame = ⟨slotAt h, 4⟩) (hij : i ≤ j) (hjh : j ≤ h)
    (hspare : Spare T i (h + 1)) (hbound : h < 2 ^ 32) :
    Computes o code T store (e.lower.lines s) (e.lower s).state.current i (h + 1) (.number w) := by
  constructor
  · intro d hd
    rw [he.1, he.2]
    obtain ⟨d₁, hrun₁, hwrites₁, hholds₁⟩ := hl.run d hd
    have hd₁ := hd.writes hwrites₁ (hspare.mono (Nat.le_refl i) (Nat.le_succ_of_le hjh))
    obtain ⟨d₂, hrun₂, hwrites₂, hholds₂⟩ := hr.run d₁ hd₁
    obtain ⟨x, hx, ha⟩ := hholds₁.number
    obtain ⟨y, hy, hb⟩ := hholds₂.number
    -- the slot of the left operand is none of those that the right one writes
    have hkept : d₂.frame x = .number a := by
      rw [hwrites₂.frame x, ha]
      intro n hn hlt hxn
      rcases hl.place x hx with ⟨c, v, hv, rfl⟩ | ⟨n', _, hlt', rfl⟩
      · exact hspare c v hv n (Nat.le_trans hij hn) (Nat.lt_succ_of_lt hlt) hxn
      · have := slotAt_inj (by omega) (by omega) hxn
        omega
    have hbase : d₂.get .fp = .base := by rw [hwrites₂.base, hwrites₁.base, hd.base]
    obtain ⟨d₃, hrun₃, hbase₃, hframe₃, hinput₃, houtput₃⟩ := run_operatorLines happlies remark (slotAt h) hbase
      (by rwa [hx, Place.offset]) (by rwa [hy, Place.offset]) hw
    refine ⟨d₃, by simp [hrun₁, hrun₂, hframe, hrun₃], ?_, by simp [Holds, Represents, Operand.inFrame, hframe, hframe₃]⟩
    refine (hwrites₁.trans hwrites₂ hij hjh).trans ⟨hbase₃.trans hbase.symm, hinput₃, houtput₃, fun z hz => ?_⟩
      (Nat.le_trans hij hjh) (Nat.le_succ h)
    rw [hframe₃, Function.update_of_ne (hz h (Nat.le_refl h) (Nat.lt_succ_self h))]
  · intro x hx
    rw [he.2] at hx
    simp only [Operand.inFrame, hframe, Place.slot.injEq] at hx
    exact .inr ⟨h, Nat.le_trans hij hjh, Nat.lt_succ_self h, hx.symm⟩

/-- A written constant without a backslash stands for itself. -/
theorem unescape_eq_self {bs : List UInt8} (h : 0x5C ∉ bs) : unescape bs = bs := by
  fun_induction unescape bs <;> simp_all

theorem Text.mem_of_mem_trimBeginning {p t : Text} {b : UInt8} (h : b ∈ (Text.trimBeginning p t).bytes) :
    b ∈ t.bytes := by
  unfold Text.trimBeginning at h
  cases hdrop : Text.dropBeginning? p t with
  | none => simpa [hdrop] using h
  | some r =>
    rw [Text.bytes_of_dropBeginning? hdrop]
    exact List.mem_append_right _ (by simpa [hdrop] using h)

theorem Text.mem_of_mem_trimEnding {p t : Text} {b : UInt8} (h : b ∈ (Text.trimEnding p t).bytes) :
    b ∈ t.bytes := by
  unfold Text.trimEnding at h
  split at h
  · next r hdrop =>
    have hbytes : t.bytes.reverse = _ := Text.bytes_of_dropBeginning? hdrop
    rw [← List.mem_reverse, hbytes]
    exact List.mem_append_right _ (by simpa using h)
  · exact h

/-- What is left between the quotes is part of the lexeme. -/
theorem mem_of_mem_quoted {b : UInt8} {lexeme : Text} (h : b ∈ (quoted lexeme).bytes) : b ∈ lexeme.bytes :=
  Text.mem_of_mem_trimBeginning (Text.mem_of_mem_trimEnding h)

theorem computes_literal {lexeme : Text} {n : Nat} {v : Value} (hu : Unambiguous code)
    (hsub : (literal lexeme).lines s ⊆ code) (hf : s.frame = ⟨slotAt n, 4⟩) (hv : literalValue? lexeme = some v)
    (hp : Ty.ofLiteral lexeme = .string → 0x5C ∉ lexeme.bytes) :
    Computes o code T store ((literal lexeme).lines s) (literal lexeme s).state.current n
      (n + if Ty.ofLiteral lexeme = .string then 0 else 1) v := by
  by_cases hstring : Ty.ofLiteral lexeme = .string
  · rw [(literal_string hstring).1] at hsub ⊢
    rw [(literal_string hstring).2]
    have hconstant : constant? code (.generated s.labels) = some (quoted lexeme) :=
      constant?_of_mem hu (hsub (List.mem_cons_of_mem _ List.mem_cons_self))
    simp only [literalValue?, hstring, Option.some.injEq] at hv
    subst hv
    refine ⟨fun d hd => ⟨d, by simp [inlineString, Line.run], ⟨rfl, rfl, rfl, fun _ _ => rfl⟩, ?_⟩, nofun⟩
    exact ⟨_, _, rfl, hconstant, unescape_eq_self fun hmem => hp hstring (mem_of_mem_quoted hmem)⟩
  · obtain ⟨w, hw, hvalue⟩ := word?_immediate (by rw [hv]; rfl) hstring
    rw [hv] at hvalue
    cases hvalue
    rw [(literal_immediate hstring).1, (literal_immediate hstring).2, if_neg hstring]
    refine ⟨fun d hd => ⟨(d.set .t0 (.number w)).put (slotAt n) (.number w), ?_, ⟨?_, rfl, rfl, ?_⟩, ?_⟩, ?_⟩
    · simp [Line.run, Instr.exec, hw, hd.base, hf]
    · simp
    · intro x hx
      simp [Function.update_of_ne (hx n (Nat.le_refl n) (Nat.lt_succ_self n))]
    · simp [Holds, Operand.inFrame, Represents, hf]
    · rintro x ⟨⟩
      exact .inr ⟨n, Nat.le_refl n, Nat.lt_succ_self n, by rw [hf]⟩

/-- The code of a plain expression with a value computes this value. -/
theorem Regular.computes_lower {Γ : Env} {l : Level} {e : Expr l} {τ : Ty} (h : Regular Γ e τ) {s : GenState} {n : Nat}
    {v : Value} (hΓ : s.table.env = Γ) (hu : Unambiguous code) (hcells : ∀ c v, s.table.HasCell c v → T.HasCell c v)
    (hsub : e.lower.lines s ⊆ code) (hf : s.frame = ⟨slotAt n, 4⟩) (hspare : Spare T n (n + e.slots))
    (hbound : n + e.slots < 2 ^ 32) (hv : e.eval o Γ store = some v) :
    Computes o code T store (e.lower.lines s) (e.lower s).state.current n (n + e.slots) v := by
  induction h generalizing s n v with
  | @joined _ _ _ _ left right operation _ _ hjoins htakes hl hr ihl ihr =>
    have htable := left.table_lower s
    have hΓ' : (left.lower s).state.table.env = Γ := by rw [htable, hΓ]
    have he := hjoins.operates htakes (hΓ ▸ hl.hasType) (hΓ ▸ hr.hasType)
    have hleft := hl.frame_lower hΓ hf
    have hright := hr.frame_lower hΓ' hleft
    rw [he.1, List.append_subset, List.append_subset] at hsub
    rw [hjoins.slots, ← Nat.add_assoc, ← Nat.add_assoc] at hspare hbound ⊢
    -- both operands have numbers as their values
    rw [hjoins.eval] at hv
    obtain ⟨_, hx, hrest⟩ := Option.bind_eq_some_iff.1 hv
    obtain ⟨_, hy, hcombine⟩ := Option.bind_eq_some_iff.1 hrest
    obtain ⟨a, b, w, rfl, rfl, hw, rfl⟩ := Value.combine_eq_some hcombine
    have hfirst := ihl hΓ hcells hsub.1 hf (hspare.mono (Nat.le_refl n) (by omega)) (by omega) hx
    have hsecond := ihr hΓ' (by rw [htable]; exact hcells) hsub.2.1 hleft (hspare.mono (by omega) (by omega)) (by omega)
      hy
    exact he.computes (applies_operation operation) hw hfirst hsecond hright (Nat.le_add_right _ _)
      (Nat.le_add_right _ _) hspare (Nat.lt_of_succ_lt hbound)
  | wrapped hwraps _ ih =>
    rw [hwraps.lines] at hsub ⊢
    rw [hwraps.slots] at hspare hbound ⊢
    rw [hwraps.eval] at hv
    rw [hwraps.state]
    exact ih hΓ hcells hsub hf hspare hbound hv
  | name =>
    subst hΓ
    obtain ⟨d, hd, hvalue⟩ := Option.bind_eq_some_iff.1 hv
    obtain ⟨w, hres, _, scope, hscope, hid, hat⟩ := SymbolTable.resolve_of_find? hd
    split at hvalue
    · cases hvalue
      have hcell : T.HasCell d.cell w := hcells _ _ ⟨scope, List.mem_append_left _ hscope, hid, hat⟩
      simp only [Expr.lower, lines_bind, lines_produce, lines_pure, state_bind, state_produce, state_pure,
        reference_ok hres]
      refine ⟨fun data hdata => ⟨data, rfl, ⟨rfl, rfl, rfl, fun _ _ => rfl⟩, hdata.cells _ _ hcell⟩, ?_⟩
      rintro x ⟨⟩
      exact .inl ⟨d.cell, w, hcell, rfl⟩
    · cases hvalue
  | literal _ hbackslash =>
    simp only [Expr.lower, lines_bind, lines_produce, state_bind, state_produce, List.nil_append] at hsub ⊢
    exact computes_literal hu hsub hf hv hbackslash

end AlgolMips
