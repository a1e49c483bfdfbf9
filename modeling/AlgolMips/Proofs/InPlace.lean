import AlgolMips.Proofs.Evaluation
import AlgolMips.Proofs.Overwriting

/-!
# What expressions compute in place

The code of an expression with a type computes a value and may change variables on the way: `!` turns every bit of its
operand where the operand stands, and an operator reads both operands only after both have been computed.
`Expr.act` says so in terms of the source: it gives the place of the value and the memory after it. The code does
exactly this, from all data and for every expression that has a type (`HasType.acting`).

A plain expression changes no memory, and its place holds its value (`Regular.act_eq`).
-/

namespace AlgolMips

open Gen Mips

/-! ## Memory -/

/-- The number that a content is, if it is one. -/
def Mips.Content.number? : Content → Option Word
  | .number w => some w
  | _ => none

/-- What the slots of all cells hold. -/
abbrev Memory := Cell → Content

/-- Where the value of an expression stands: in the slot of a cell, as a number in a slot of its own, or at a label. -/
inductive Standing where
  | cell (c : Cell)
  | own (w : Word)
  | label

namespace Standing

/-- The number that is found there. -/
def read (m : Memory) : Standing → Option Word
  | cell c => (m c).number?
  | own w => some w
  | label => none

/-- Another number is put there. -/
def write (m : Memory) (w : Word) : Standing → Standing × Memory
  | cell c => (cell c, Function.update m c (.number w))
  | own _ => (own w, m)
  | label => (label, m)

end Standing

/-- An operator on the numbers that its operands hold when both have been computed. -/
def Operation.act (o : Overflow) (operation : Operation) (x y : Standing) (m : Memory) : Option (Standing × Memory) := do
  let w ← operation.apply o (← x.read m) (← y.read m)
  return (.own w, m)

/-- The place of the value of an expression, and the memory after it. -/
def Expr.act (o : Overflow) (Γ : Env) : {l : Level} → Expr l → Memory → Option (Standing × Memory)
  | _, .add left op right, m => do
    let (x, m) ← left.act o Γ m
    let (y, m) ← right.act o Γ m
    Operation.act o (.sum op.value) x y m
  | _, .term e, m => e.act o Γ m
  | _, .mul left op right, m => do
    let (x, m) ← left.act o Γ m
    let (y, m) ← right.act o Γ m
    Operation.act o (.product op.value) x y m
  | _, .relation e, m => e.act o Γ m
  | _, .compare left op right, m => do
    let (x, m) ← left.act o Γ m
    let (y, m) ← right.act o Γ m
    if right.ty? Γ = some .integer then Operation.act o (.comparison op.value) x y m else some (x, m)
  | _, .factor e, m => e.act o Γ m
  | _, .missing, _ => none
  | _, .name tok, m => do
    let d ← Γ.find? tok.value
    some (.cell d.cell, m)
  | _, .literal tok, m =>
    (literalValue? tok.value).map fun
      | .number w => (.own w, m)
      | .text _ => (.label, m)
  | _, .negation _ e, m => do
    let (x, m) ← e.act o Γ m
    some (x.write m (~~~(← x.read m)))
  | _, .group _ e _, m => e.act o Γ m

section

variable {k l n : Level} {e : Expr k} {left : Expr l} {right : Expr n} {operation : Operation} {o : Overflow} {Γ : Env}

theorem Expr.Wraps.act (h : e.Wraps left) (m : Memory) : e.act o Γ m = left.act o Γ m := by
  cases h <;> rfl

theorem Expr.Joins.act (h : e.Joins left operation right) {ρ σ : Ty} (ht : operation.Takes ρ σ)
    (hr : HasType Γ right σ) (m : Memory) : e.act o Γ m =
      (left.act o Γ m).bind fun (x, m) => (right.act o Γ m).bind fun (y, m) => operation.act o x y m := by
  cases h with
  | add => rfl
  | mul => rfl
  | compare =>
    obtain ⟨-, rfl⟩ := ht
    simp only [Expr.act, hr.ty?_eq, if_true]
    rfl

end

/-! ## Memory and data -/

/-- The slots of all cells hold what a memory says. -/
structure Loaded (T : SymbolTable) (m : Memory) (d : Data) : Prop where
  base : d.get .fp = .base
  cells : ∀ c v, T.HasCell c v → d.frame v.offset = m c

/-- Data before and after straight code that writes only cells and the slots from `n` up to `k`. -/
structure Touches (T : SymbolTable) (n k : Nat) (d d' : Data) : Prop where
  base : d'.get .fp = d.get .fp
  input : d'.input = d.input
  output : d'.output = d.output
  frame : ∀ x, (∀ c v, T.HasCell c v → x ≠ v.offset) → (∀ j, n ≤ j → j < k → x ≠ slotAt j) → d'.frame x = d.frame x

/-- An operand is where a value stands: if it has a slot of its own, this is one of those from `n` up to `k`. -/
def Standing.At (T : SymbolTable) (d : Data) (operand : Operand) (n k : Nat) : Standing → Prop
  | .cell c => ∃ v, T.HasCell c v ∧ operand.place = .slot v.offset
  | .own w => ∃ j, n ≤ j ∧ j < k ∧ operand.place = .slot (slotAt j) ∧ d.frame (slotAt j) = .number w
  | .label => operand.place.isLabel = true

/-- From data that hold the memory `m`, lines lead to data that hold the memory `m'`, with a value where the operand
says. -/
def Acts (o : Overflow) (code : List Line) (T : SymbolTable) (ls : List Line) (operand : Operand) (n k : Nat)
    (m : Memory) (x : Standing) (m' : Memory) : Prop :=
  ∀ d, Loaded T m d →
    ∃ d', runLines o code ls d = some d' ∧ Touches T n k d d' ∧ Loaded T m' d' ∧ x.At T d' operand n k

section

variable {T : SymbolTable} {n k p : Nat} {d d' d'' : Data} {operand : Operand} {x : Standing} {m : Memory} {f : Frame}

theorem Touches.refl (T : SymbolTable) (n k : Nat) (d : Data) : Touches T n k d d := ⟨rfl, rfl, rfl, fun _ _ _ => rfl⟩

theorem Touches.trans (h : Touches T n k d d') (h' : Touches T k p d' d'') (hnk : n ≤ k) (hkp : k ≤ p) :
    Touches T n p d d'' where
  base := h'.base.trans h.base
  input := h'.input.trans h.input
  output := h'.output.trans h.output
  frame y hcell hslot := by
    rw [h'.frame y hcell fun j hj hlt => hslot j (Nat.le_trans hnk hj) hlt,
      h.frame y hcell fun j hj hlt => hslot j hj (Nat.lt_of_lt_of_le hlt hkp)]

/-- The slots behind the first `n` belong to no cell. -/
theorem Tally.spare (h : Tally f T n) (hk : k ≤ 2 ^ 32) : Spare T n k := by
  intro c v hv j hj hlt heq
  obtain ⟨i, hi, hoffset⟩ := h.below c v hv
  have := slotAt_inj (by omega) (by omega) (hoffset.symm.trans heq)
  omega

/-- A value still stands where it did after code that writes only later slots and cells. -/
theorem Standing.At.touches (h : x.At T d operand n k) (ht : Touches T k p d d') (hspare : Spare T n k)
    (hp : p ≤ 2 ^ 32) : x.At T d' operand n k := by
  cases x with
  | cell c => exact h
  | label => exact h
  | own w =>
    obtain ⟨j, hn, hk, hplace, hframe⟩ := h
    refine ⟨j, hn, hk, hplace, ?_⟩
    rw [ht.frame (slotAt j) (fun c v hv => (hspare c v hv j hn hk).symm) fun i hi hlt heq => ?_, hframe]
    have := slotAt_inj (by omega) (by omega) heq
    omega

theorem Standing.At.mono (h : x.At T d operand n k) (hkp : k ≤ p) : x.At T d operand n p := by
  cases x with
  | cell c => exact h
  | label => exact h
  | own w =>
    obtain ⟨j, hn, hk, hrest⟩ := h
    exact ⟨j, hn, Nat.lt_of_lt_of_le hk hkp, hrest⟩

/-- What is read of a value is in the slot of its operand. -/
theorem Standing.At.read (h : x.At T d operand n k) (hd : Loaded T m d) {w : Word} (hw : x.read m = some w) :
    ∃ z, operand.place = .slot z ∧ d.frame z = .number w := by
  cases x with
  | cell c =>
    obtain ⟨v, hv, hplace⟩ := h
    refine ⟨v.offset, hplace, ?_⟩
    rw [hd.cells c v hv]
    cases hc : m c <;> simp_all [Standing.read, Content.number?]
  | own a =>
    obtain ⟨j, -, -, hplace, hframe⟩ := h
    cases hw
    exact ⟨slotAt j, hplace, hframe⟩
  | label => cases hw

end

/-! ## Code -/

variable {o : Overflow} {code : List Line} {s : GenState}

/-- An operator computes its result from what its operands hold in the end. -/
theorem Expr.Operates.acts {k l p : Level} {e : Expr k} {left : Expr l} {right : Expr p} {remark : Text}
    {instrs : List Instr} {result : Ty} {f : Word → Word → Option Word} {T : SymbolTable} {m m₁ m₂ : Memory}
    {x y : Standing} {a b w : Word} {i j h : Nat} (he : e.Operates left right remark instrs result s)
    (happlies : Applies o code instrs f)
    (hl : Acts o code T (left.lower.lines s) (left.lower s).state.current i j m x m₁)
    (hr : Acts o code T (right.lower.lines (left.lower s).state) (right.lower (left.lower s).state).state.current j h
      m₁ y m₂)
    (hframe : (right.lower (left.lower s).state).state.frame = ⟨slotAt h, 4⟩) (hij : i ≤ j) (hjh : j ≤ h)
    (hspare : Spare T i (h + 1)) (hbound : h < 2 ^ 32) (ha : x.read m₂ = some a) (hb : y.read m₂ = some b)
    (hw : f a b = some w) :
    Acts o code T (e.lower.lines s) (e.lower s).state.current i (h + 1) m (.own w) m₂ := by
  intro d hd
  rw [he.1, he.2]
  obtain ⟨d₁, hrun₁, htouches₁, hd₁, hx⟩ := hl d hd
  obtain ⟨d₂, hrun₂, htouches₂, hd₂, hy⟩ := hr d₁ hd₁
  have hx₂ := hx.touches htouches₂ (hspare.mono (Nat.le_refl i) (Nat.le_succ_of_le hjh)) (Nat.le_of_lt hbound)
  obtain ⟨u, hu, hua⟩ := hx₂.read hd₂ ha
  obtain ⟨v, hv, hvb⟩ := hy.read hd₂ hb
  obtain ⟨d₃, hrun₃, hbase₃, hframe₃, hinput₃, houtput₃⟩ := run_operatorLines happlies remark (slotAt h) hd₂.base
    (by rwa [hu, Place.offset]) (by rwa [hv, Place.offset]) hw
  refine ⟨d₃, by simp [hrun₁, hrun₂, hframe, hrun₃], ?_, ⟨hbase₃, fun c v hv => ?_⟩, ?_⟩
  · refine (htouches₁.trans htouches₂ hij hjh).trans ⟨hbase₃.trans hd₂.base.symm, hinput₃, houtput₃, fun z _ hz => ?_⟩
      (Nat.le_trans hij hjh) (Nat.le_succ h)
    rw [hframe₃, Function.update_of_ne (hz h (Nat.le_refl h) (Nat.lt_succ_self h))]
  · rw [hframe₃, Function.update_of_ne (hspare c v hv h (Nat.le_trans hij hjh) (Nat.lt_succ_self h)), hd₂.cells c v hv]
  · exact ⟨h, Nat.le_trans hij hjh, Nat.lt_succ_self h, by rw [hframe]; rfl, by simp [hframe₃]⟩

theorem acts_name {tok : Token} {b : Binding} (hb : s.table.env.find? tok.value = some b) (n : Nat) (m : Memory) :
    Acts o code s.table ((Expr.name tok).lower.lines s) ((Expr.name tok).lower s).state.current n n m (.cell b.cell)
      m := by
  obtain ⟨v, hres, -, scope, hscope, hid, hat⟩ := SymbolTable.resolve_of_find? hb
  obtain ⟨hstate, -, hlines⟩ := reference_ok hres
  intro d hd
  refine ⟨d, by simp [Expr.lower, hlines], .refl _ _ _ _, hd, v, ⟨scope, List.mem_append_left _ hscope, hid, hat⟩, ?_⟩
  simp [Expr.lower, hstate, Operand.inFrame]

theorem acts_literal {tok : Token} {n : Nat} (ht : Tally s.frame s.table n) (hbound : n < 2 ^ 32) {m m' : Memory}
    {x : Standing} (hact : (Expr.literal tok).act o s.table.env m = some (x, m')) :
    Acts o code s.table ((Expr.literal tok).lower.lines s) ((Expr.literal tok).lower s).state.current n
      (n + (Expr.literal tok).slotCount s.table.env) m x m' := by
  obtain ⟨v, hv, heq⟩ := Option.map_eq_some_iff.1 hact
  intro d hd
  by_cases hstring : Ty.ofLiteral tok.value = .string
  · simp only [literalValue?, hstring, Option.some.injEq] at hv
    subst hv
    cases heq
    refine ⟨d, ?_, .refl _ _ _ _, hd, ?_⟩
    · simp [Expr.lower, (literal_string hstring).1, inlineString, Line.run]
    · simp [Standing.At, Expr.lower, (literal_string hstring).2, Place.isLabel]
  · obtain ⟨w, hw, hvalue⟩ := word?_immediate (by rw [hv]; rfl) hstring
    rw [hv] at hvalue
    cases hvalue
    cases heq
    have hcount : (Expr.literal tok).slotCount s.table.env = 1 := if_neg hstring
    have hspare := ht.spare hbound (k := n + 1)
    rw [hcount]
    refine ⟨(d.set .t0 (.number w)).put (slotAt n) (.number w), ?_, ⟨by simp, rfl, rfl, fun z _ hz => ?_⟩,
      ⟨by simpa using hd.base, fun c v hv => ?_⟩, n, Nat.le_refl n, Nat.lt_succ_self n, ?_, by simp⟩
    · simp [Expr.lower, (literal_immediate hstring).1, Line.run, Instr.exec, hw, hd.base, ht.frame]
    · simp [Function.update_of_ne (hz n (Nat.le_refl n) (Nat.lt_succ_self n))]
    · simpa [Function.update_of_ne (hspare c v hv n (Nat.le_refl n) (Nat.lt_succ_self n))] using hd.cells c v hv
    · simp [Expr.lower, (literal_immediate hstring).2, Operand.inFrame, ht.frame]

theorem Mips.Data.set_set (d : Data) (r : Reg) (c c' : Content) : (d.set r c).set r c' = d.set r c' := by
  simp [Data.set]

/-- `!` turns every bit of what its operand holds, in the place of the operand. -/
theorem run_negation {e : Expr .factor} (op : Token) {τ : Ty} (ht : HasType s.table.env e τ) (hτ : τ ≠ .string)
    {d d₁ : Data} (hrun : runLines o code (e.lower.lines s) d = some d₁) (hbase : d₁.get .fp = .base) {w : Word}
    (hw : d₁.frame (e.lower s).state.current.place.offset = .number w) :
    runLines o code ((Expr.negation op e).lower.lines s) d =
      some ((d₁.set .t0 (.number (~~~w))).put (e.lower s).state.current.place.offset (.number (~~~w))) := by
  obtain ⟨hty, hlabel⟩ := (Expr.lower_of_hasType ht s rfl).1
  have hplace : (e.lower s).state.current.place.isLabel = false := Bool.eq_false_iff.2 fun h => hτ (hlabel h)
  have hlines : (Expr.negation op e).lower.lines s = e.lower.lines s ++
      [.comment "boolean not", .instr (.load .t0 (e.lower s).state.current.place.offset), .instr (.op2 .not .t0 .t0),
        .instr (.store .t0 (e.lower s).state.current.place.offset)] := by
    simp [Expr.lower, Gen.negate, hplace, hty, Ty.negatable, hτ]
  rw [hlines, runLines_append, hrun]
  simp [Line.run, Instr.exec, hbase, hw, Data.set_set]

theorem acts_negation {e : Expr .factor} (op : Token) {τ : Ty} (ht : HasType s.table.env e τ) (hτ : τ ≠ .string)
    {f : Frame} {n k : Nat} (htally : Tally f s.table n) (hk : k ≤ 2 ^ 32) {m m' : Memory} {x : Standing} {w : Word}
    (he : Acts o code s.table (e.lower.lines s) (e.lower s).state.current n k m x m') (hw : x.read m' = some w) :
    Acts o code s.table ((Expr.negation op e).lower.lines s) ((Expr.negation op e).lower s).state.current n k m
      (x.write m' (~~~w)).1 (x.write m' (~~~w)).2 := by
  intro d hd
  obtain ⟨d₁, hrun, htouches, hd₁, hx⟩ := he d hd
  obtain ⟨z, hz, hzw⟩ := hx.read hd₁ hw
  have hoffset : (e.lower s).state.current.place.offset = z := by rw [hz, Place.offset]
  have hstate : ((Expr.negation op e).lower s).state = (e.lower s).state := by simp [Expr.lower]
  have hrun₂ := run_negation op ht hτ hrun hd₁.base (by rwa [hoffset])
  rw [hoffset] at hrun₂
  refine ⟨_, hrun₂, ?_⟩
  cases x with
  | label => cases hw
  | cell c =>
    obtain ⟨v, hv, hplace⟩ := hx
    obtain rfl : v.offset = z := by rw [hz] at hplace; cases hplace; rfl
    refine ⟨⟨?_, htouches.input, htouches.output, fun y hcell hslot => ?_⟩, ⟨?_, fun c' v' hv' => ?_⟩, v, hv,
      hstate ▸ hplace⟩
    · simpa using htouches.base
    · simpa [Function.update_of_ne (hcell c v hv)] using htouches.frame y hcell hslot
    · simpa using hd₁.base
    · -- another cell has another slot
      by_cases hc : c' = c
      · subst hc
        rw [htally.hasCell_unique hv' hv]
        simp [Standing.write]
      · have hne : v'.offset ≠ v.offset := fun heq => hc (htally.distinct c' v' c v hv' hv heq)
        simpa [Standing.write, Function.update_of_ne hne, Function.update_of_ne hc] using hd₁.cells c' v' hv'
  | own a =>
    obtain ⟨j, hn, hlt, hplace, -⟩ := hx
    obtain rfl : slotAt j = z := by rw [hz] at hplace; cases hplace; rfl
    refine ⟨⟨?_, htouches.input, htouches.output, fun y hcell hslot => ?_⟩, ⟨?_, fun c v hv => ?_⟩, j, hn, hlt,
      hstate ▸ hplace, by simp⟩
    · simpa using htouches.base
    · simpa [Function.update_of_ne (hslot j hn hlt)] using htouches.frame y hcell hslot
    · simpa using hd₁.base
    · simpa [Standing.write, Function.update_of_ne (htally.spare hk c v hv j hn hlt)] using hd₁.cells c v hv

/-- Without a number on the right both operands are computed, and the left one stands. -/
theorem acts_leftAlone {left right : Expr .factor} {op : Token} {ρ : Ty} (htr : HasType s.table.env right ρ)
    (hρ : ρ ≠ .integer) {T : SymbolTable} {i j h : Nat} {m m₁ m₂ : Memory} {x y : Standing}
    (hl : Acts o code T (left.lower.lines s) (left.lower s).state.current i j m x m₁)
    (hr : Acts o code T (right.lower.lines (left.lower s).state) (right.lower (left.lower s).state).state.current j h
      m₁ y m₂)
    (hij : i ≤ j) (hjh : j ≤ h) (hspare : Spare T i h) (hbound : h ≤ 2 ^ 32) :
    Acts o code T ((Expr.compare left op right).lower.lines s) ((Expr.compare left op right).lower s).state.current i h
      m x m₂ := by
  have hright : (right.lower (left.lower s).state).state.current.ty ≠ .integer := by
    rw [Expr.current_ty_second htr left rfl]
    exact hρ
  intro d hd
  obtain ⟨d₁, hrun₁, htouches₁, hd₁, hx⟩ := hl d hd
  obtain ⟨d₂, hrun₂, htouches₂, hd₂, -⟩ := hr d₁ hd₁
  refine ⟨d₂, ?_, htouches₁.trans htouches₂ hij hjh, hd₂, ?_⟩
  · simp [Expr.lower, Gen.compare, Ty.comparable, hright, hrun₁, hrun₂]
  · simp only [Expr.lower, state_bind, state_produce, value_current, state_current, state_compare_leftAlone hright]
    exact (hx.touches htouches₂ (hspare.mono (Nat.le_refl i) hjh) hbound).mono hjh

theorem Frame.slot_four (n : Nat) : Frame.slot 4 n = slotAt n := by
  have hfour : (4 : Int64).toInt = 4 := by decide
  rw [Frame.slot, slotAt, hfour, Int.mul_comm]

theorem Frame.after_four (n : Nat) : Frame.after 4 n = ⟨slotAt n, 4⟩ := by
  rw [Frame.after, slot_four]

/-- An expression that has a type takes the slots that are counted for it, and none of them for a cell. -/
theorem HasType.tally_lower {l : Level} {e : Expr l} {τ : Ty} (h : HasType s.table.env e τ) {n : Nat}
    (ht : Tally s.frame s.table n) :
    Tally (e.lower s).state.frame (e.lower s).state.table (n + e.slotCount s.table.env) := by
  have hframe := (Expr.effect_lower h rfl (ht.frame.trans (Frame.after_four n).symm)).frame
  rw [hframe, Frame.after_four, Expr.table_lower]
  exact ht.temporaries _

/-- What the code of an expression does, wherever it may stand. -/
def Expr.Acting (o : Overflow) (code : List Line) (Γ : Env) {l : Level} (e : Expr l) : Prop :=
  ∀ {s : GenState} {n : Nat} {m m' : Memory} {x : Standing}, s.table.env = Γ → Tally s.frame s.table n →
    n + e.slotCount Γ < 2 ^ 32 → e.act o Γ m = some (x, m') →
    Acts o code s.table (e.lower.lines s) (e.lower s).state.current n (n + e.slotCount Γ) m x m'

theorem Expr.Wraps.acting {k l : Level} {e : Expr k} {inner : Expr l} {Γ : Env} (h : e.Wraps inner)
    (hinner : inner.Acting o code Γ) : e.Acting o code Γ := by
  intro s n m m' x hΓ ht hbound hact
  rw [h.act] at hact
  rw [h.slotCount_eq] at hbound ⊢
  rw [h.lines, h.state]
  exact hinner hΓ ht hbound hact

theorem Expr.Joins.acting {j k l : Level} {e : Expr j} {left : Expr k} {operation : Operation} {right : Expr l}
    {Γ : Env} {ρ σ : Ty} (h : e.Joins left operation right) (htakes : operation.Takes ρ σ) (htl : HasType Γ left ρ)
    (htr : HasType Γ right σ) (hl : left.Acting o code Γ) (hr : right.Acting o code Γ) : e.Acting o code Γ := by
  intro s n m m' x hΓ ht hbound hact
  subst hΓ
  rw [h.act htakes htr] at hact
  rw [h.slotCount_eq htakes htr, ← Nat.add_assoc, ← Nat.add_assoc] at hbound ⊢
  obtain ⟨⟨y, m₁⟩, hleft, hact⟩ := Option.bind_eq_some_iff.1 hact
  obtain ⟨⟨z, m₂⟩, hright, hact⟩ := Option.bind_eq_some_iff.1 hact
  obtain ⟨a, ha, hact⟩ := Option.bind_eq_some_iff.1 hact
  obtain ⟨b, hb, hact⟩ := Option.bind_eq_some_iff.1 hact
  obtain ⟨w, hw, hresult⟩ := Option.bind_eq_some_iff.1 hact
  cases hresult
  have henv : (left.lower s).state.table.env = s.table.env := by rw [table_lower]
  have htally₁ := htl.tally_lower ht
  have htally₂ := HasType.tally_lower (henv ▸ htr) htally₁
  rw [henv] at htally₂
  have hfirst := hl rfl ht (by omega) hleft
  have hsecond := hr henv htally₁ (by omega) hright
  rw [table_lower] at hsecond
  exact (h.operates htakes htl htr).acts (applies_operation operation) hfirst hsecond htally₂.frame
    (Nat.le_add_right _ _) (Nat.le_add_right _ _) (ht.spare hbound.le) (Nat.lt_of_succ_lt hbound) ha hb hw

/-- The code of an expression that has a type does what the expression does. -/
theorem HasType.acting {Γ : Env} {l : Level} {e : Expr l} {τ : Ty} (h : HasType Γ e τ) : e.Acting o code Γ := by
  induction h with
  | name hd =>
    intro s n m m' x hΓ ht hbound hact
    subst hΓ
    simp only [Expr.act, hd, Option.bind_eq_bind, Option.bind_some, Option.some.injEq, Prod.mk.injEq] at hact
    obtain ⟨rfl, rfl⟩ := hact
    exact acts_name hd n m
  | @literal tok =>
    intro s n m m' x hΓ ht hbound hact
    subst hΓ
    exact acts_literal ht (by omega) hact
  | @negation op e τ htyped hτ ih =>
    intro s n m m' x hΓ ht hbound hact
    subst hΓ
    obtain ⟨⟨y, m₁⟩, hinner, hact⟩ := Option.bind_eq_some_iff.1 hact
    obtain ⟨w, hw, hresult⟩ := Option.bind_eq_some_iff.1 hact
    have hpair : y.write m₁ (~~~w) = (x, m') := Option.some.inj hresult
    have hacts := acts_negation op htyped hτ ht hbound.le (ih rfl ht hbound hinner) hw
    rw [hpair] at hacts
    exact hacts
  | group _ ih => exact Expr.Wraps.group.acting ih
  | factor _ ih => exact Expr.Wraps.factor.acting ih
  | relation _ ih => exact Expr.Wraps.relation.acting ih
  | term _ ih => exact Expr.Wraps.term.acting ih
  | comparison htl hτ htr ihl ihr => exact Expr.Joins.compare.acting ⟨hτ, rfl⟩ htl htr ihl ihr
  | mul htl htr hτ ihl ihr => exact Expr.Joins.mul.acting ⟨rfl, hτ⟩ htl htr ihl ihr
  | add htl htr hτ ihl ihr => exact Expr.Joins.add.acting ⟨rfl, hτ⟩ htl htr ihl ihr
  | @leftAlone left right op τ ρ htl htr hρ ihl ihr =>
    intro s n m m' x hΓ ht hbound hact
    subst hΓ
    have hty : right.ty? s.table.env ≠ some .integer := by rw [htr.ty?_eq]; simpa using hρ
    have hcount : (Expr.compare left op right).slotCount s.table.env =
        left.slotCount s.table.env + right.slotCount s.table.env := by simp [Expr.slotCount, hty]
    rw [hcount, ← Nat.add_assoc] at hbound ⊢
    obtain ⟨⟨y, m₁⟩, hleft, hact⟩ := Option.bind_eq_some_iff.1 hact
    obtain ⟨⟨z, m₂⟩, hright, hact⟩ := Option.bind_eq_some_iff.1 hact
    simp only [if_neg hty, Option.some.injEq, Prod.mk.injEq] at hact
    obtain ⟨rfl, rfl⟩ := hact
    have hsecond := ihr (by rw [Expr.table_lower]) (htl.tally_lower ht) (by omega) hright
    rw [Expr.table_lower] at hsecond
    exact acts_leftAlone htr hρ (ihl rfl ht (by omega) hleft) hsecond (Nat.le_add_right _ _) (Nat.le_add_right _ _)
      (ht.spare hbound.le) hbound.le

/-! ## Plain expressions -/

/-- What the slots of a frame hold for all cells. -/
def SymbolTable.contents (t : SymbolTable) (frame : Int64 → Content) : Memory := fun c => (t.slot? c).elim .base frame

theorem Tally.loaded {f : Frame} {t : SymbolTable} {n : Nat} (h : Tally f t n) {d : Data} (hbase : d.get .fp = .base) :
    Loaded t (t.contents d.frame) d :=
  ⟨hbase, fun c v hv => by simp [SymbolTable.contents, h.slot?_of_hasCell hv]⟩

/-- The values of all cells. What is no number counts as a text. -/
def Memory.store (m : Memory) (c : Cell) : Value :=
  match m c with
  | .number w => .number w
  | _ => .text ""

theorem Memory.number?_eq_some_iff {m : Memory} {c : Cell} {w : Word} :
    (m c).number? = some w ↔ m.store c = .number w := by
  cases h : m c <;> simp [store, h, Content.number?]

/-- A plain expression changes nothing, and its value is a number exactly where a number can be read. -/
theorem Regular.act_eq {Γ : Env} {l : Level} {e : Expr l} {τ : Ty} (h : Regular Γ e τ) {m : Memory} {v : Value}
    (hv : e.eval o Γ m.store = some v) :
    ∃ x, e.act o Γ m = some (x, m) ∧ ∀ w, v = .number w → x.read m = some w := by
  induction h generalizing v with
  | @joined _ _ _ _ left right operation _ _ hjoins htakes hl hr ihl ihr =>
    rw [hjoins.eval] at hv
    obtain ⟨_, hx, hrest⟩ := Option.bind_eq_some_iff.1 hv
    obtain ⟨_, hy, hcombine⟩ := Option.bind_eq_some_iff.1 hrest
    obtain ⟨a, b, w, rfl, rfl, hw, rfl⟩ := Value.combine_eq_some hcombine
    obtain ⟨x, hleft, hreadx⟩ := ihl hx
    obtain ⟨y, hright, hready⟩ := ihr hy
    refine ⟨.own w, ?_, fun _ heq => by cases heq; rfl⟩
    rw [hjoins.act htakes hr.hasType]
    simp [hleft, hright, Operation.act, hreadx a rfl, hready b rfl, hw]
  | wrapped hwraps _ ih =>
    rw [hwraps.eval] at hv
    rw [hwraps.act]
    exact ih hv
  | name hd =>
    obtain ⟨d, hd', hvalue⟩ := Option.bind_eq_some_iff.1 hv
    rw [hd] at hd'
    cases hd'
    split at hvalue
    · refine ⟨_, by simp [Expr.act, hd]; rfl, fun w heq => ?_⟩
      rw [heq, Option.some.injEq] at hvalue
      exact Memory.number?_eq_some_iff.2 hvalue
    · cases hvalue
  | literal =>
    have hlit : literalValue? _ = some v := hv
    cases v with
    | number w => exact ⟨.own w, by simp [Expr.act, hlit], fun _ heq => by cases heq; rfl⟩
    | text t => exact ⟨.label, by simp [Expr.act, hlit], nofun⟩

end AlgolMips
