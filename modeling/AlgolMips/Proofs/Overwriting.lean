import AlgolMips.Proofs.Drawing
import AlgolMips.Proofs.Layout

/-!
# What expressions overwrite

The code of an expression stores the values of literals and operators, each in a slot that is handed out for it. One
operator has no slot of its own: `!` stores its value where its operand stands. If that is a temporary, nothing else can
tell. If it is a variable, the variable is changed.

So an expression stores in the slots that are handed out while it is lowered and in the slots of the variables that a `!`
is applied to, and in no others (`Expr.effect_lower`). Which variables these are can be read off the text
(`Expr.overwritten`). An operand is a variable where nothing computes a new value: behind parentheses, behind `!` itself,
and on the left of a comparison that is none because its right side is no number.

Every expression that a lowering comes to is seen at the state in which it comes there (`Program.Visits`).
-/

namespace AlgolMips

open Gen Mips

/-! ## The text of an expression -/

/-- The type of a sum or a product. -/
def Ty.arithmetic? (left right : Ty) : Option Ty := if left.combines right then some .integer else none

/-- The type of a comparison, which is the one of its left operand where there is nothing to compare. -/
def Ty.comparison? (left right : Ty) : Option Ty :=
  if right ≠ .integer then some left else if left = .string then none else some .logical

namespace Expr

/-- The type that the rules give to an expression, if they give it one. -/
def ty? (Γ : Env) : {l : Level} → Expr l → Option Ty
  | _, .add left _ right => do (← left.ty? Γ).arithmetic? (← right.ty? Γ)
  | _, .term e => e.ty? Γ
  | _, .mul left _ right => do (← left.ty? Γ).arithmetic? (← right.ty? Γ)
  | _, .relation e => e.ty? Γ
  | _, .compare left _ right => do (← left.ty? Γ).comparison? (← right.ty? Γ)
  | _, .factor e => e.ty? Γ
  | _, .missing => none
  | _, .name tok => (Γ.find? tok.value).map Binding.ty
  | _, .literal tok => some (Ty.ofLiteral tok.value)
  | _, .negation _ e => (e.ty? Γ).filter (· ≠ .string)
  | _, .group _ e _ => e.ty? Γ

/-- The number of slots that are handed out for an expression: one for each literal that is no string, and one for each
operator that computes. -/
def slotCount (Γ : Env) : {l : Level} → Expr l → Nat
  | _, .add left _ right => left.slotCount Γ + right.slotCount Γ + 1
  | _, .term e => e.slotCount Γ
  | _, .mul left _ right => left.slotCount Γ + right.slotCount Γ + 1
  | _, .relation e => e.slotCount Γ
  | _, .compare left _ right =>
    left.slotCount Γ + right.slotCount Γ + if right.ty? Γ = some .integer then 1 else 0
  | _, .factor e => e.slotCount Γ
  | _, .missing => 0
  | _, .name _ => 0
  | _, .literal tok => if Ty.ofLiteral tok.value = .string then 0 else 1
  | _, .negation _ e => e.slotCount Γ
  | _, .group _ e _ => e.slotCount Γ

/-- The variable that an expression leaves as its operand, if it computes nothing. -/
def bare? (Γ : Env) : {l : Level} → Expr l → Option Token
  | _, .add .. => none
  | _, .term e => e.bare? Γ
  | _, .mul .. => none
  | _, .relation e => e.bare? Γ
  | _, .compare left _ right => if right.ty? Γ = some .integer then none else left.bare? Γ
  | _, .factor e => e.bare? Γ
  | _, .missing => none
  | _, .name tok => some tok
  | _, .literal _ => none
  | _, .negation _ e => e.bare? Γ
  | _, .group _ e _ => e.bare? Γ

/-- The variables that a `!` of an expression is applied to. -/
def overwritten (Γ : Env) : {l : Level} → Expr l → List Token
  | _, .add left _ right => left.overwritten Γ ++ right.overwritten Γ
  | _, .term e => e.overwritten Γ
  | _, .mul left _ right => left.overwritten Γ ++ right.overwritten Γ
  | _, .relation e => e.overwritten Γ
  | _, .compare left _ right => left.overwritten Γ ++ right.overwritten Γ
  | _, .factor e => e.overwritten Γ
  | _, .missing => []
  | _, .name _ => []
  | _, .literal _ => []
  | _, .negation _ e => e.overwritten Γ ++ (e.bare? Γ).toList
  | _, .group _ e _ => e.overwritten Γ

end Expr

/-- The type that the rules give is computed. -/
theorem HasType.ty?_eq {Γ : Env} {l : Level} {e : Expr l} {τ : Ty} (h : HasType Γ e τ) : e.ty? Γ = some τ := by
  induction h with
  | name hd => simp [Expr.ty?, hd]
  | literal => rfl
  | negation _ hτ ih => simp [Expr.ty?, ih, hτ]
  | group _ ih => exact ih
  | factor _ ih => exact ih
  | comparison _ hτ _ ihl ihr => simp [Expr.ty?, ihl, ihr, Ty.comparison?, hτ]
  | leftAlone _ _ hρ ihl ihr => simp [Expr.ty?, ihl, ihr, Ty.comparison?, hρ]
  | relation _ ih => exact ih
  | mul _ _ hτ ihl ihr => simp [Expr.ty?, ihl, ihr, Ty.arithmetic?, Ty.combines_iff, hτ]
  | term _ ih => exact ih
  | add _ _ hτ ihl ihr => simp [Expr.ty?, ihl, ihr, Ty.arithmetic?, Ty.combines_iff, hτ]

/-! ## Slots -/

/-- The slots that some lines store in. -/
def storedSlots (ls : List Line) : List Int64 :=
  ls.filterMap fun
    | .instr (.store _ offset) => some offset
    | _ => none

@[simp] theorem storedSlots_append (ls ls' : List Line) :
    storedSlots (ls ++ ls') = storedSlots ls ++ storedSlots ls' := List.filterMap_append

theorem storedSlots_computes {ls : List Line} (h : ∀ l ∈ ls, l.Computes) : storedSlots ls = [] := by
  refine List.filterMap_eq_nil_iff.2 fun l hl => ?_
  obtain ⟨-, hstore⟩ := h l hl
  split
  · next r offset => exact absurd rfl (hstore r offset)
  · rfl

theorem storedSlots_operatorLines (operation : Operation) (left right : Operand) (slot : Int64) :
    storedSlots (operatorLines operation.remark left right operation.instrs slot) = [slot] := by
  rw [operatorLines, storedSlots_append, storedSlots_append, storedSlots_computes (computes_operation operation)]
  rfl

/-- An offset is one of the `k` slots behind the first `n`. -/
def Frame.Hands (w : Int64) (n k : Nat) (offset : Int64) : Prop := ∃ i, n ≤ i ∧ i < n + k ∧ offset = slot w i

namespace Frame

variable {w : Int64} {n j k : Nat} {offset : Int64}

@[simp] theorem hands_zero : ¬ Hands w n 0 offset := by
  rintro ⟨i, hle, hlt, -⟩
  omega

theorem hands_one : Hands w n 1 offset ↔ offset = slot w n := by
  constructor
  · rintro ⟨i, hle, hlt, rfl⟩
    rw [show i = n by omega]
  · exact fun h => ⟨n, Nat.le_refl n, Nat.lt_succ_self n, h⟩

theorem hands_add : Hands w n (j + k) offset ↔ Hands w n j offset ∨ Hands w (n + j) k offset := by
  constructor
  · rintro ⟨i, hle, hlt, rfl⟩
    rcases Nat.lt_or_ge i (n + j) with hi | hi
    · exact .inl ⟨i, hle, hi, rfl⟩
    · exact .inr ⟨i, hi, by omega, rfl⟩
  · rintro (⟨i, hle, hlt, rfl⟩ | ⟨i, hle, hlt, rfl⟩)
    · exact ⟨i, hle, by omega, rfl⟩
    · exact ⟨i, by omega, by omega, rfl⟩

theorem Hands.mono (h : Hands w n j offset) (hjk : j ≤ k) : Hands w n k offset := by
  obtain ⟨i, hle, hlt, rfl⟩ := h
  exact ⟨i, hle, by omega, rfl⟩

end Frame

/-! ## The effect of an expression -/

/-- The slot of the variable that a name stands for. -/
def SymbolTable.SlotOf (t : SymbolTable) (tok : Token) (offset : Int64) : Prop :=
  ∃ v, t.resolve tok.value = .ok v ∧ v.offset = offset

/-- What an expression does to the frame, if `n` slots are handed out before it. -/
structure Expr.Effect {l : Level} (e : Expr l) (w : Int64) (n : Nat) (s : GenState) : Prop where
  /-- It takes the slots that it is counted for. -/
  frame : (e.lower s).state.frame = .after w (n + e.slotCount s.table.env)
  /-- Its operand is the variable that it leaves, -/
  known : ∀ tok, e.bare? s.table.env = some tok →
    s.table.SlotOf tok (e.lower s).state.current.place.offset
  /-- or stands in one of these slots, or at a label. -/
  fresh : e.bare? s.table.env = none → (e.lower s).state.current.place.isLabel ∨
    Frame.Hands w n (e.slotCount s.table.env) (e.lower s).state.current.place.offset
  /-- The variables that a `!` is applied to are declared. -/
  found : ∀ tok ∈ e.overwritten s.table.env, ∃ offset, s.table.SlotOf tok offset
  /-- It stores in these slots and in those of these variables. -/
  stored : ∀ offset, offset ∈ storedSlots (e.lower.lines s) ↔
    Frame.Hands w n (e.slotCount s.table.env) offset ∨ ∃ tok ∈ e.overwritten s.table.env, s.table.SlotOf tok offset

namespace Expr

variable {w : Int64} {n : Nat} {s : GenState}

section

variable {k l m : Level} {e : Expr k} {left : Expr l} {right : Expr m} {operation : Operation}

theorem Wraps.slotCount_eq (h : e.Wraps left) (Γ : Env) : e.slotCount Γ = left.slotCount Γ := by
  cases h <;> rfl

theorem Joins.slotCount_eq (h : e.Joins left operation right) {Γ : Env} {ρ σ : Ty} (ht : operation.Takes ρ σ)
    (htr : HasType Γ right σ) : e.slotCount Γ = left.slotCount Γ + right.slotCount Γ + 1 := by
  cases h with
  | add => rfl
  | mul => rfl
  | compare => simp [slotCount, htr.ty?_eq, ht.2]

theorem Wraps.effect (h : e.Wraps left) (hl : left.Effect w n s) : e.Effect w n s := by
  have hcount := h.slotCount_eq s.table.env
  have hbare : e.bare? s.table.env = left.bare? s.table.env := by cases h <;> rfl
  have hoverwritten : e.overwritten s.table.env = left.overwritten s.table.env := by cases h <;> rfl
  constructor
  · rw [h.state, hcount]
    exact hl.frame
  · rw [h.state, hbare]
    exact hl.known
  · rw [h.state, hbare, hcount]
    exact hl.fresh
  · rw [hoverwritten]
    exact hl.found
  · rw [h.lines, hcount, hoverwritten]
    exact hl.stored

theorem Effect.found_both (hl : left.Effect w n s)
    (hr : right.Effect w (n + left.slotCount s.table.env) (left.lower s).state) :
    ∀ tok ∈ left.overwritten s.table.env ++ right.overwritten s.table.env, ∃ offset, s.table.SlotOf tok offset := by
  have hright := hr.found
  rw [table_lower] at hright
  exact fun tok htok => (List.mem_append.1 htok).elim (hl.found tok) (hright tok)

/-- Two operands one after the other. -/
theorem Effect.stored_both (hl : left.Effect w n s)
    (hr : right.Effect w (n + left.slotCount s.table.env) (left.lower s).state) (offset : Int64) :
    offset ∈ storedSlots (left.lower.lines s ++ right.lower.lines (left.lower s).state) ↔
      Frame.Hands w n (left.slotCount s.table.env + right.slotCount s.table.env) offset ∨
        ∃ tok ∈ left.overwritten s.table.env ++ right.overwritten s.table.env, s.table.SlotOf tok offset := by
  have hright := hr.stored offset
  simp only [table_lower] at hright
  rw [storedSlots_append, List.mem_append, hl.stored offset, hright, Frame.hands_add]
  simp only [List.mem_append, or_and_right, exists_or]
  exact or_or_or_comm

/-- An operator that computes takes one slot behind those of its operands, and stores in it. -/
theorem Joins.effect (h : e.Joins left operation right) {ρ σ : Ty} (ht : operation.Takes ρ σ)
    (htl : HasType s.table.env left ρ) (htr : HasType s.table.env right σ) (hl : left.Effect w n s)
    (hr : right.Effect w (n + left.slotCount s.table.env) (left.lower s).state) : e.Effect w n s := by
  obtain ⟨hlines, hstate⟩ := h.operates ht htl htr
  have hcount := h.slotCount_eq ht htr
  have hbare : e.bare? s.table.env = none := by
    cases h with
    | add => rfl
    | mul => rfl
    | compare => simp [bare?, htr.ty?_eq, ht.2]
  have hoverwritten : e.overwritten s.table.env = left.overwritten s.table.env ++ right.overwritten s.table.env := by
    cases h <;> rfl
  have hframe := hr.frame
  rw [table_lower, Nat.add_assoc] at hframe
  have hnext : (right.lower (left.lower s).state).state.frame.next =
      Frame.slot w (n + (left.slotCount s.table.env + right.slotCount s.table.env)) := by rw [hframe]; rfl
  constructor
  · rw [hstate, hframe, Frame.alloc_after, hcount]
    rfl
  · simp [hbare]
  · intro _
    rw [hstate, hcount, Frame.hands_add, Frame.hands_one]
    exact .inr (.inr hnext)
  · rw [hoverwritten]
    exact hl.found_both hr
  · intro offset
    rw [hlines, ← List.append_assoc, storedSlots_append, List.mem_append, hl.stored_both hr, storedSlots_operatorLines,
      hnext, List.mem_singleton, hcount, hoverwritten, Frame.hands_add (k := 1), Frame.hands_one]
    exact or_right_comm

end

theorem effect_name {tok : Token} {d : Binding} (hd : s.table.env.find? tok.value = some d)
    (hf : s.frame = .after w n) : (Expr.name tok).Effect w n s := by
  obtain ⟨v, hres, -⟩ := SymbolTable.resolve_of_find? hd
  obtain ⟨hstate, -, hlines⟩ := reference_ok hres
  constructor
  · simp [Expr.lower, slotCount, hstate, hf]
  · rintro tok ⟨⟩
    exact ⟨v, hres, by simp [Expr.lower, hstate, Operand.inFrame, Place.offset]⟩
  · simp [bare?]
  · simp [overwritten]
  · intro offset
    simp [Expr.lower, slotCount, overwritten, hlines, storedSlots]

theorem effect_literal (tok : Token) (hf : s.frame = .after w n) : (Expr.literal tok).Effect w n s := by
  have hnext : s.frame.next = Frame.slot w n := by rw [hf]; rfl
  by_cases hstring : Ty.ofLiteral tok.value = .string
  · obtain ⟨hlines, hstate⟩ := literal_string (s := s) hstring
    have hcount : (Expr.literal tok).slotCount s.table.env = 0 := if_pos hstring
    constructor
    · simp [Expr.lower, hstate, hcount, hf]
    · simp [bare?]
    · simp [Expr.lower, hstate, Place.isLabel]
    · simp [overwritten]
    · simp [Expr.lower, hlines, hcount, overwritten, inlineString, storedSlots]
  · obtain ⟨hlines, hstate⟩ := literal_immediate (s := s) hstring
    have hcount : (Expr.literal tok).slotCount s.table.env = 1 := if_neg hstring
    constructor
    · simp [Expr.lower, hstate, hcount, hf]
    · simp [bare?]
    · simp [Expr.lower, hstate, hcount, Frame.hands_one, hnext, Operand.inFrame, Place.offset]
    · simp [overwritten]
    · simp [Expr.lower, hlines, hcount, Frame.hands_one, hnext, overwritten, storedSlots]

/-- `!` stores where its operand stands, and takes no slot. -/
theorem Effect.negation {e : Expr .factor} {op : Token} {τ : Ty} (he : e.Effect w n s)
    (ht : HasType s.table.env e τ) (hτ : τ ≠ .string) : (Expr.negation op e).Effect w n s := by
  obtain ⟨hty, hlabel⟩ := (lower_of_hasType ht s rfl).1
  have hplace : (e.lower s).state.current.place.isLabel = false := Bool.eq_false_iff.2 fun h => hτ (hlabel h)
  have hlines : storedSlots ((Expr.negation op e).lower.lines s) =
      storedSlots (e.lower.lines s) ++ [(e.lower s).state.current.place.offset] := by
    simp [Expr.lower, Gen.negate, hplace, hty, Ty.negatable, hτ, storedSlots]
  have hstate : ((Expr.negation op e).lower s).state = (e.lower s).state := by simp [Expr.lower]
  constructor
  · rw [hstate]
    exact he.frame
  · rw [hstate]
    exact he.known
  · rw [hstate]
    exact he.fresh
  · intro tok htok
    rcases List.mem_append.1 htok with hinner | hbare
    · exact he.found tok hinner
    · exact ⟨_, he.known tok (Option.mem_toList.1 hbare)⟩
  · intro offset
    rw [hlines, List.mem_append, he.stored, List.mem_singleton]
    simp only [slotCount, overwritten, List.mem_append, Option.mem_toList]
    cases hbare : e.bare? s.table.env with
    | some tok =>
      -- the operand is a variable, which joins those that are overwritten
      obtain ⟨v, hres, hoffset⟩ := he.known tok hbare
      have hiff : offset = (e.lower s).state.current.place.offset ↔ s.table.SlotOf tok offset := by
        constructor
        · rintro rfl
          exact ⟨v, hres, hoffset⟩
        · rintro ⟨v', hres', rfl⟩
          rw [hres] at hres'
          cases hres'
          exact hoffset
      rw [hiff, or_assoc]
      refine or_congr_right ?_
      constructor
      · rintro (⟨t, ht, hslot⟩ | hslot)
        · exact ⟨t, .inl ht, hslot⟩
        · exact ⟨tok, .inr rfl, hslot⟩
      · rintro ⟨t, ht | ht, hslot⟩
        · exact .inl ⟨t, ht, hslot⟩
        · cases ht
          exact .inr hslot
    | none =>
      -- the operand is a temporary of the expression itself
      have hfresh : Frame.Hands w n (e.slotCount s.table.env) (e.lower s).state.current.place.offset :=
        (he.fresh hbare).resolve_left (by simp [hplace])
      constructor
      · rintro ((hands | ⟨t, ht, hslot⟩) | rfl)
        · exact .inl hands
        · exact .inr ⟨t, .inl ht, hslot⟩
        · exact .inl hfresh
      · rintro (hands | ⟨t, ht | ht, hslot⟩)
        · exact .inl (.inl hands)
        · exact .inl (.inr ⟨t, ht, hslot⟩)
        · cases ht

/-- Without a number on the right both operands are computed and the left one stands. -/
theorem effect_leftAlone {left right : Expr .factor} {op : Token} {ρ : Ty} (htr : HasType s.table.env right ρ)
    (hρ : ρ ≠ .integer) (hl : left.Effect w n s)
    (hr : right.Effect w (n + left.slotCount s.table.env) (left.lower s).state) :
    (Expr.compare left op right).Effect w n s := by
  have hright : (right.lower (left.lower s).state).state.current.ty ≠ .integer := by
    rw [current_ty_second htr left rfl]
    exact hρ
  have hstate : ((Expr.compare left op right).lower s).state =
      { (right.lower (left.lower s).state).state with current := (left.lower s).state.current } := by
    simp [Expr.lower, state_compare_leftAlone hright]
  have hlines : (Expr.compare left op right).lower.lines s =
      left.lower.lines s ++ right.lower.lines (left.lower s).state := by
    simp [Expr.lower, Gen.compare, Ty.comparable, hright]
  have hcount : (Expr.compare left op right).slotCount s.table.env =
      left.slotCount s.table.env + right.slotCount s.table.env := by simp [slotCount, htr.ty?_eq, hρ]
  have hbare : (Expr.compare left op right).bare? s.table.env = left.bare? s.table.env := by
    simp [bare?, htr.ty?_eq, hρ]
  have hframe := hr.frame
  rw [table_lower, Nat.add_assoc] at hframe
  constructor
  · rw [hstate, hcount]
    exact hframe
  · rw [hstate, hbare]
    exact hl.known
  · rw [hstate, hbare, hcount]
    exact fun hnone => (hl.fresh hnone).imp_right fun hands => hands.mono (Nat.le_add_right _ _)
  · exact hl.found_both hr
  · intro offset
    rw [hlines, hcount]
    exact hl.stored_both hr offset

/-- The effect of an expression that has a type. -/
theorem effect_lower {Γ : Env} {l : Level} {e : Expr l} {τ : Ty} (h : HasType Γ e τ) {s : GenState} {n : Nat}
    (hΓ : s.table.env = Γ) (hf : s.frame = .after w n) : e.Effect w n s := by
  induction h generalizing s n with
  | name hd => exact effect_name (hΓ ▸ hd) hf
  | literal => exact effect_literal _ hf
  | negation ht hτ ih => exact (ih hΓ hf).negation (hΓ ▸ ht) hτ
  | group _ ih => exact Wraps.group.effect (ih hΓ hf)
  | factor _ ih => exact Wraps.factor.effect (ih hΓ hf)
  | relation _ ih => exact Wraps.relation.effect (ih hΓ hf)
  | term _ ih => exact Wraps.term.effect (ih hΓ hf)
  | comparison htl hτ htr ihl ihr =>
    subst hΓ
    have hleft := ihl rfl hf
    exact Joins.compare.effect ⟨hτ, rfl⟩ htl htr hleft (ihr (by rw [table_lower]) hleft.frame)
  | leftAlone _ htr hρ ihl ihr =>
    subst hΓ
    have hleft := ihl rfl hf
    exact effect_leftAlone htr hρ hleft (ihr (by rw [table_lower]) hleft.frame)
  | mul htl htr hτ ihl ihr =>
    subst hΓ
    have hleft := ihl rfl hf
    exact Joins.mul.effect ⟨rfl, hτ⟩ htl htr hleft (ihr (by rw [table_lower]) hleft.frame)
  | add htl htr hτ ihl ihr =>
    subst hΓ
    have hleft := ihl rfl hf
    exact Joins.add.effect ⟨rfl, hτ⟩ htl htr hleft (ihr (by rw [table_lower]) hleft.frame)

end Expr

/-! ## The expressions that a lowering comes to -/

/-- `e.Visits s e' s'`: the lowering of `e` from the state `s` comes to the expression `e'` in the state `s'`. -/
inductive Expr.Visits : {l m : Level} → Expr l → GenState → Expr m → GenState → Prop where
  | self {l : Level} {e : Expr l} {s : GenState} : Visits e s e s
  | wrapped {k l m : Level} {e : Expr k} {inner : Expr l} {e' : Expr m} {s s' : GenState} :
      e.Wraps inner → Visits inner s e' s' → Visits e s e' s'
  | left {j k l m : Level} {e : Expr j} {left : Expr k} {operation : Operation} {right : Expr l} {e' : Expr m}
      {s s' : GenState} : e.Joins left operation right → Visits left s e' s' → Visits e s e' s'
  | right {j k l m : Level} {e : Expr j} {left : Expr k} {operation : Operation} {right : Expr l} {e' : Expr m}
      {s s' : GenState} : e.Joins left operation right → Visits right (left.lower s).state e' s' → Visits e s e' s'
  | negated {m : Level} {op : Token} {e : Expr .factor} {e' : Expr m} {s s' : GenState} :
      Visits e s e' s' → Visits (.negation op e) s e' s'

/-- `c.Visits s e s'`: the lowering of `c` from the state `s` comes to the expression `e` in the state `s'`. -/
inductive Code.Visits : {x : Extent} → {l : Level} → Code x → GenState → Expr l → GenState → Prop where
  | assign {l : Level} {target sign : Token} {value : Expr .expression} {v : Variable} {e : Expr l} {s s' : GenState} :
      s.table.resolve target.value = .ok v → value.Visits { s with current := .inFrame v.ty v.offset } e s' →
      Visits (.assign target sign value) s e s'
  | ifCondition {l : Level} {opening middle : Token} {condition : Expr .expression} {action : Stmt} {e : Expr l}
      {s s' : GenState} : condition.Visits s e s' → Visits (.ifThen opening condition middle action) s e s'
  | ifAction {l : Level} {opening middle : Token} {condition : Expr .expression} {action : Stmt} {e : Expr l}
      {s s' : GenState} :
      Visits action { (condition.lower s).state with labels := (condition.lower s).state.labels + 1 } e s' →
      Visits (.ifThen opening condition middle action) s e s'
  | whileCondition {l : Level} {opening middle : Token} {condition : Expr .expression} {action : Stmt} {e : Expr l}
      {s s' : GenState} : condition.Visits { s with labels := s.labels + 2 } e s' →
      Visits (.whileDo opening condition middle action) s e s'
  | whileAction {l : Level} {opening middle : Token} {condition : Expr .expression} {action : Stmt} {e : Expr l}
      {s s' : GenState} : Visits action (condition.lower { s with labels := s.labels + 2 }).state e s' →
      Visits (.whileDo opening condition middle action) s e s'
  | block {l : Level} {opening closing : Token} {inside : Code .body} {e : Expr l} {s s' : GenState} :
      Visits inside { s with table := s.table.enter } e s' → Visits (.block opening inside closing) s e s'
  | write {l : Level} {keyword opening closing : Token} {value : Expr .expression} {e : Expr l} {s s' : GenState} :
      value.Visits s e s' → Visits (.write keyword opening value closing) s e s'
  | last {l : Level} {c : Stmt} {e : Expr l} {s s' : GenState} : Visits c s e s' → Visits (.last c) s e s'
  | first {l : Level} {c : Stmt} {separator : Token} {rest : Code .body} {e : Expr l} {s s' : GenState} :
      Visits c s e s' → Visits (.next c separator rest) s e s'
  | rest {l : Level} {c : Stmt} {separator : Token} {rest : Code .body} {e : Expr l} {s s' : GenState} :
      Visits rest (c.lower s).state e s' → Visits (.next c separator rest) s e s'

/-- The lowering of a program with slots of a size comes to an expression in a state. -/
def Program.Visits {l : Level} (p : Program) (wordSize : Int64) (e : Expr l) (s : GenState) : Prop :=
  match p with
  | .bare _ => False
  | .block _ inside _ _ => inside.Visits { frame := { wordSize }, table := SymbolTable.enter {} } e s

/-! ### Their code is part of the whole -/

/-- The code of an operator stands behind the code of its operands, also where the operands do not fit. -/
theorem Expr.Joins.lines_behind {k l m : Level} {e : Expr k} {left : Expr l} {operation : Operation} {right : Expr m}
    (h : e.Joins left operation right) (s : GenState) :
    ∃ own, e.lower.lines s = left.lower.lines s ++ (right.lower.lines (left.lower s).state ++ own) := by
  cases h <;> exact ⟨_, by simp [Expr.lower]; rfl⟩

theorem Expr.Visits.isInfix_lines {l m : Level} {e : Expr l} {e' : Expr m} {s s' : GenState} (h : e.Visits s e' s') :
    e'.lower.lines s' <:+: e.lower.lines s := by
  induction h with
  | self => exact List.infix_rfl
  | wrapped hw _ ih =>
    rw [hw.lines]
    exact ih
  | left hj _ ih =>
    obtain ⟨own, hlines⟩ := hj.lines_behind _
    rw [hlines]
    exact ih.trans (List.prefix_append _ _).isInfix
  | right hj _ ih =>
    obtain ⟨own, hlines⟩ := hj.lines_behind _
    rw [hlines]
    exact ih.trans (List.infix_append' _ _ _)
  | negated _ ih =>
    refine ih.trans (List.IsPrefix.isInfix ?_)
    simp [Expr.lower]

theorem Code.Visits.isInfix_lines {x : Extent} {l : Level} {c : Code x} {e : Expr l} {s s' : GenState}
    (h : c.Visits s e s') : e.lower.lines s' <:+: c.lower.lines s := by
  induction h with
  | assign hres hvalue =>
    refine hvalue.isInfix_lines.trans (List.IsPrefix.isInfix ?_)
    simp [Code.lower, Gen.assignment, hres, reference_ok hres]
  | ifCondition hcondition =>
    refine hcondition.isInfix_lines.trans (List.IsPrefix.isInfix ?_)
    simp [Code.lower, lines_conditional]
  | ifAction _ ih =>
    simp only [Code.lower, lines_bind, lines_enter, state_enter, List.nil_append, lines_conditional]
    exact (ih.trans (List.infix_append' _ _ _)).trans (List.suffix_append _ _).isInfix
  | whileCondition hcondition =>
    simp only [Code.lower, lines_bind, lines_enter, state_enter, List.nil_append, lines_loop]
    exact hcondition.isInfix_lines.trans (List.infix_append' _ _ _)
  | whileAction _ ih =>
    simp only [Code.lower, lines_bind, lines_enter, state_enter, List.nil_append, lines_loop]
    exact ((ih.trans (List.infix_append' _ _ _)).trans (List.suffix_append _ _).isInfix).trans
      (List.suffix_append _ _).isInfix
  | block _ ih =>
    refine ih.trans (List.IsPrefix.isInfix ?_)
    simp [Code.lower, lines_block]
  | write hvalue =>
    refine hvalue.isInfix_lines.trans (List.IsPrefix.isInfix ?_)
    simp [Code.lower, Gen.write]
  | last _ ih => exact ih
  | first _ ih =>
    refine ih.trans (List.IsPrefix.isInfix ?_)
    simp [Code.lower]
  | rest _ ih =>
    refine ih.trans (List.IsSuffix.isInfix ?_)
    simp [Code.lower]

theorem Program.Visits.isInfix_lines {l : Level} {p : Program} {wordSize : Int64} {e : Expr l} {s : GenState}
    (hv : p.Valid) (h : p.Visits wordSize e s) :
    e.lower.lines s <:+: (AlgolMips.lower wordSize { tokens := p.tokens }).lines := by
  rw [lower_tokens hv]
  cases p with
  | bare stop => exact h.elim
  | block opening inside closing stop =>
    refine (Code.Visits.isInfix_lines h).trans ⟨prolog, postlog, ?_⟩
    refine Eq.trans ?_ (Program.lines_lower_eq (.block opening inside closing stop) {} { frame := { wordSize } }).symm
    simp [Program.body, lines_block]

/-! ### They are reached by the calls of a session -/

/-- A state is behind another one in a session. -/
def GenState.Reaches (s t : GenState) : Prop := ∃ calls, t.session = s.session.run calls

namespace GenState.Reaches

theorem refl (s : GenState) : s.Reaches s := ⟨[], rfl⟩

theorem trans {s t u : GenState} (h : s.Reaches t) (h' : t.Reaches u) : s.Reaches u := by
  obtain ⟨first, hfirst⟩ := h
  obtain ⟨second, hsecond⟩ := h'
  exact ⟨first ++ second, by rw [hsecond, hfirst, Session.run_append]⟩

end GenState.Reaches

theorem Gen.Draws.reaches {α : Type} {m : Gen α} {s : GenState} (h : m.Draws s) : s.Reaches (m s).state := by
  obtain ⟨calls, hstate, -⟩ := h
  exact ⟨calls, hstate⟩

theorem Expr.Visits.reaches {l m : Level} {e : Expr l} {e' : Expr m} {s s' : GenState} (h : e.Visits s e' s') :
    s.Reaches s' := by
  induction h with
  | self => exact .refl _
  | wrapped _ _ ih => exact ih
  | left _ _ ih => exact ih
  | @right _ _ _ _ _ left _ _ _ s _ _ _ ih => exact (left.draws_lower s).reaches.trans ih
  | negated _ ih => exact ih

theorem Code.Visits.reaches {x : Extent} {l : Level} {c : Code x} {e : Expr l} {s s' : GenState} (h : c.Visits s e s') :
    s.Reaches s' := by
  induction h with
  | assign _ hvalue => exact hvalue.reaches
  | ifCondition hcondition => exact hcondition.reaches
  | @ifAction _ _ _ condition _ _ s _ _ ih => exact (condition.draws_lower s).reaches.trans ih
  | whileCondition hcondition => exact hcondition.reaches
  | @whileAction _ _ _ condition _ _ s _ _ ih =>
    have hcondition := (condition.draws_lower { s with labels := s.labels + 2 }).reaches
    exact hcondition.trans ih
  | block _ ih => exact GenState.Reaches.trans ⟨[.enter], rfl⟩ ih
  | write hvalue => exact hvalue.reaches
  | last _ ih => exact ih
  | first _ ih => exact ih
  | @rest _ c _ _ _ s _ _ ih => exact (c.draws_lower s).reaches.trans ih

theorem Program.Visits.session {l : Level} {p : Program} {wordSize : Int64} {e : Expr l} {s : GenState}
    (h : p.Visits wordSize e s) : ∃ calls, s.session = (Session.fresh wordSize).run calls := by
  cases p with
  | bare stop => exact h.elim
  | block opening inside closing stop =>
    obtain ⟨calls, hcalls⟩ := Code.Visits.reaches h
    exact ⟨.enter :: calls, hcalls⟩

/-! ### They have types -/

theorem Expr.Visits.hasType {l m : Level} {e : Expr l} {e' : Expr m} {s s' : GenState} (h : e.Visits s e' s') {τ : Ty}
    (ht : HasType s.table.env e τ) : ∃ τ', HasType s'.table.env e' τ' := by
  induction h generalizing τ with
  | self => exact ⟨τ, ht⟩
  | wrapped hw _ ih =>
    cases hw <;> cases ht <;> exact ih ‹_›
  | left hj _ ih =>
    cases hj <;> cases ht <;> exact ih ‹_›
  | right hj _ ih =>
    rw [table_lower] at ih
    cases hj <;> cases ht <;> exact ih ‹_›
  | negated _ ih =>
    cases ht with
    | negation hinner => exact ih hinner

theorem Code.Visits.hasType {x : Extent} {l : Level} {c : Code x} {e : Expr l} {s s' : GenState} (h : c.Visits s e s')
    (hv : c.Valid) (hs : c.Scoped s.table.env) (ht : Typed s.table.env c) : ∃ τ, HasType s'.table.env e τ := by
  induction h with
  | assign _ hvalue =>
    cases ht with
    | assign _ htv => exact hvalue.hasType htv
  | ifCondition hcondition =>
    cases ht with
    | ifThen htc _ => exact hcondition.hasType htc
  | ifAction _ ih =>
    cases ht with
    | ifThen _ hta => exact ih hv.2.2.2 (by simpa using hs.2) (by simpa using hta)
  | whileCondition hcondition =>
    cases ht with
    | whileDo htc _ => exact hcondition.hasType htc
  | whileAction _ ih =>
    cases ht with
    | whileDo _ hta => exact ih hv.2.2.2 (by simpa using hs.2) (by simpa using hta)
  | block _ ih =>
    cases ht with
    | block hti => exact ih hv.2.1 (by rw [SymbolTable.env_enter]; exact hs) (by rw [SymbolTable.env_enter]; exact hti)
  | write hvalue =>
    cases ht with
    | write htv => exact hvalue.hasType htv
  | last _ ih =>
    cases ht with
    | last htc => exact ih hv.1 hs htc
  | first _ ih =>
    cases ht with
    | next htc _ => exact ih hv.1 hs.1 htc
  | @rest _ c _ _ _ s _ _ ih =>
    cases ht with
    | next _ htr =>
      have henv := c.env_lower hv.1 s hs.1
      exact ih hv.2.2 (by rw [henv]; exact hs.2) (by rw [henv]; exact htr)

theorem Program.Visits.hasType {l : Level} {p : Program} {wordSize : Int64} {e : Expr l} {s : GenState}
    (h : p.Visits wordSize e s) (hv : p.Valid) (hs : p.Scoped) (ht : p.Typed) : ∃ τ, HasType s.table.env e τ := by
  cases p with
  | bare stop => exact h.elim
  | block opening inside closing stop =>
    exact Code.Visits.hasType h hv.2.1 (by rw [SymbolTable.env_enter]; exact hs) (by rw [SymbolTable.env_enter]; exact ht)

/-! ## Where expressions store -/

/-- A variable that a name stands for is declared. -/
theorem SymbolTable.SlotOf.declared {t : SymbolTable} {tok : Token} {offset : Int64} (h : t.SlotOf tok offset) :
    ∃ v ∈ t.declared, v.offset = offset := by
  obtain ⟨v, hres, hoffset⟩ := h
  unfold resolve at hres
  split at hres
  · next w hlookup =>
    cases hres
    obtain ⟨scope, hscope, hfind⟩ := List.exists_of_findSome?_eq_some hlookup
    have hmem : v ∈ t.declared :=
      List.mem_flatMap.2 ⟨scope, List.mem_append_left _ hscope, List.mem_of_find?_eq_some hfind⟩
    exact ⟨v, hmem, hoffset⟩
  · cases hres

/-- The variables that are declared have slots that were handed out. -/
theorem Session.mem_slots_of_declared {w : Int64} {calls : List Call} {v : Variable}
    (hv : v ∈ ((Session.fresh w).run calls).table.declared) : v.offset ∈ (Session.fresh w).slots calls := by
  refine (Session.perm_taken w calls).mem_iff.1 (List.mem_append_left _ (List.mem_map_of_mem ?_))
  simp only [SymbolTable.declared, SymbolTable.scopes, List.mem_flatMap, List.mem_append] at hv ⊢
  obtain ⟨scope, hscope, hmem⟩ := hv
  exact ⟨scope, by simpa [SymbolTable.active] using hscope, hmem⟩

/-- As long as slots do not wrap around, those behind the first `n` are none of them. -/
theorem Frame.Hands.not_mem_slots {w : Int64} {calls : List Call} {k : Nat} {offset : Int64}
    (h : Hands w ((Session.fresh w).slots calls).length k offset) (hpos : 0 < w.toInt) (hsmall : w.toInt < 2 ^ 31)
    (hfew : ((Session.fresh w).slots calls).length + k < 2 ^ 32) : offset ∉ (Session.fresh w).slots calls := by
  obtain ⟨i, hle, hlt, rfl⟩ := h
  intro hmem
  rw [Session.slots_fresh] at hmem
  obtain ⟨j, hj, heq⟩ := List.mem_map.1 hmem
  have hji : j < i := Nat.lt_of_lt_of_le (List.mem_range.1 hj) hle
  have hfits : (i + 1 : Nat) * w.toInt ≤ 2 ^ 32 * 2 ^ 31 := Int.mul_le_mul (by omega) (by omega) (by omega) (by omega)
  have hbelow := slot_lt hpos (Int.le_trans hfits (by omega)) hji (Nat.lt_succ_self i)
  exact Int64.ne_of_lt hbelow heq.symm

/-- Every expression of a well-typed program stores in the slots that are handed out for it and in the slots of the
variables that a `!` in it is applied to, and in no others. So all its stores go to slots of its own iff there is no such
variable, and then neither a declared variable nor an earlier temporary is changed: their slots are among those handed out
before, by whatever calls the session has come to where the expression begins. -/
theorem expression_stores (wordSize : Int64) (p : Program) (hv : p.Valid) (hs : p.Scoped) (ht : p.Typed) {l : Level}
    (e : Expr l) (s : GenState) (h : p.Visits wordSize e s) :
    e.lower.lines s <:+: (lower wordSize { tokens := p.tokens }).lines ∧
    (∃ calls, s.session = (Session.fresh wordSize).run calls) ∧
    ∀ calls, s.session = (Session.fresh wordSize).run calls →
      let before := (Session.fresh wordSize).slots calls
      let count := e.slotCount s.table.env
      (∀ v ∈ s.table.declared, v.offset ∈ before) ∧
      s.frame = .after wordSize before.length ∧
      (e.lower s).state.frame = .after wordSize (before.length + count) ∧
      (∀ offset, offset ∈ storedSlots (e.lower.lines s) ↔
        Frame.Hands wordSize before.length count offset ∨
          ∃ tok ∈ e.overwritten s.table.env, s.table.SlotOf tok offset) ∧
      (0 < wordSize.toInt → wordSize.toInt < 2 ^ 31 → before.length + count < 2 ^ 32 →
        ((∀ offset ∈ storedSlots (e.lower.lines s), Frame.Hands wordSize before.length count offset) ↔
          e.overwritten s.table.env = []) ∧
        ∀ offset, Frame.Hands wordSize before.length count offset → offset ∉ before) := by
  refine ⟨h.isInfix_lines hv, h.session, fun calls hcalls => ?_⟩
  obtain ⟨τ, hτ⟩ := h.hasType hv hs ht
  have hdeclared : ∀ v ∈ s.table.declared, v.offset ∈ (Session.fresh wordSize).slots calls := by
    intro v hmem
    rw [show s.table = s.session.table from rfl, hcalls] at hmem
    exact Session.mem_slots_of_declared hmem
  have hframe : s.frame = .after wordSize ((Session.fresh wordSize).slots calls).length := by
    rw [show s.frame = s.session.frame from rfl, hcalls, (Session.slots_eq Frame.after_zero.symm calls).2, Nat.zero_add]
  have heffect := Expr.effect_lower hτ rfl hframe
  refine ⟨hdeclared, hframe, heffect.frame, heffect.stored, fun hpos hsmall hfew => ?_⟩
  have hapart : ∀ offset, Frame.Hands wordSize _ _ offset → offset ∉ (Session.fresh wordSize).slots calls :=
    fun _ hands => hands.not_mem_slots hpos hsmall hfew
  refine ⟨⟨fun hown => ?_, fun hnone offset hstored => ?_⟩, hapart⟩
  · refine List.eq_nil_iff_forall_not_mem.2 fun tok htok => ?_
    -- the slot of such a variable was handed out before, so it is none of the expression's own
    obtain ⟨offset, hslot⟩ := heffect.found tok htok
    obtain ⟨v, hmem, rfl⟩ := hslot.declared
    exact hapart _ (hown _ ((heffect.stored _).2 (.inr ⟨tok, htok, hslot⟩))) (hdeclared v hmem)
  · rcases (heffect.stored offset).1 hstored with hands | ⟨tok, htok, -⟩
    · exact hands
    · rw [hnone] at htok
      cases htok

/-- A program that declares a variable and a truth value `b`, and then gives `b` a value. -/
def settingProgram (type name : Text) (value : Expr .factor) : Program :=
  .block (.plain .begin "begin")
    (.next (.declare (.plain .typeName type) (.plain .ident name)) (.plain .semi ";")
      (.next (.declare (.plain .typeName "logical") (.plain .ident "b")) (.plain .semi ";")
        (.last (.assign (.plain .ident "b") (.plain .assign ":=") (.term (.relation (.factor value)))))))
    (.plain .end "end") (.plain .dot ".")

/-- `!((x + 1) < 3)` -/
def invertedComparison : Expr .factor :=
  .negation (.plain .not "!") (.group (.plain .lparen "(") (.term (.relation (.compare
    (.group (.plain .lparen "(") (.add (.term (.relation (.factor (.name (.plain .ident "x"))))) (.plain .addOp "+")
      (.relation (.factor (.literal (.plain .literal "1"))))) (.plain .rparen ")"))
    (.plain .relOp "<") (.literal (.plain .literal "3"))))) (.plain .rparen ")"))

/-- `!` of a comparison stores where the comparison did, and changes no variable. -/
theorem invertedComparison_stores :
    let p := settingProgram "integer" "x" invertedComparison
    p.Valid ∧ p.Scoped ∧ p.Typed ∧ ∃ s, p.Visits 4 invertedComparison s ∧
      storedSlots (invertedComparison.lower.lines s) = [-8, -12, -16, -20, -20] ∧
      ∀ offset ∈ storedSlots (invertedComparison.lower.lines s), Frame.Hands 4 2 4 offset := by
  intro p
  have hv : p.Valid := by simp [p, settingProgram, invertedComparison, Program.Valid, Code.Valid, Expr.Valid, Token.plain]
  have hs : p.Scoped := by decide +kernel
  have hsum : HasType (Env.initial.enter.declare "x" .integer |>.declare "b" .logical)
      (.add (.term (.relation (.factor (.name (.plain .ident "x"))))) (.plain .addOp "+")
        (.relation (.factor (.literal (.plain .literal "1"))))) .integer :=
    .add (.term (.relation (.factor (.name (d := ⟨"x", .integer, 1, 0⟩) (by decide +kernel)))))
      (.relation (.factor .literal)) (by decide)
  have ht : p.Typed :=
    .next .declare (.next .declare (.last (.assign (d := ⟨"b", .logical, 1, 1⟩) (by decide +kernel)
      (.term (.relation (.factor (.negation
        (.group (.term (.relation (.comparison (.group hsum) (by decide) .literal)))) (by decide))))))))
  let calls : List Call := [.enter, .declare (.plain .ident "x") .integer, .declare (.plain .ident "b") .logical]
  have hvisit : ∃ s, p.Visits 4 invertedComparison s ∧ s.session = (Session.fresh 4).run calls ∧
      storedSlots (invertedComparison.lower.lines s) = [-8, -12, -16, -20, -20] ∧
      invertedComparison.slotCount s.table.env = 4 ∧ invertedComparison.overwritten s.table.env = [] :=
    ⟨_, .rest (.rest (.last (.assign (v := ⟨.plain .ident "b", .logical, -4⟩) (by decide +kernel)
      (.wrapped .term (.wrapped .relation (.wrapped .factor .self)))))), by decide +kernel, by decide +kernel,
      by decide +kernel, by decide +kernel⟩
  obtain ⟨s, hvisits, hsession, hslots, hcount, hnone⟩ := hvisit
  have hlength : ((Session.fresh 4).slots calls).length = 2 := by decide +kernel
  have hstores := (expression_stores 4 p hv hs ht invertedComparison s hvisits).2.2 calls hsession
  have hown := (hstores.2.2.2.2 (by decide) (by decide) (by rw [hlength, hcount]; decide)).1.2 hnone
  rw [hlength, hcount] at hown
  exact ⟨hv, hs, ht, s, hvisits, hslots, hown⟩

/-- `!a` -/
def invertedVariable : Expr .factor := .negation (.plain .not "!") (.name (.plain .ident "a"))

/-- `b := !a` also changes `a`, and no slot is handed out for the expression. -/
theorem invertedVariable_overwrites :
    let p := settingProgram "logical" "a" invertedVariable
    p.Valid ∧ p.Complete ∧ p.Scoped ∧ p.Typed ∧ ∃ s, p.Visits 4 invertedVariable s ∧
      s.table.SlotOf (.plain .ident "a") 0 ∧ storedSlots (invertedVariable.lower.lines s) = [0] ∧
      (invertedVariable.lower s).state.frame = s.frame ∧
      Line.instr (.store .t0 0) ∈ (lower 4 { tokens := p.tokens }).lines := by
  intro p
  have hv : p.Valid := by simp [p, settingProgram, invertedVariable, Program.Valid, Code.Valid, Expr.Valid, Token.plain]
  have hc : p.Complete := by simp [p, settingProgram, invertedVariable, Program.Complete, Code.Complete, Expr.Complete]
  have ht : p.Typed :=
    .next .declare (.next .declare (.last (.assign (d := ⟨"b", .logical, 1, 1⟩) (by decide +kernel)
      (.term (.relation (.factor (.negation (.name (d := ⟨"a", .logical, 1, 0⟩) (by decide +kernel)) (by decide))))))))
  have hvisit : ∃ s, p.Visits 4 invertedVariable s ∧ s.table.resolve "a" = .ok ⟨.plain .ident "a", .logical, 0⟩ ∧
      storedSlots (invertedVariable.lower.lines s) = [0] ∧ (invertedVariable.lower s).state.frame = s.frame ∧
      Line.instr (.store .t0 0) ∈ invertedVariable.lower.lines s :=
    ⟨_, .rest (.rest (.last (.assign (v := ⟨.plain .ident "b", .logical, -4⟩) (by decide +kernel)
      (.wrapped .term (.wrapped .relation (.wrapped .factor .self)))))), by decide +kernel, by decide +kernel,
      by decide +kernel, by decide +kernel⟩
  obtain ⟨s, hvisits, hres, hslots, hframe, hstore⟩ := hvisit
  have hwhole := (hvisits.isInfix_lines hv).subset hstore
  exact ⟨hv, hc, by decide +kernel, ht, s, hvisits, ⟨_, hres, rfl⟩, hslots, hframe, hwhole⟩

end AlgolMips
