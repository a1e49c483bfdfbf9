import AlgolMips.Proofs.Acceptance
import AlgolMips.Proofs.Scoping

/-!
# The type system

Types are assigned to expressions by rules, and lowering checks exactly these rules. It assigns no type to a tree: the
type is a part of the operand that every subexpression leaves behind and that the next one overwrites. What carries the
proof is that after an expression with a type the current operand has that type, and stands at a label only if it is a
string (`Expr.lower_of_hasType`).

A comparison is one only where its right operand is an integer. Otherwise the whole has the type of its left operand.
-/

namespace AlgolMips

open Gen

/-! ## Rules -/

/-- `HasType Γ e τ`: the expression `e` has the type `τ` in the environment `Γ`. -/
inductive HasType (Γ : Env) : {l : Level} → Expr l → Ty → Prop where
  | name {tok : Token} {d : Binding} : Γ.find? tok.value = some d → HasType Γ (.name tok) d.ty
  | literal {tok : Token} : HasType Γ (.literal tok) (Ty.ofLiteral tok.value)
  | negation {op : Token} {e : Expr .factor} {τ : Ty} :
      HasType Γ e τ → τ ≠ .string → HasType Γ (.negation op e) τ
  | group {opening closing : Token} {e : Expr .expression} {τ : Ty} :
      HasType Γ e τ → HasType Γ (.group opening e closing) τ
  | factor {e : Expr .factor} {τ : Ty} : HasType Γ e τ → HasType Γ (.factor e) τ
  | comparison {left right : Expr .factor} {op : Token} {τ : Ty} :
      HasType Γ left τ → τ ≠ .string → HasType Γ right .integer → HasType Γ (.compare left op right) .logical
  | leftAlone {left right : Expr .factor} {op : Token} {τ ρ : Ty} :
      HasType Γ left τ → HasType Γ right ρ → ρ ≠ .integer → HasType Γ (.compare left op right) τ
  | relation {e : Expr .relation} {τ : Ty} : HasType Γ e τ → HasType Γ (.relation e) τ
  | mul {left : Expr .term} {op : Token} {right : Expr .relation} {τ : Ty} :
      HasType Γ left τ → HasType Γ right τ → τ ≠ .string → HasType Γ (.mul left op right) .integer
  | term {e : Expr .term} {τ : Ty} : HasType Γ e τ → HasType Γ (.term e) τ
  | add {left : Expr .expression} {op : Token} {right : Expr .term} {τ : Ty} :
      HasType Γ left τ → HasType Γ right τ → τ ≠ .string → HasType Γ (.add left op right) .integer

/-- An expression has one type. -/
theorem HasType.unique {Γ : Env} {l : Level} {e : Expr l} {τ ρ : Ty} (h : HasType Γ e τ) (h' : HasType Γ e ρ) :
    τ = ρ := by
  induction h generalizing ρ with
  | name hd =>
    cases h' with
    | name hd' =>
      rw [hd] at hd'
      cases hd'
      rfl
  | literal =>
    cases h' with
    | literal => rfl
  | negation _ _ ih =>
    cases h' with
    | negation h' _ => exact ih h'
  | group _ ih =>
    cases h' with
    | group h' => exact ih h'
  | factor _ ih =>
    cases h' with
    | factor h' => exact ih h'
  | comparison _ _ _ _ ihr =>
    cases h' with
    | comparison => rfl
    | leftAlone _ hr hne => exact absurd (ihr hr).symm hne
  | leftAlone _ _ hne ihl ihr =>
    cases h' with
    | comparison _ _ hr => exact absurd (ihr hr) hne
    | leftAlone hl _ _ => exact ihl hl
  | relation _ ih =>
    cases h' with
    | relation h' => exact ih h'
  | mul =>
    cases h' with
    | mul => rfl
  | term _ ih =>
    cases h' with
    | term h' => exact ih h'
  | add =>
    cases h' with
    | add => rfl

/-- `Typed Γ c`: the statement or the inside of a block `c` is well typed in the environment `Γ`. -/
inductive Typed : Env → {x : Extent} → Code x → Prop where
  | empty {Γ : Env} : Typed Γ .empty
  | declare {Γ : Env} {type name : Token} : Typed Γ (.declare type name)
  | assign {Γ : Env} {target sign : Token} {value : Expr .expression} {d : Binding} :
      Γ.find? target.value = some d → HasType Γ value d.ty → Typed Γ (.assign target sign value)
  | ifThen {Γ : Env} {opening middle : Token} {condition : Expr .expression} {action : Stmt} :
      HasType Γ condition .logical → Typed Γ action → Typed Γ (.ifThen opening condition middle action)
  | whileDo {Γ : Env} {opening middle : Token} {condition : Expr .expression} {action : Stmt} :
      HasType Γ condition .logical → Typed Γ action → Typed Γ (.whileDo opening condition middle action)
  | block {Γ : Env} {opening closing : Token} {inside : Body} :
      Typed Γ.enter inside → Typed Γ (.block opening inside closing)
  | read {Γ : Env} {keyword opening target closing : Token} {d : Binding} :
      Γ.find? target.value = some d → d.ty = .integer → Typed Γ (.read keyword opening (some target) closing)
  | write {Γ : Env} {keyword opening closing : Token} {value : Expr .expression} {τ : Ty} :
      HasType Γ value τ → Typed Γ (.write keyword opening value closing)
  | done {Γ : Env} : Typed Γ .done
  | last {Γ : Env} {s : Stmt} : Typed Γ s → Typed Γ (.last s)
  | next {Γ : Env} {s : Stmt} {separator : Token} {rest : Body} :
      Typed Γ s → Typed (s.after Γ) rest → Typed Γ (.next s separator rest)

def Program.Typed : Program → Prop
  | bare _ => True
  | block _ inside _ _ => AlgolMips.Typed Env.initial.enter inside

/-! ## Expressions -/

/-- Every fault is one. -/
def Fault.Any (_ : Fault) : Prop := True

@[simp] theorem Fault.any (f : Fault) : f.Any := trivial

/-- An operand has a type, and stands at a label only if it is a string. -/
def Operand.Carries (d : Operand) (τ : Ty) : Prop := d.ty = τ ∧ (d.place.isLabel → τ = .string)

theorem Operand.inFrame_carries (τ : Ty) (offset : Int64) : (Operand.inFrame τ offset).Carries τ := ⟨rfl, nofun⟩

theorem Ty.combines_iff {left right : Ty} : left.combines right ↔ left = right ∧ left ≠ .string := by
  simp [Ty.combines]

namespace Gen

theorem state_add {left right : Operand} (h : left.ty.combines right.ty) (op : Token) (s : GenState) :
    (add op left right s).state = { s with frame := s.frame.alloc.2, current := .inFrame .integer s.frame.next } := by
  rw [add, if_pos h, state_binary]

theorem state_mul {left right : Operand} (h : left.ty.combines right.ty) (op : Token) (s : GenState) :
    (mul op left right s).state = { s with frame := s.frame.alloc.2, current := .inFrame .integer s.frame.next } := by
  rw [mul, if_pos h, state_binary]

theorem state_compare {left right : Operand} (hr : right.ty = .integer) (hl : left.ty ≠ .string) (op : Token)
    (s : GenState) : (Gen.compare op left right s).state =
      { s with frame := s.frame.alloc.2, current := .inFrame .logical s.frame.next } := by
  have hc : ¬ (!right.ty.comparable) = true := by simp [Ty.comparable, hr]
  rw [Gen.compare, if_neg hc, if_neg hl, state_binary]

theorem state_compare_leftAlone {left right : Operand} (hr : right.ty ≠ .integer) (op : Token) (s : GenState) :
    (Gen.compare op left right s).state = { s with current := left } := by
  have hc : (!right.ty.comparable) = true := by simp [Ty.comparable, hr]
  rw [Gen.compare, if_pos hc, state_setCurrent]

/-- Numbered labels have a name. -/
theorem atLabel_generated (τ : Ty) (n : Nat) : Operand.atLabel τ (.generated n) = ⟨τ, .label (.generated n)⟩ := by
  have h : (Mips.Label.generated n).name.isEmpty = false := by
    simp only [Mips.Label.name, Text.isEmpty, Text.bytes_append, List.isEmpty_eq_false_iff]
    exact List.append_ne_nil_of_left_ne_nil (by decide) _
  rw [Operand.atLabel, h]
  rfl

theorem literal_carries (lexeme : Text) (s : GenState) :
    (literal lexeme s).state.current.Carries (Ty.ofLiteral lexeme) := by
  unfold literal
  split
  · next h =>
    rw [h]
    simp [atLabel_generated, Operand.Carries]
  · exact Operand.inFrame_carries _ _

end Gen

/-- An expression with a type is lowered without a fault, and leaves an operand of that type. -/
theorem Expr.lower_of_hasType {l : Level} {e : Expr l} {Γ : Env} {τ : Ty} (h : HasType Γ e τ) (s : GenState)
    (hs : s.table.env = Γ) : (e.lower s).state.current.Carries τ ∧ (e.Valid → Clear Fault.Any e.lower s) := by
  induction h generalizing s with
  | @name tok d hd =>
    rw [← hs] at hd
    obtain ⟨v, hres, hty, _⟩ := SymbolTable.resolve_of_find? hd
    simp only [Expr.lower, state_bind, state_produce, state_pure, (reference_ok hres).1, clear_bind, clear_produce,
      clear_reference, clear_pure, true_and, and_true, ← hty]
    exact ⟨Operand.inFrame_carries _ _, fun _ e he => by simp [hres] at he⟩
  | literal =>
    simp only [Expr.lower, state_bind, state_produce, clear_bind, clear_produce, clear_literal, true_and]
    exact ⟨literal_carries _ s, fun _ => trivial⟩
  | negation _ hτ ih =>
    obtain ⟨⟨hty, hplace⟩, hsilent⟩ := ih s hs
    simp only [Expr.lower, state_bind, state_produce, value_current, state_current, state_negate, clear_bind,
      clear_produce, clear_current, clear_negate, true_and]
    refine ⟨⟨hty, hplace⟩, fun hv => ⟨hsilent hv.2, .inl ⟨?_, ?_⟩⟩⟩
    · simpa [Ty.negatable, hty] using hτ
    · exact Bool.eq_false_iff.2 fun hlabel => hτ (hplace hlabel)
  | group _ ih =>
    obtain ⟨hcarries, hsilent⟩ := ih s hs
    simp only [Expr.lower, state_bind, state_produce, state_expect, clear_bind, clear_produce, clear_expect, true_and]
    exact ⟨hcarries, fun hv => ⟨hsilent hv.2.1, .inl hv.2.2⟩⟩
  | factor _ ih =>
    simpa [Expr.lower, Expr.Valid] using ih s hs
  | @comparison left right op τ _ hτ _ ihl ihr =>
    obtain ⟨⟨hleft, _⟩, hsl⟩ := ihl s hs
    obtain ⟨⟨hright, _⟩, hsr⟩ := ihr (left.lower s).state (by rw [Expr.table_lower, hs])
    simp only [Expr.lower, state_bind, state_produce, value_current, state_current, clear_bind, clear_produce,
      clear_current, clear_compare, true_and]
    rw [state_compare hright (by rw [hleft]; exact hτ)]
    exact ⟨Operand.inFrame_carries _ _, fun hv => ⟨hsl hv.1, hsr hv.2.2, .inr (.inl (by rw [hleft]; exact hτ))⟩⟩
  | @leftAlone left right op τ ρ _ _ hρ ihl ihr =>
    obtain ⟨hcarries, hsl⟩ := ihl s hs
    obtain ⟨⟨hright, _⟩, hsr⟩ := ihr (left.lower s).state (by rw [Expr.table_lower, hs])
    simp only [Expr.lower, state_bind, state_produce, value_current, state_current, clear_bind, clear_produce,
      clear_current, clear_compare, true_and]
    rw [state_compare_leftAlone (by rw [hright]; exact hρ)]
    exact ⟨hcarries, fun hv => ⟨hsl hv.1, hsr hv.2.2, .inl (by simpa [Ty.comparable, hright] using hρ)⟩⟩
  | relation _ ih =>
    simpa [Expr.lower, Expr.Valid] using ih s hs
  | @mul left op right τ _ _ hτ ihl ihr =>
    obtain ⟨⟨hleft, _⟩, hsl⟩ := ihl s hs
    obtain ⟨⟨hright, _⟩, hsr⟩ := ihr (left.lower s).state (by rw [Expr.table_lower, hs])
    have hboth := Ty.combines_iff.2 ⟨hleft.trans hright.symm, by rw [hleft]; exact hτ⟩
    simp only [Expr.lower, state_bind, value_current, state_current, clear_bind, clear_current, clear_mul, true_and]
    rw [state_mul hboth]
    exact ⟨Operand.inFrame_carries _ _, fun hv => ⟨hsl hv.1, hsr hv.2.2, .inl hboth⟩⟩
  | term _ ih =>
    simpa [Expr.lower, Expr.Valid] using ih s hs
  | @add left op right τ _ _ hτ ihl ihr =>
    obtain ⟨⟨hleft, _⟩, hsl⟩ := ihl s hs
    obtain ⟨⟨hright, _⟩, hsr⟩ := ihr (left.lower s).state (by rw [Expr.table_lower, hs])
    have hboth := Ty.combines_iff.2 ⟨hleft.trans hright.symm, by rw [hleft]; exact hτ⟩
    simp only [Expr.lower, state_bind, value_current, state_current, clear_bind, clear_current, clear_add, true_and]
    rw [state_add hboth]
    exact ⟨Operand.inFrame_carries _ _, fun hv => ⟨hsl hv.1, hsr hv.2.2, .inl hboth⟩⟩

theorem Expr.current_ty {l : Level} {e : Expr l} {Γ : Env} {τ : Ty} (h : HasType Γ e τ) {s : GenState}
    (hs : s.table.env = Γ) : (e.lower s).state.current.ty = τ :=
  (lower_of_hasType h s hs).1.1

/-- The type of the operand that a second expression leaves after a first one. -/
theorem Expr.current_ty_second {l m : Level} {e : Expr m} {Γ : Env} {τ : Ty} (h : HasType Γ e τ) (first : Expr l)
    {s : GenState} (hs : s.table.env = Γ) : (e.lower (first.lower s).state).state.current.ty = τ :=
  current_ty h (by rw [Expr.table_lower, hs])

/-- A complete expression whose names are declared has a type, if it is lowered without a fault. -/
theorem Expr.hasType_of_silent {l : Level} (e : Expr l) (hc : e.Complete) (s : GenState) (hs : e.Scoped s.table.env)
    (h : Clear Fault.Any e.lower s) : ∃ τ, HasType s.table.env e τ := by
  induction e generalizing s with
  | add left op right ihl ihr =>
    simp only [Expr.lower, clear_bind, clear_current, value_current, state_current, clear_add, Fault.any, not_true,
      or_false, true_and] at h
    obtain ⟨hleft, hright, hboth⟩ := h
    obtain ⟨τ, hτ⟩ := ihl hc.1 s hs.1 hleft
    obtain ⟨ρ, hρ⟩ := ihr hc.2 _ (by rw [Expr.table_lower]; exact hs.2) hright
    rw [Expr.table_lower] at hρ
    rw [Ty.combines_iff, current_ty hτ rfl, current_ty_second hρ left rfl] at hboth
    obtain ⟨rfl, hstring⟩ := hboth
    exact ⟨.integer, .add hτ hρ hstring⟩
  | term e ih =>
    simp only [Expr.lower, clear_bind, clear_produce, state_produce, true_and] at h
    obtain ⟨τ, hτ⟩ := ih hc s hs h
    exact ⟨τ, .term hτ⟩
  | mul left op right ihl ihr =>
    simp only [Expr.lower, clear_bind, clear_current, value_current, state_current, clear_mul, Fault.any, not_true,
      or_false, true_and] at h
    obtain ⟨hleft, hright, hboth⟩ := h
    obtain ⟨τ, hτ⟩ := ihl hc.1 s hs.1 hleft
    obtain ⟨ρ, hρ⟩ := ihr hc.2 _ (by rw [Expr.table_lower]; exact hs.2) hright
    rw [Expr.table_lower] at hρ
    rw [Ty.combines_iff, current_ty hτ rfl, current_ty_second hρ left rfl] at hboth
    obtain ⟨rfl, hstring⟩ := hboth
    exact ⟨.integer, .mul hτ hρ hstring⟩
  | relation e ih =>
    simp only [Expr.lower, clear_bind, clear_produce, state_produce, true_and] at h
    obtain ⟨τ, hτ⟩ := ih hc s hs h
    exact ⟨τ, .relation hτ⟩
  | compare left op right ihl ihr =>
    simp only [Expr.lower, clear_bind, clear_produce, state_produce, clear_current, value_current, state_current,
      clear_compare, Fault.any, not_true, or_false, true_and] at h
    obtain ⟨hleft, hright, hboth⟩ := h
    obtain ⟨τ, hτ⟩ := ihl hc.1 s hs.1 hleft
    obtain ⟨ρ, hρ⟩ := ihr hc.2 _ (by rw [Expr.table_lower]; exact hs.2) hright
    rw [Expr.table_lower] at hρ
    rw [current_ty hτ rfl, current_ty_second hρ left rfl] at hboth
    by_cases hi : ρ = .integer
    · subst hi
      exact ⟨.logical, .comparison hτ (by simpa [Ty.comparable] using hboth) hρ⟩
    · exact ⟨τ, .leftAlone hτ hρ hi⟩
  | factor e ih =>
    simp only [Expr.lower, clear_bind, clear_produce, state_produce, true_and] at h
    obtain ⟨τ, hτ⟩ := ih hc s hs h
    exact ⟨τ, .factor hτ⟩
  | missing => exact absurd hc id
  | name tok =>
    obtain ⟨d, hd⟩ := Option.isSome_iff_exists.1 hs
    exact ⟨d.ty, .name hd⟩
  | literal tok => exact ⟨_, .literal⟩
  | negation op e ih =>
    simp only [Expr.lower, clear_bind, clear_produce, state_produce, clear_current, value_current, state_current,
      clear_negate, Fault.any, not_true, or_false, true_and] at h
    obtain ⟨τ, hτ⟩ := ih hc s hs h.1
    rw [current_ty hτ rfl] at h
    exact ⟨τ, .negation hτ (by simpa [Ty.negatable] using h.2.1)⟩
  | group opening e closing ih =>
    simp only [Expr.lower, clear_bind, clear_produce, state_produce, true_and] at h
    obtain ⟨τ, hτ⟩ := ih hc s hs h.1
    exact ⟨τ, .group hτ⟩

/-- Lowering gives an expression the type that the rules give it, and reports a fault exactly when they give none. -/
theorem Expr.silent_and_ty_iff {l : Level} {e : Expr l} (hv : e.Valid) (hc : e.Complete) (s : GenState)
    (hs : e.Scoped s.table.env) {τ : Ty} :
    Clear Fault.Any e.lower s ∧ (e.lower s).state.current.ty = τ ↔ HasType s.table.env e τ := by
  constructor
  · rintro ⟨hsilent, rfl⟩
    obtain ⟨τ, hτ⟩ := e.hasType_of_silent hc s hs hsilent
    rw [current_ty hτ rfl]
    exact hτ
  · intro hτ
    exact ⟨(lower_of_hasType hτ s rfl).2 hv, current_ty hτ rfl⟩

/-! ## Statements -/

/-- A complete statement with well-used names is lowered without a fault exactly when it is well typed. -/
theorem Code.silent_iff_typed {x : Extent} (c : Code x) (hv : c.Valid) (hc : c.Complete) (s : GenState)
    (hs : c.Scoped s.table.env) : Clear Fault.Any c.lower s ↔ Typed s.table.env c := by
  induction c generalizing s with
  | empty => simp [Code.lower, Typed.empty]
  | declare type name =>
    obtain ⟨v, hok⟩ := (state_declare hs (Ty.ofKeyword type.value)).2
    simp [Code.lower, clear_declaration, hv.2, hok, Typed.declare]
  | assign target sign value =>
    obtain ⟨d, hd⟩ := Option.isSome_iff_exists.1 hs.1
    obtain ⟨v, hres, hty, _⟩ := SymbolTable.resolve_of_find? hd
    simp only [Code.lower, clear_bind, clear_enter, state_enter, clear_assignment hres hv.2.1, clear_storeIn,
      Ty.assignable, Fault.any, not_true, or_false, true_and, decide_eq_true_eq, hty]
    rw [@eq_comm _ d.ty, Expr.silent_and_ty_iff hv.2.2 hc _ (by simpa using hs.2)]
    constructor
    · exact .assign hd
    · intro h
      cases h with
      | assign hd' hvalue =>
        rw [hd] at hd'
        cases hd'
        exact hvalue
  | ifThen opening condition middle action ih =>
    simp only [Code.lower, clear_bind, clear_enter, state_enter, clear_conditional hv.2.2.1, clear_expectCondition,
      Ty.isCondition, Fault.any, not_true, or_false, true_and, decide_eq_true_eq, ← and_assoc]
    rw [Expr.silent_and_ty_iff hv.2.1 hc.1 _ (by simpa using hs.1), ih hv.2.2.2 hc.2 _ (by simpa using hs.2),
      Expr.table_lower]
    constructor
    · exact fun h => .ifThen h.1 h.2
    · intro h
      cases h with
      | ifThen hcond haction => exact ⟨hcond, haction⟩
  | whileDo opening condition middle action ih =>
    simp only [Code.lower, clear_bind, clear_enter, state_enter, clear_loop hv.2.2.1, clear_expectCondition,
      Ty.isCondition, Fault.any, not_true, or_false, true_and, decide_eq_true_eq, ← and_assoc]
    rw [Expr.silent_and_ty_iff hv.2.1 hc.1 _ (by simpa using hs.1), ih hv.2.2.2 hc.2 _ (by simpa using hs.2),
      Expr.table_lower]
    constructor
    · exact fun h => .whileDo h.1 h.2
    · intro h
      cases h with
      | whileDo hcond haction => exact ⟨hcond, haction⟩
  | block opening inside closing ih =>
    have hin := ih hv.2.1 hc { s with table := s.table.enter } (by rw [SymbolTable.env_enter]; exact hs)
    rw [SymbolTable.env_enter] at hin
    simp only [Code.lower, clear_bind, clear_enter, state_enter, clear_block hv.2.2, true_and, hin]
    constructor
    · exact .block
    · intro h
      cases h with
      | block hinside => exact hinside
  | read keyword opening target closing =>
    obtain ⟨tok, rfl⟩ := Option.isSome_iff_exists.1 hc
    obtain ⟨d, hd⟩ := Option.isSome_iff_exists.1 (hs tok rfl)
    obtain ⟨v, hres, hty, _⟩ := SymbolTable.resolve_of_find? hd
    simp only [Code.lower, clear_bind, clear_enter, state_enter, clear_read hres hv.2.2.1 hv.2.2.2.2,
      clear_readCurrent, Operand.inFrame, Place.isLabel, Ty.readable, Fault.any, not_true, or_false, and_true, true_and,
      decide_eq_true_eq, hty]
    constructor
    · exact .read hd
    · intro h
      cases h with
      | read hd' hint =>
        rw [hd] at hd'
        cases hd'
        exact hint
  | write keyword opening value closing =>
    simp only [Code.lower, clear_bind, clear_enter, state_enter, clear_write hv.2.2.1 hv.2.2.2.2, true_and]
    constructor
    · intro h
      obtain ⟨τ, hτ⟩ := value.hasType_of_silent hc s hs h
      exact .write hτ
    · intro h
      cases h with
      | write hτ => exact ((Expr.silent_and_ty_iff hv.2.2.2.1 hc s hs).2 hτ).1
  | done => simp [Code.lower, Typed.done]
  | last c ih =>
    simp only [Code.lower, ih hv.1 hc s hs]
    constructor
    · exact .last
    · intro h
      cases h with
      | last hc => exact hc
  | next c separator rest ihs ihr =>
    have hafter := c.env_lower hv.1 s hs.1
    simp only [Code.lower, clear_bind, state_expect, clear_expect, hv.2.1, true_or, true_and]
    rw [ihs hv.1 hc.1 s hs.1, ihr hv.2.2 hc.2 _ (by rw [hafter]; exact hs.2), hafter]
    constructor
    · exact fun h => .next h.1 h.2
    · intro h
      cases h with
      | next hfirst hrest => exact ⟨hfirst, hrest⟩

/-! ## Programs -/

theorem Program.silent_iff_typed (p : Program) (hv : p.Valid) (hc : p.Complete) (hs : p.Scoped) (next : Token)
    (wordSize : Int64) : Clear Fault.Any (p.lower next) { frame := { wordSize } } ↔ p.Typed := by
  cases p with
  | bare stop =>
    have hdot : stop.kind = .dot := hv
    have hlast : ∀ s, Clear Fault.Any (if next.isEof then pure () else remark next .trailing) s := by
      intro s
      split <;> simp
    simp [Program.lower, Program.body, Program.Typed, clear_expect, hdot, hlast]
  | block opening inside closing stop =>
    have hin := inside.silent_iff_typed hv.2.1 hc
      { frame := { wordSize }, table := SymbolTable.enter {} } (by rw [SymbolTable.env_enter]; exact hs)
    rw [SymbolTable.env_enter] at hin
    rw [clear_lower_block hv]
    exact hin

/-- A complete program with well-used names is lowered without a diagnostic exactly when the rules of types hold of it.
And wherever an expression has a type, the operand that it leaves has that type. -/
theorem silent_iff_program_typed (settings : Settings) (p : Program) (hv : p.Valid) (hc : p.Complete)
    (hs : p.Scoped) :
    ((lower settings.wordSize { tokens := p.tokens }).diagnostics = [] ∧
      (lower settings.wordSize { tokens := p.tokens }).succeeded settings ↔ p.Typed) ∧
    ∀ (l : Level) (e : Expr l) (τ : Ty) (s : GenState),
      HasType s.table.env e τ → (e.lower s).state.current.ty = τ := by
  refine ⟨?_, fun l e τ s h => Expr.current_ty h rfl⟩
  have hclear := clear_lower_iff Fault.Any settings.wordSize { tokens := p.tokens }
  rw [show TokenSource.parse { tokens := p.tokens } = (p, []) from Parse.program_tokens p hv,
    p.silent_iff_typed hv hc hs] at hclear
  rw [← hclear]
  constructor
  · rintro ⟨hnone, _⟩ d hd
    rw [hnone] at hd
    exact absurd hd List.not_mem_nil
  · intro h
    have hnone : (lower settings.wordSize { tokens := p.tokens }).diagnostics = [] :=
      List.eq_nil_iff_forall_not_mem.2 fun d hd => h d hd d.fault.any
    exact ⟨hnone, by simp [Lowering.succeeded, hnone]⟩

/-- A program that compares into a truth value under the name of an outer number. -/
def hidingProgram : Program :=
  .block (.plain .begin "begin")
    (.next (.declare (.plain .typeName "integer") (.plain .ident "n")) (.plain .semi ";")
      (.next (.block (.plain .begin "begin")
          (.next (.declare (.plain .typeName "logical") (.plain .ident "N")) (.plain .semi ";")
            (.last (.assign (.plain .ident "n") (.plain .assign ":=")
              (.term (.relation (.compare (.literal (.plain .literal "true")) (.plain .relOp "<")
                (.literal (.plain .literal "2"))))))))
          (.plain .end "end")) (.plain .semi ";")
        (.last (.read (.plain .inout "read") (.plain .lparen "(") (some (.plain .ident "n")) (.plain .rparen ")")))))
    (.plain .end "end") (.plain .dot ".")

/-- The inner name is a truth value and the outer one a number. -/
theorem hidingProgram_typed :
    hidingProgram.Typed ∧ (lower 4 { tokens := hidingProgram.tokens }).diagnostics = [] := by
  have hv : hidingProgram.Valid := by simp [hidingProgram, Program.Valid, Code.Valid, Expr.Valid, Token.plain]
  have hc : hidingProgram.Complete := by simp [hidingProgram, Program.Complete, Code.Complete, Expr.Complete]
  have hs : hidingProgram.Scoped := by decide +kernel
  have hinner : HasType (Env.initial.enter.declare "n" .integer |>.enter.declare "N" .logical)
      (.term (.relation (.compare (.literal (.plain .literal "true")) (.plain .relOp "<")
        (.literal (.plain .literal "2"))))) .logical :=
    .term (.relation (.comparison .literal (by decide) .literal))
  have htyped : hidingProgram.Typed :=
    .next .declare (.next (.block (.next .declare (.last (.assign
      (d := ⟨"n", .logical, 2, 0⟩) (by decide +kernel) hinner))))
      (.last (.read (d := ⟨"n", .integer, 1, 0⟩) (by decide +kernel) rfl)))
  exact ⟨htyped, ((silent_iff_program_typed {} _ hv hc hs).1.2 htyped).1⟩

end AlgolMips
