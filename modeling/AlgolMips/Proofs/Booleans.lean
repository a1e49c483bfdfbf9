import AlgolMips.Proofs.Typing

/-!
# Boolean expressions

Truth values are named, written down, compared into being, negated, and joined by `and` and `or`. The operators that join
them are those of arithmetic with other signs, and leave an integer whatever they join. So an expression is a truth value
only as long as nothing in it is joined, and joining what was joined with what was not is a mismatch. Then nothing new
is computed, and the right side stands for the whole.

The operand and the diagnostics that such an expression leaves follow from its tree alone (`Boolean.lower_eq`).
-/

namespace AlgolMips

open Gen

/-- `Boolean Γ e`: the expression `e` is built from names of truth values, `true`, `false` and comparisons of integers
by `!`, `and`, `or` and brackets. -/
inductive Boolean (Γ : Env) : {l : Level} → Expr l → Prop where
  | name {tok : Token} {d : Binding} : Γ.find? tok.value = some d → d.ty = .logical → Boolean Γ (.name tok)
  | constant {tok : Token} : tok.value = "true" ∨ tok.value = "false" → Boolean Γ (.literal tok)
  | comparison {left right : Expr .factor} {op : Token} :
      HasType Γ left .integer → HasType Γ right .integer → Boolean Γ (.compare left op right)
  | negation {op : Token} {e : Expr .factor} : Boolean Γ e → Boolean Γ (.negation op e)
  | group {opening closing : Token} {e : Expr .expression} : Boolean Γ e → Boolean Γ (.group opening e closing)
  | factor {e : Expr .factor} : Boolean Γ e → Boolean Γ (.factor e)
  | relation {e : Expr .relation} : Boolean Γ e → Boolean Γ (.relation e)
  | conjunction {left : Expr .term} {op : Token} {right : Expr .relation} :
      Boolean Γ left → op.value = "and" → Boolean Γ right → Boolean Γ (.mul left op right)
  | term {e : Expr .term} : Boolean Γ e → Boolean Γ (.term e)
  | disjunction {left : Expr .expression} {op : Token} {right : Expr .term} :
      Boolean Γ left → op.value = "or" → Boolean Γ right → Boolean Γ (.add left op right)

/-! ## What the tree tells -/

namespace Expr

variable {l : Level}

/-- Whether anything is joined outside of comparisons. -/
def joins : {l : Level} → Expr l → Bool
  | _, .add .. | _, .mul .. => true
  | _, .term e | _, .relation e | _, .factor e | _, .negation _ e | _, .group _ e _ => e.joins
  | _, .compare .. | _, .name _ | _, .literal _ | _, .missing => false

/-- The type of the operand that a boolean expression leaves. -/
def resultTy : {l : Level} → Expr l → Ty
  | _, .add left _ right | _, .mul left _ right => if left.resultTy = right.resultTy then .integer else right.resultTy
  | _, .term e | _, .relation e | _, .factor e | _, .negation _ e | _, .group _ e _ => e.resultTy
  | _, .compare .. | _, .name _ | _, .literal _ | _, .missing => .logical

/-- The diagnostics that a boolean expression leaves: one for each operator whose sides are of different types. -/
def mismatches : {l : Level} → Expr l → List Diagnostic
  | _, .add left op right => left.mismatches ++ right.mismatches ++
      if left.resultTy = right.resultTy then [] else [⟨op, .addition op.value left.resultTy right.resultTy⟩]
  | _, .mul left op right => left.mismatches ++ right.mismatches ++
      if left.resultTy = right.resultTy then [] else [⟨op, .multiplication op.value left.resultTy right.resultTy⟩]
  | _, .term e | _, .relation e | _, .factor e | _, .negation _ e | _, .group _ e _ => e.mismatches
  | _, .compare .. | _, .name _ | _, .literal _ | _, .missing => []

theorem resultTy_ne_string (e : Expr l) : e.resultTy ≠ .string := by
  induction e with
  | add _ _ _ _ ih | mul _ _ _ _ ih =>
    rw [resultTy]
    split
    · nofun
    · exact ih
  | term _ ih | relation _ ih | factor _ ih | negation _ _ ih | group _ _ _ ih => exact ih
  | compare | name | literal | missing => nofun

/-- Where all sides agree, what is joined is an integer and the rest a truth value. -/
theorem resultTy_eq {e : Expr l} (h : e.mismatches = []) : e.resultTy = if e.joins then .integer else .logical := by
  induction e with
  | add left op right | mul left op right =>
    rw [mismatches, List.append_eq_nil_iff] at h
    rw [resultTy]
    split
    · rfl
    · next hne =>
      rw [if_neg hne] at h
      cases h.2
  | term _ ih | relation _ ih | factor _ ih | negation _ _ ih | group _ _ _ ih => exact ih h
  | compare | name | literal | missing => rfl

theorem mismatches_eq_nil {e : Expr l} (h : e.joins = false) : e.mismatches = [] := by
  induction e with
  | add | mul => cases h
  | term _ ih | relation _ ih | factor _ ih | negation _ _ ih | group _ _ _ ih => exact ih h
  | compare | name | literal | missing => rfl

/-- A boolean expression is a truth value without a mismatch exactly if nothing in it is joined. -/
theorem logical_iff (e : Expr l) : e.mismatches = [] ∧ e.resultTy = .logical ↔ e.joins = false := by
  constructor
  · rintro ⟨hnone, hresult⟩
    rw [resultTy_eq hnone] at hresult
    cases hjoins : e.joins with
    | false => rfl
    | true =>
      rw [hjoins] at hresult
      cases hresult
  · intro h
    have hnone := mismatches_eq_nil h
    exact ⟨hnone, by rw [resultTy_eq hnone, h]; rfl⟩

end Expr

/-! ## Diagnostics of a walk -/

namespace Gen

variable {α β : Type}

/-- The diagnostics that a walk leaves. -/
def faults (m : Gen α) (s : GenState) : List Diagnostic := (m s).events.filterMap Event.fault?

@[simp] theorem faults_bind (m : Gen α) (f : α → Gen β) (s : GenState) :
    (m >>= f).faults s = m.faults s ++ (f (m s).value).faults (m s).state := by
  simp [faults, List.filterMap_append]

theorem faults_eq_nil_iff {m : Gen α} {s : GenState} : m.faults s = [] ↔ Clear Fault.Any m s := by
  rw [faults, List.filterMap_eq_nil_iff]
  constructor
  · intro h d hd
    cases h _ hd
  · intro h e he
    cases e with
    | fault d => exact absurd trivial (h d he)
    | _ => rfl

@[simp] theorem faults_produce (r : Rule) (s : GenState) : (produce r).faults s = [] :=
  faults_eq_nil_iff.2 (clear_produce r s)

@[simp] theorem faults_current (s : GenState) : current.faults s = [] := rfl

theorem faults_expect {k : Kind} {tok : Token} (h : tok.kind = k) (s : GenState) : (expect k tok).faults s = [] :=
  faults_eq_nil_iff.2 ((clear_expect k tok s).2 (.inl h))

theorem faults_negate {d : Operand} (h : d.ty ≠ .string) (hplace : d.place.isLabel = false) (op : Token)
    (s : GenState) : (negate op d).faults s = [] :=
  faults_eq_nil_iff.2 ((clear_negate op d s).2 (.inl ⟨by simpa [Ty.negatable] using h, hplace⟩))

/-- Both operators that join go one way: an integer where the sides agree, else a diagnostic and the right side. -/
theorem joined {left right : Operand} {τ ρ : Ty} (hleft : left.Carries τ) (hright : right.Carries ρ) (hτ : τ ≠ .string)
    (remark : Text) (code : List Mips.Instr) (op : Token) (f : Fault) {s : GenState} (hs : s.current = right) :
    let m := if left.ty.combines right.ty then binary remark left right code .integer else report op f
    (m s).state.current.Carries (if τ = ρ then .integer else ρ) ∧ m.faults s = if τ = ρ then [] else [⟨op, f⟩] := by
  intro m
  by_cases heq : τ = ρ
  · have hboth := Ty.combines_iff.2 ⟨(hleft.1.trans heq).trans hright.1.symm, by rw [hleft.1]; exact hτ⟩
    simp only [m, if_pos hboth, if_pos heq, state_binary]
    exact ⟨Operand.inFrame_carries _ _, faults_eq_nil_iff.2 (clear_binary _ _ _ _ _ s)⟩
  · have hboth : ¬ left.ty.combines right.ty := by
      rw [Ty.combines_iff, hleft.1, hright.1]
      exact fun h => heq h.1
    simp only [m, if_neg hboth, if_neg heq, state_report, hs]
    exact ⟨hright, rfl⟩

theorem add_joined {left right : Operand} {τ ρ : Ty} (hleft : left.Carries τ) (hright : right.Carries ρ)
    (hτ : τ ≠ .string) (op : Token) {s : GenState} (hs : s.current = right) :
    (add op left right s).state.current.Carries (if τ = ρ then .integer else ρ) ∧
      (add op left right).faults s = if τ = ρ then [] else [⟨op, .addition op.value τ ρ⟩] := by
  obtain ⟨rfl, hl⟩ := hleft
  obtain ⟨rfl, hr⟩ := hright
  exact joined ⟨rfl, hl⟩ ⟨rfl, hr⟩ hτ "expression" _ op _ hs

theorem mul_joined {left right : Operand} {τ ρ : Ty} (hleft : left.Carries τ) (hright : right.Carries ρ)
    (hτ : τ ≠ .string) (op : Token) {s : GenState} (hs : s.current = right) :
    (mul op left right s).state.current.Carries (if τ = ρ then .integer else ρ) ∧
      (mul op left right).faults s = if τ = ρ then [] else [⟨op, .multiplication op.value τ ρ⟩] := by
  obtain ⟨rfl, hl⟩ := hleft
  obtain ⟨rfl, hr⟩ := hright
  exact joined ⟨rfl, hl⟩ ⟨rfl, hr⟩ hτ "term" _ op _ hs

end Gen

theorem Expr.lower_typed {l : Level} {e : Expr l} {Γ : Env} {τ : Ty} (h : HasType Γ e τ) (hv : e.Valid) {s : GenState}
    (hs : s.table.env = Γ) : (e.lower s).state.current.Carries τ ∧ e.lower.faults s = [] := by
  obtain ⟨hcarries, hclear⟩ := lower_of_hasType h s hs
  exact ⟨hcarries, faults_eq_nil_iff.2 (hclear hv)⟩

/-- A boolean expression leaves the operand and the diagnostics that its tree tells. -/
theorem Boolean.lower_eq {l : Level} {e : Expr l} {Γ : Env} (h : Boolean Γ e) (hv : e.Valid) (s : GenState)
    (hs : s.table.env = Γ) :
    (e.lower s).state.current.Carries e.resultTy ∧ e.lower.faults s = e.mismatches := by
  -- Not every such expression has a type, so the induction cannot be on the rules of types.
  induction h generalizing s with
  | @name tok d hd hty =>
    have htyped : HasType Γ (.name tok) .logical := hty ▸ .name hd
    exact Expr.lower_typed htyped hv hs
  | @constant tok htok =>
    have htyped : HasType Γ (.literal tok) (Ty.ofLiteral tok.value) := .literal
    rcases htok with heq | heq
    · rw [heq] at htyped
      exact Expr.lower_typed htyped hv hs
    · rw [heq] at htyped
      exact Expr.lower_typed htyped hv hs
  | comparison hleft hright => exact Expr.lower_typed (.comparison hleft nofun hright) hv hs
  | @negation op e _ ih =>
    obtain ⟨⟨hty, hplace⟩, hfaults⟩ := ih hv.2 s hs
    have hne : (e.lower s).state.current.ty ≠ .string := by
      rw [hty]
      exact e.resultTy_ne_string
    have hframe := Bool.eq_false_iff.2 fun hlabel => e.resultTy_ne_string (hplace hlabel)
    simp only [Expr.lower, state_bind, state_produce, value_current, state_current, state_negate, faults_bind,
      faults_produce, faults_current, faults_negate hne hframe, hfaults, List.nil_append, List.append_nil]
    exact ⟨⟨hty, hplace⟩, rfl⟩
  | @group opening closing e _ ih =>
    obtain ⟨hcarries, hfaults⟩ := ih hv.2.1 s hs
    simp only [Expr.lower, state_bind, state_produce, state_expect, faults_bind, faults_produce, hfaults,
      faults_expect hv.2.2, List.nil_append, List.append_nil]
    exact ⟨hcarries, rfl⟩
  | factor _ ih | relation _ ih | term _ ih =>
    simpa [Expr.lower, Expr.resultTy, Expr.mismatches] using ih hv s hs
  | @conjunction left op right _ _ _ ihl ihr =>
    obtain ⟨hleft, hfl⟩ := ihl hv.1 s hs
    obtain ⟨hright, hfr⟩ := ihr hv.2.2 (left.lower s).state (by rw [Expr.table_lower, hs])
    obtain ⟨hcarries, hfaults⟩ := mul_joined hleft hright left.resultTy_ne_string op rfl
    simp only [Expr.lower, state_bind, value_current, state_current, faults_bind, faults_current, hfl, hfr, hfaults,
      List.nil_append, ← List.append_assoc]
    exact ⟨hcarries, rfl⟩
  | @disjunction left op right _ _ _ ihl ihr =>
    obtain ⟨hleft, hfl⟩ := ihl hv.1 s hs
    obtain ⟨hright, hfr⟩ := ihr hv.2.2 (left.lower s).state (by rw [Expr.table_lower, hs])
    obtain ⟨hcarries, hfaults⟩ := add_joined hleft hright left.resultTy_ne_string op rfl
    simp only [Expr.lower, state_bind, value_current, state_current, faults_bind, faults_current, hfl, hfr, hfaults,
      List.nil_append, ← List.append_assoc]
    exact ⟨hcarries, rfl⟩

/-! ## Guards and assignments -/

theorem HasType.complete {l : Level} {e : Expr l} {Γ : Env} {τ : Ty} (h : HasType Γ e τ) : e.Complete := by
  induction h with
  | name | literal => trivial
  | negation _ _ ih | group _ ih | factor _ ih | relation _ ih | term _ ih => exact ih
  | comparison _ _ _ ihl ihr | leftAlone _ _ _ ihl ihr | mul _ _ _ ihl ihr | add _ _ _ ihl ihr => exact ⟨ihl, ihr⟩

theorem HasType.inScope {l : Level} {e : Expr l} {Γ : Env} {τ : Ty} (h : HasType Γ e τ) : e.Scoped Γ := by
  induction h with
  | name hd => exact Option.isSome_iff_exists.2 ⟨_, hd⟩
  | literal => trivial
  | negation _ _ ih | group _ ih | factor _ ih | relation _ ih | term _ ih => exact ih
  | comparison _ _ _ ihl ihr | leftAlone _ _ _ ihl ihr | mul _ _ _ ihl ihr | add _ _ _ ihl ihr => exact ⟨ihl, ihr⟩

namespace Boolean

variable {l : Level} {e : Expr l} {Γ : Env}

theorem complete (h : Boolean Γ e) : e.Complete := by
  induction h with
  | name | constant => trivial
  | comparison hleft hright => exact ⟨hleft.complete, hright.complete⟩
  | negation _ ih | group _ ih | factor _ ih | relation _ ih | term _ ih => exact ih
  | conjunction _ _ _ ihl ihr | disjunction _ _ _ ihl ihr => exact ⟨ihl, ihr⟩

theorem inScope (h : Boolean Γ e) : e.Scoped Γ := by
  induction h with
  | name hd => exact Option.isSome_iff_exists.2 ⟨_, hd⟩
  | constant => trivial
  | comparison hleft hright => exact ⟨hleft.inScope, hright.inScope⟩
  | negation _ ih | group _ ih | factor _ ih | relation _ ih | term _ ih => exact ih
  | conjunction _ _ _ ihl ihr | disjunction _ _ _ ihl ihr => exact ⟨ihl, ihr⟩

/-- The rules give a boolean expression the type that its tree tells, if its sides agree everywhere, and else none. -/
theorem hasType_iff (h : Boolean Γ e) (hv : e.Valid) {s : GenState} (hs : s.table.env = Γ) {τ : Ty} :
    HasType Γ e τ ↔ e.mismatches = [] ∧ e.resultTy = τ := by
  subst hs
  obtain ⟨⟨hty, -⟩, hfaults⟩ := h.lower_eq hv s rfl
  rw [← Expr.silent_and_ty_iff hv h.complete s h.inScope, ← faults_eq_nil_iff, hty, hfaults]

theorem hasType_logical_iff (h : Boolean Γ e) (hv : e.Valid) {s : GenState} (hs : s.table.env = Γ) :
    HasType Γ e .logical ↔ e.joins = false := by
  rw [h.hasType_iff hv hs, e.logical_iff]

end Boolean

theorem Typed.ifThen_iff {Γ : Env} {opening middle : Token} {condition : Expr .expression} {action : Stmt} :
    Typed Γ (.ifThen opening condition middle action) ↔ HasType Γ condition .logical ∧ Typed Γ action := by
  constructor
  · intro h
    cases h with
    | ifThen hcond haction => exact ⟨hcond, haction⟩
  · exact fun h => .ifThen h.1 h.2

theorem Typed.whileDo_iff {Γ : Env} {opening middle : Token} {condition : Expr .expression} {action : Stmt} :
    Typed Γ (.whileDo opening condition middle action) ↔ HasType Γ condition .logical ∧ Typed Γ action := by
  constructor
  · intro h
    cases h with
    | whileDo hcond haction => exact ⟨hcond, haction⟩
  · exact fun h => .whileDo h.1 h.2

theorem Typed.assign_iff {Γ : Env} {target sign : Token} {value : Expr .expression} {d : Binding}
    (hd : Γ.find? target.value = some d) : Typed Γ (.assign target sign value) ↔ HasType Γ value d.ty := by
  constructor
  · intro h
    cases h with
    | assign hd' hvalue =>
      rw [hd] at hd'
      cases hd'
      exact hvalue
  · exact .assign hd

/-- What a boolean expression leaves is told by its tree: one diagnostic for each `and` or `or` whose sides are of
different types, and an operand of its result type. Where it is silent, what is joined is an integer. So it is silent and
a truth value exactly if nothing in it is joined, and only then may it guard a statement or be assigned to a truth
value. -/
theorem boolean_logical_iff_unjoined (s : GenState) {e : Expr .expression} (h : Boolean s.table.env e) (hv : e.Valid) :
    (e.lower.faults s = e.mismatches ∧ (e.lower s).state.current.ty = e.resultTy) ∧
    (e.lower.faults s = [] → (e.lower s).state.current.ty = if e.joins then .integer else .logical) ∧
    (e.lower.faults s = [] ∧ (e.lower s).state.current.ty = .logical ↔ e.joins = false) ∧
    (∀ {opening middle : Token} {action : Stmt}, let c : Stmt := .ifThen opening e middle action
      c.Valid → action.Complete → action.Scoped s.table.env →
      (c.lower.faults s = [] ↔ e.joins = false ∧ Typed s.table.env action)) ∧
    (∀ {opening middle : Token} {action : Stmt}, let c : Stmt := .whileDo opening e middle action
      c.Valid → action.Complete → action.Scoped s.table.env →
      (c.lower.faults s = [] ↔ e.joins = false ∧ Typed s.table.env action)) ∧
    ∀ {target sign : Token} {d : Binding}, let c : Stmt := .assign target sign e
      c.Valid → s.table.env.find? target.value = some d →
      (c.lower.faults s = [] ↔ e.mismatches = [] ∧ d.ty = if e.joins then .integer else .logical) := by
  obtain ⟨⟨hty, -⟩, hfaults⟩ := h.lower_eq hv s rfl
  have hlogical := h.hasType_logical_iff hv rfl
  refine ⟨⟨hfaults, hty⟩, ?_, ?_, ?_, ?_, ?_⟩
  · intro hnone
    rw [hty, Expr.resultTy_eq (hfaults ▸ hnone)]
  · rw [hfaults, hty, e.logical_iff]
  · intro opening middle action c hc hcomplete hscoped
    rw [faults_eq_nil_iff, c.silent_iff_typed hc ⟨h.complete, hcomplete⟩ s ⟨h.inScope, hscoped⟩, Typed.ifThen_iff,
      hlogical]
  · intro opening middle action c hc hcomplete hscoped
    rw [faults_eq_nil_iff, c.silent_iff_typed hc ⟨h.complete, hcomplete⟩ s ⟨h.inScope, hscoped⟩, Typed.whileDo_iff,
      hlogical]
  · intro target sign d c hc hd
    rw [faults_eq_nil_iff, c.silent_iff_typed hc h.complete s ⟨Option.isSome_iff_exists.2 ⟨d, hd⟩, h.inScope⟩,
      Typed.assign_iff hd, h.hasType_iff hv rfl]
    refine and_congr_right fun hnone => ?_
    rw [Expr.resultTy_eq hnone, eq_comm]

/-- A truth value and a number are declared. -/
def mixedState : GenState where
  frame := { wordSize := 4 }
  table := { innermost := ⟨0, 0, [⟨.plain .ident "a", .logical, 0⟩, ⟨.plain .ident "n", .integer, -4⟩]⟩ }

/-- `! ( n < 3 )` -/
def notLess : Expr .expression :=
  .term (.relation (.factor (.negation (.plain .not "!") (.group (.plain .lparen "(")
    (.term (.relation (.compare (.name (.plain .ident "n")) (.plain .relOp "<") (.literal (.plain .literal "3")))))
    (.plain .rparen ")")))))

/-- `a and a or a` -/
def thriceJoined : Expr .expression :=
  .add (.term (.mul (.relation (.factor (.name (.plain .ident "a")))) (.plain .mulOp "and")
    (.factor (.name (.plain .ident "a"))))) (.plain .addOp "or") (.relation (.factor (.name (.plain .ident "a"))))

/-- A negated comparison may guard a loop, and three truth values cannot be joined. -/
theorem notLess_guards :
    let loop : Stmt := .whileDo (.plain .while "while") notLess (.plain .do "do") .empty
    (Boolean mixedState.table.env notLess ∧ notLess.Valid ∧ loop.Valid ∧ loop.lower.faults mixedState = []) ∧
      Boolean mixedState.table.env thriceJoined ∧ thriceJoined.Valid ∧
      thriceJoined.lower.faults mixedState = [⟨.plain .addOp "or", .addition "or" .integer .logical⟩] := by
  intro loop
  have hn : HasType mixedState.table.env (.name (.plain .ident "n")) .integer :=
    @HasType.name _ _ ⟨"n", .integer, 0, 1⟩ (by decide +kernel)
  have ha : Boolean mixedState.table.env (.name (.plain .ident "a")) :=
    .name (d := ⟨"a", .logical, 0, 0⟩) (by decide +kernel) rfl
  have hless : Boolean mixedState.table.env notLess :=
    .term (.relation (.factor (.negation (.group (.term (.relation (.comparison hn .literal)))))))
  have hlessValid : notLess.Valid := by simp [notLess, Expr.Valid, Token.plain]
  have hloop : loop.Valid := ⟨rfl, hlessValid, rfl, trivial⟩
  have hjoined : Boolean mixedState.table.env thriceJoined :=
    .disjunction (.term (.conjunction (.relation (.factor ha)) rfl (.factor ha))) rfl (.relation (.factor ha))
  have hjoinedValid : thriceJoined.Valid := by simp [thriceJoined, Expr.Valid, Token.plain]
  obtain ⟨-, -, -, -, hguard, -⟩ := boolean_logical_iff_unjoined mixedState hless hlessValid
  obtain ⟨⟨hfaults, -⟩, -⟩ := boolean_logical_iff_unjoined mixedState hjoined hjoinedValid
  refine ⟨⟨hless, hlessValid, hloop, (hguard hloop trivial trivial).2 ⟨rfl, .empty⟩⟩, hjoined, hjoinedValid, ?_⟩
  rw [hfaults]
  rfl

/-- `a and b` -/
def conjunction : Expr .expression :=
  .term (.mul (.relation (.factor (.name (.plain .ident "a")))) (.plain .mulOp "and")
    (.factor (.name (.plain .ident "b"))))

/-- `begin logical a ; logical b ; a := a and b end .` -/
def assignedConjunction : Program :=
  .block (.plain .begin "begin")
    (.next (.declare (.plain .typeName "logical") (.plain .ident "a")) (.plain .semi ";")
      (.next (.declare (.plain .typeName "logical") (.plain .ident "b")) (.plain .semi ";")
        (.last (.assign (.plain .ident "a") (.plain .assign ":=") conjunction))))
    (.plain .end "end") (.plain .dot ".")

/-- A truth value cannot be assigned the conjunction of truth values. -/
theorem assignedConjunction_rejected :
    let t := lower 4 { tokens := assignedConjunction.tokens }
    Boolean ((Env.initial.enter.declare "a" .logical).declare "b" .logical) conjunction ∧ assignedConjunction.Valid ∧
      t.diagnostics = [⟨.plain .ident "a", .assignment .integer ⟨.plain .ident "a", .logical, 0⟩⟩] ∧
      ¬ t.succeeded {} := by
  intro t
  have ha : Boolean ((Env.initial.enter.declare "a" .logical).declare "b" .logical) (.name (.plain .ident "a")) :=
    .name (d := ⟨"a", .logical, 1, 0⟩) (by decide +kernel) rfl
  have hb : Boolean ((Env.initial.enter.declare "a" .logical).declare "b" .logical) (.name (.plain .ident "b")) :=
    .name (d := ⟨"b", .logical, 1, 1⟩) (by decide +kernel) rfl
  have hv : assignedConjunction.Valid := by
    simp [assignedConjunction, conjunction, Program.Valid, Code.Valid, Expr.Valid, Token.plain]
  have hdiagnostics : t.diagnostics = [⟨.plain .ident "a", .assignment .integer ⟨.plain .ident "a", .logical, 0⟩⟩] := by
    rw [show t = _ from lower_tokens hv 4]
    decide +kernel
  refine ⟨.term (.conjunction (.relation (.factor ha)) rfl (.factor hb)), hv, hdiagnostics, ?_⟩
  rw [Lowering.succeeded, hdiagnostics]
  decide

end AlgolMips
