import AlgolMips.Lowering.Stmt

/-!
# What walks leave

A walk is seen from four sides: its value, the state after it, the lines that it leaves, and the faults that it leaves.
Every step of a lowering gets one equation for each side, and a composed walk gets its sides from its parts. Faults are
seen through a predicate: `Clear p m s` says that the walk `m` from the state `s` leaves no fault that satisfies `p`.
-/

namespace AlgolMips

open Mips

namespace Gen

variable {α β : Type}

@[simp] theorem value_pure (a : α) (s : GenState) : ((pure a : Gen α) s).value = a := rfl

@[simp] theorem state_pure (a : α) (s : GenState) : ((pure a : Gen α) s).state = s := rfl

@[simp] theorem events_pure (a : α) (s : GenState) : ((pure a : Gen α) s).events = [] := rfl

@[simp] theorem value_bind (m : Gen α) (f : α → Gen β) (s : GenState) :
    ((m >>= f) s).value = (f (m s).value (m s).state).value := rfl

@[simp] theorem state_bind (m : Gen α) (f : α → Gen β) (s : GenState) :
    ((m >>= f) s).state = (f (m s).value (m s).state).state := rfl

/-! ## Lines -/

/-- The lines that a walk leaves. -/
def lines (m : Gen α) (s : GenState) : List Line := (m s).events.filterMap Event.line?

@[simp] theorem lines_pure (a : α) (s : GenState) : (pure a : Gen α).lines s = [] := rfl

@[simp] theorem lines_bind (m : Gen α) (f : α → Gen β) (s : GenState) :
    (m >>= f).lines s = m.lines s ++ (f (m s).value).lines (m s).state := by
  simp [lines, List.filterMap_append]

/-! ## Faults -/

/-- A walk leaves no fault of a sort. -/
def Clear (p : Fault → Prop) (m : Gen α) (s : GenState) : Prop := ∀ d, Event.fault d ∈ (m s).events → ¬ p d.fault

variable {p : Fault → Prop}

@[simp] theorem clear_pure (a : α) (s : GenState) : Clear p (pure a : Gen α) s :=
  fun _ h => absurd h List.not_mem_nil

@[simp] theorem clear_bind (m : Gen α) (f : α → Gen β) (s : GenState) :
    Clear p (m >>= f) s ↔ Clear p m s ∧ Clear p (f (m s).value) (m s).state := by
  simp only [Clear, events_bind, List.mem_append]
  exact ⟨fun h => ⟨fun d hd => h d (.inl hd), fun d hd => h d (.inr hd)⟩,
    fun ⟨h₁, h₂⟩ d hd => hd.elim (h₁ d) (h₂ d)⟩

/-! ## Single steps -/

@[simp] theorem state_tell (es : List Event) (s : GenState) : (tell es s).state = s := rfl

@[simp] theorem events_tell (es : List Event) (s : GenState) : (tell es s).events = es := Log.toList_ofList es

@[simp] theorem state_emit (ls : List Line) (s : GenState) : (emit ls s).state = s := rfl

@[simp] theorem lines_emit (ls : List Line) (s : GenState) : (emit ls).lines s = ls := by
  simp [lines, emit, List.filterMap_map, Function.comp_def, Event.line?]

@[simp] theorem clear_emit (ls : List Line) (s : GenState) : Clear p (emit ls) s := by
  simp [Clear, emit]

@[simp] theorem state_produce (r : Rule) (s : GenState) : (produce r s).state = s := rfl

@[simp] theorem lines_produce (r : Rule) (s : GenState) : (produce r).lines s = [] := rfl

@[simp] theorem clear_produce (r : Rule) (s : GenState) : Clear p (produce r) s := by
  simp [Clear, produce]

@[simp] theorem state_note (n : Note) (s : GenState) : (note n s).state = s := rfl

@[simp] theorem lines_note (n : Note) (s : GenState) : (note n).lines s = [] := rfl

@[simp] theorem clear_note (n : Note) (s : GenState) : Clear p (note n) s := by
  simp [Clear, note]

@[simp] theorem state_report (tok : Token) (f : Fault) (s : GenState) : (report tok f s).state = s := rfl

@[simp] theorem lines_report (tok : Token) (f : Fault) (s : GenState) : (report tok f).lines s = [] := rfl

@[simp] theorem clear_report (tok : Token) (f : Fault) (s : GenState) : Clear p (report tok f) s ↔ ¬ p f := by
  simp [Clear, report]

@[simp] theorem state_remark (tok : Token) (r : Remark) (s : GenState) : (remark tok r s).state = s := rfl

@[simp] theorem lines_remark (tok : Token) (r : Remark) (s : GenState) : (remark tok r).lines s = [] := rfl

@[simp] theorem clear_remark (tok : Token) (r : Remark) (s : GenState) : Clear p (remark tok r) s := by
  simp [Clear, remark]

@[simp] theorem state_expect (k : Kind) (tok : Token) (s : GenState) : (expect k tok s).state = s := by
  unfold expect
  split <;> rfl

@[simp] theorem lines_expect (k : Kind) (tok : Token) (s : GenState) : (expect k tok).lines s = [] := by
  unfold expect
  split <;> rfl

theorem clear_expect (k : Kind) (tok : Token) (s : GenState) :
    Clear p (expect k tok) s ↔ tok.kind = k ∨ ¬ p (.expected k tok) := by
  unfold expect
  split <;> simp_all

@[simp] theorem value_get (s : GenState) : (get s).value = s := rfl

@[simp] theorem state_get (s : GenState) : (get s).state = s := rfl

@[simp] theorem lines_get (s : GenState) : get.lines s = [] := rfl

@[simp] theorem clear_get (s : GenState) : Clear p get s := fun _ h => absurd h List.not_mem_nil

@[simp] theorem value_current (s : GenState) : (current s).value = s.current := rfl

@[simp] theorem state_current (s : GenState) : (current s).state = s := rfl

@[simp] theorem lines_current (s : GenState) : current.lines s = [] := rfl

@[simp] theorem clear_current (s : GenState) : Clear p current s := fun _ h => absurd h List.not_mem_nil

@[simp] theorem state_modify (f : GenState → GenState) (s : GenState) : (modify f s).state = f s := rfl

@[simp] theorem lines_modify (f : GenState → GenState) (s : GenState) : (modify f).lines s = [] := rfl

@[simp] theorem clear_modify (f : GenState → GenState) (s : GenState) : Clear p (modify f) s :=
  fun _ h => absurd h List.not_mem_nil

@[simp] theorem state_setCurrent (d : Operand) (s : GenState) : (setCurrent d s).state = { s with current := d } := rfl

@[simp] theorem lines_setCurrent (d : Operand) (s : GenState) : (setCurrent d).lines s = [] := rfl

@[simp] theorem clear_setCurrent (d : Operand) (s : GenState) : Clear p (setCurrent d) s := clear_modify _ s

@[simp] theorem value_newTemp (s : GenState) : (newTemp s).value = s.frame.next := rfl

@[simp] theorem state_newTemp (s : GenState) :
    (newTemp s).state = { s with frame := { s.frame with next := s.frame.next - s.frame.wordSize } } := rfl

@[simp] theorem lines_newTemp (s : GenState) : newTemp.lines s = [] := rfl

@[simp] theorem clear_newTemp (s : GenState) : Clear p newTemp s := fun _ h => absurd h List.not_mem_nil

@[simp] theorem value_newLabel (s : GenState) : (newLabel s).value = .generated s.labels := rfl

@[simp] theorem state_newLabel (s : GenState) : (newLabel s).state = { s with labels := s.labels + 1 } := rfl

@[simp] theorem lines_newLabel (s : GenState) : newLabel.lines s = [] := rfl

@[simp] theorem clear_newLabel (s : GenState) : Clear p newLabel s := fun _ h => absurd h List.not_mem_nil

@[simp] theorem value_resolve (name : Text) (s : GenState) : (resolve name s).value = s.table.resolve name := rfl

@[simp] theorem state_resolve (name : Text) (s : GenState) : (resolve name s).state = s := rfl

@[simp] theorem lines_resolve (name : Text) (s : GenState) : (resolve name).lines s = [] := rfl

@[simp] theorem clear_resolve (name : Text) (s : GenState) : Clear p (resolve name) s :=
  fun _ h => absurd h List.not_mem_nil

@[simp] theorem state_enterScope (s : GenState) : (enterScope s).state = { s with table := s.table.enter } := rfl

@[simp] theorem lines_enterScope (s : GenState) : enterScope.lines s = [] := rfl

@[simp] theorem clear_enterScope (s : GenState) : Clear p enterScope s := clear_modify _ s

@[simp] theorem state_leaveScope (s : GenState) : (leaveScope s).state = { s with table := s.table.leave } := rfl

@[simp] theorem lines_leaveScope (s : GenState) : leaveScope.lines s = [] := rfl

@[simp] theorem clear_leaveScope (s : GenState) : Clear p leaveScope s := clear_modify _ s

@[simp] theorem lines_declare (tok : Token) (ty : Ty) (s : GenState) : (declare tok ty).lines s = [] := by
  unfold lines declare
  split <;> rfl

@[simp] theorem clear_declare (tok : Token) (ty : Ty) (s : GenState) : Clear p (declare tok ty) s := by
  intro d h
  unfold declare at h
  split at h <;> exact absurd h List.not_mem_nil

/-! ## Faults of expressions -/

@[simp] theorem clear_binary (remark : Text) (left right : Operand) (code : List Instr) (result : Ty) (s : GenState) :
    Clear p (binary remark left right code result) s := by
  simp [binary]

theorem clear_add (op : Token) (left right : Operand) (s : GenState) :
    Clear p (add op left right) s ↔ left.ty.combines right.ty ∨ ¬ p (.addition op.value left.ty right.ty) := by
  unfold add
  split <;> simp_all

theorem clear_mul (op : Token) (left right : Operand) (s : GenState) :
    Clear p (mul op left right) s ↔ left.ty.combines right.ty ∨ ¬ p (.multiplication op.value left.ty right.ty) := by
  unfold mul
  split <;> simp_all

theorem clear_compare (op : Token) (left right : Operand) (s : GenState) :
    Clear p (compare op left right) s ↔
      right.ty.comparable = false ∨ left.ty ≠ .string ∨ ¬ p (.comparison left.ty op.value) := by
  unfold compare
  split
  · simp_all
  · split <;> simp_all

theorem clear_negate (op : Token) (d : Operand) (s : GenState) :
    Clear p (negate op d) s ↔ (d.ty.negatable ∧ d.place.isLabel = false) ∨ ¬ p (.negation d.ty) := by
  unfold negate
  cases d.ty.negatable <;> cases d.place.isLabel <;> simp

@[simp] theorem clear_literal (lexeme : Text) (s : GenState) : Clear p (literal lexeme) s := by
  unfold literal
  split <;> simp

theorem clear_reference (tok : Token) (s : GenState) :
    Clear p (reference tok) s ↔ ∀ e, s.table.resolve tok.value = .error e → ¬ p (.name e) := by
  simp only [reference, clear_bind, clear_produce, true_and, clear_resolve, value_resolve, state_produce,
    state_resolve]
  split <;> simp_all

/-! ## Faults of statements -/

@[simp] theorem state_enter (n : Note) (s : GenState) : (enter n s).state = s := rfl

@[simp] theorem lines_enter (n : Note) (s : GenState) : (enter n).lines s = [] := rfl

@[simp] theorem clear_enter (n : Note) (s : GenState) : Clear p (enter n) s := by
  simp [enter]

theorem clear_declaration (type name : Token) (s : GenState) :
    Clear p (declaration type name) s ↔ (name.kind = .ident ∨ ¬ p (.expected .ident name)) ∧ (name.kind = .ident →
      ∀ e, (declare name (Ty.ofKeyword type.value) s).value = .error e → ¬ p (.name e)) := by
  simp only [declaration, clear_bind, clear_produce, true_and, clear_expect, state_produce, state_expect]
  refine and_congr_right fun _ => ?_
  by_cases hk : name.kind = .ident
  · rw [if_pos hk]
    simp only [clear_bind, clear_get, true_and, value_get, state_get]
    -- a remark on a hidden name changes nothing
    split <;>
    · simp only [clear_bind, clear_remark, clear_declare, true_and, state_remark]
      split <;> simp_all
  · simp [hk]

theorem state_declaration {type name : Token} (h : name.kind = .ident) (s : GenState) :
    (declaration type name s).state = (declare name (Ty.ofKeyword type.value) s).state := by
  cases hs : s.table.shadowed? name.value <;>
  cases hd : (declare name (Ty.ofKeyword type.value) s).value <;>
  simp [declaration, h, hs, hd]

@[simp] theorem lines_declaration (type name : Token) (s : GenState) : (declaration type name).lines s = [] := by
  simp only [declaration, lines_bind, lines_produce, lines_expect, List.nil_append]
  split
  · simp only [lines_bind, lines_get, List.nil_append]
    split <;>
    · simp only [lines_bind, lines_remark, lines_declare, List.nil_append]
      split <;> rfl
  · rfl

theorem clear_storeIn (target : Token) (v : Variable) (s : GenState) :
    Clear p (storeIn target v) s ↔ v.ty.assignable s.current.ty ∨ ¬ p (.assignment s.current.ty v) := by
  by_cases h : v.ty.assignable s.current.ty <;> simp [storeIn, h]

theorem clear_expectCondition (tok : Token) (g : Guarded) (s : GenState) :
    Clear p (expectCondition tok g) s ↔ s.current.ty.isCondition ∨ ¬ p (.condition g s.current.ty) := by
  by_cases h : s.current.ty.isCondition <;> simp [expectCondition, h]

@[simp] theorem state_expectCondition (tok : Token) (g : Guarded) (s : GenState) :
    (expectCondition tok g s).state = s := by
  by_cases h : s.current.ty.isCondition <;> simp [expectCondition, h]

@[simp] theorem lines_expectCondition (tok : Token) (g : Guarded) (s : GenState) :
    (expectCondition tok g).lines s = [] := by
  by_cases h : s.current.ty.isCondition <;> simp [expectCondition, h]

theorem clear_readCurrent (keyword : Token) (s : GenState) :
    Clear p (readCurrent keyword) s ↔
      (s.current.ty.readable ∧ s.current.place.isLabel = false) ∨ ¬ p (.reading s.current.ty) := by
  cases h₁ : s.current.ty.readable <;> cases h₂ : s.current.place.isLabel <;> simp [readCurrent, h₁, h₂]

end Gen

end AlgolMips
