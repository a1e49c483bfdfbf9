import AlgolMips.Proofs.Grammar
import AlgolMips.Proofs.Walk

/-!
# Lexical scoping

Names are bound by declarations and looked up from the inside out. An environment holds the blocks around a place of a
program with what they have declared so far; it is computed along the text of the program, whatever is executed. A
declaration is known by its cell: the number of its block, in the order in which blocks are opened, and its place among
the declarations of the block.

The symbol table of a lowering shows as an environment (`SymbolTable.env`), and goes along with the environment of a
well-scoped program (`Code.env_lower`). A program that leaves no fault about a name is well scoped
(`Program.scoped_of_clear`).
-/

namespace AlgolMips

/-! ## Environments -/

/-- The number of a block and a place among its declarations. -/
structure Cell where
  block : Nat
  index : Nat
deriving DecidableEq

/-- A declared name, folded, with its type and its cell. -/
structure Binding where
  name : Text
  ty : Ty
  cell : Cell
deriving DecidableEq

/-- An open block with its declarations so far. -/
structure Block where
  number : Nat
  bindings : List Binding := []

/-- The open blocks, innermost first, and the number of all blocks opened so far. -/
structure Env where
  blocks : List Block
  opened : Nat

namespace Block

def find? (b : Block) (name : Text) : Option Binding := b.bindings.find? fun d => d.name = name.fold

def declare (b : Block) (name : Text) (ty : Ty) : Block :=
  { b with bindings := b.bindings ++ [⟨name.fold, ty, b.number, b.bindings.length⟩] }

end Block

namespace Env

/-- Around a whole program there is a block without declarations. -/
def initial : Env := ⟨[⟨0, []⟩], 1⟩

def enter (Γ : Env) : Env := ⟨⟨Γ.opened, []⟩ :: Γ.blocks, Γ.opened + 1⟩

def leave (Γ : Env) : Env := { Γ with blocks := Γ.blocks.tail }

/-- Declares a name in the innermost block. -/
def declare (Γ : Env) (name : Text) (ty : Ty) : Env :=
  match Γ.blocks with
  | [] => Γ
  | b :: rest => { Γ with blocks := b.declare name ty :: rest }

/-- The binding of a name in the innermost block that has one. -/
def find? (Γ : Env) (name : Text) : Option Binding := Γ.blocks.findSome? fun b => b.find? name

/-- Whether the innermost block declares a name. -/
def Declares (Γ : Env) (name : Text) : Prop := ∃ b ∈ Γ.blocks.head?, (b.find? name).isSome

end Env

/-- The environment behind a statement or at the end of the inside of a block. -/
def Code.after : {x : Extent} → Code x → Env → Env
  | _, .declare type name, Γ => Γ.declare name.value (Ty.ofKeyword type.value)
  | _, .ifThen _ _ _ action, Γ => action.after Γ
  | _, .whileDo _ _ _ action, Γ => action.after Γ
  | _, .block _ inside _, Γ => (inside.after Γ.enter).leave
  | _, .last s, Γ => s.after Γ
  | _, .next s _ rest, Γ => rest.after (s.after Γ)
  | _, .empty, Γ | _, .assign .., Γ | _, .read .., Γ | _, .write .., Γ | _, .done, Γ => Γ

/-- Every name of an expression is declared. -/
def Expr.Scoped (Γ : Env) : {l : Level} → Expr l → Prop
  | _, .add left _ right => left.Scoped Γ ∧ right.Scoped Γ
  | _, .term e => e.Scoped Γ
  | _, .mul left _ right => left.Scoped Γ ∧ right.Scoped Γ
  | _, .relation e => e.Scoped Γ
  | _, .compare left _ right => left.Scoped Γ ∧ right.Scoped Γ
  | _, .factor e => e.Scoped Γ
  | _, .missing => True
  | _, .name tok => (Γ.find? tok.value).isSome
  | _, .literal _ => True
  | _, .negation _ e => e.Scoped Γ
  | _, .group _ e _ => e.Scoped Γ

/-- Every name is declared earlier in a block that is still open, and no block declares a name twice. -/
def Code.Scoped : {x : Extent} → Code x → Env → Prop
  | _, .empty, _ => True
  | _, .declare _ name, Γ => ¬ Γ.Declares name.value
  | _, .assign target _ value, Γ => (Γ.find? target.value).isSome ∧ value.Scoped Γ
  | _, .ifThen _ condition _ action, Γ => condition.Scoped Γ ∧ action.Scoped Γ
  | _, .whileDo _ condition _ action, Γ => condition.Scoped Γ ∧ action.Scoped Γ
  | _, .block _ inside _, Γ => inside.Scoped Γ.enter
  | _, .read _ _ target _, Γ => ∀ tok ∈ target, (Γ.find? tok.value).isSome
  | _, .write _ _ value _, Γ => value.Scoped Γ
  | _, .done, _ => True
  | _, .last s, Γ => s.Scoped Γ
  | _, .next s _ rest, Γ => s.Scoped Γ ∧ rest.Scoped (s.after Γ)

def Program.Scoped : Program → Prop
  | bare _ => True
  | block _ inside _ _ => inside.Scoped Env.initial.enter

instance (Γ : Env) (name : Text) : Decidable (Γ.Declares name) :=
  inferInstanceAs (Decidable (∃ b ∈ Γ.blocks.head?, (b.find? name).isSome))

instance Expr.decidableScoped (Γ : Env) : {l : Level} → (e : Expr l) → Decidable (e.Scoped Γ)
  | _, .add left _ right => @instDecidableAnd _ _ (decidableScoped Γ left) (decidableScoped Γ right)
  | _, .term e => decidableScoped Γ e
  | _, .mul left _ right => @instDecidableAnd _ _ (decidableScoped Γ left) (decidableScoped Γ right)
  | _, .relation e => decidableScoped Γ e
  | _, .compare left _ right => @instDecidableAnd _ _ (decidableScoped Γ left) (decidableScoped Γ right)
  | _, .factor e => decidableScoped Γ e
  | _, .missing => .isTrue trivial
  | _, .name tok => inferInstanceAs (Decidable ((Γ.find? tok.value).isSome = true))
  | _, .literal _ => .isTrue trivial
  | _, .negation _ e => decidableScoped Γ e
  | _, .group _ e _ => decidableScoped Γ e

instance Code.decidableScoped : {x : Extent} → (c : Code x) → (Γ : Env) → Decidable (c.Scoped Γ)
  | _, .empty, _ => .isTrue trivial
  | _, .declare _ name, Γ => inferInstanceAs (Decidable (¬ Γ.Declares name.value))
  | _, .assign target _ value, Γ =>
    inferInstanceAs (Decidable ((Γ.find? target.value).isSome = true ∧ value.Scoped Γ))
  | _, .ifThen _ condition _ action, Γ =>
    @instDecidableAnd _ _ (condition.decidableScoped Γ) (action.decidableScoped Γ)
  | _, .whileDo _ condition _ action, Γ =>
    @instDecidableAnd _ _ (condition.decidableScoped Γ) (action.decidableScoped Γ)
  | _, .block _ inside _, Γ => inside.decidableScoped Γ.enter
  | _, .read _ _ target _, Γ => inferInstanceAs (Decidable (∀ tok ∈ target, (Γ.find? tok.value).isSome = true))
  | _, .write _ _ value _, Γ => value.decidableScoped Γ
  | _, .done, _ => .isTrue trivial
  | _, .last s, Γ => s.decidableScoped Γ
  | _, .next s _ rest, Γ => @instDecidableAnd _ _ (s.decidableScoped Γ) (rest.decidableScoped (s.after Γ))

instance : (p : Program) → Decidable p.Scoped
  | .bare _ => .isTrue trivial
  | .block _ inside _ _ => inside.decidableScoped Env.initial.enter

/-! ## The symbol table as an environment -/

/-- A scope as a block. -/
def Scope.view (s : Scope) : Block := ⟨s.id, s.vars.mapIdx fun i v => ⟨v.name, v.ty, s.id, i⟩⟩

/-- A symbol table as the environment of its open scopes. -/
def SymbolTable.env (t : SymbolTable) : Env := ⟨t.openScopes.map Scope.view, t.depth + t.retired.length⟩

theorem Scope.view_find?_eq_none {s : Scope} {name : Text} : s.view.find? name = none ↔ s.find? name = none := by
  simp only [Scope.view, Block.find?, Scope.find?, List.find?_eq_none, List.mem_mapIdx]
  constructor
  · intro h v hv
    obtain ⟨i, hi, rfl⟩ := List.mem_iff_getElem.1 hv
    exact h _ ⟨i, hi, rfl⟩
  · rintro h d ⟨i, hi, rfl⟩
    exact h _ (List.getElem_mem hi)

/-- A name that a scope binds shows with the type of its variable and the place where the variable stands. -/
theorem Scope.view_find? {s : Scope} {name : Text} {v : Variable} (h : s.find? name = some v) :
    ∃ i, s.vars[i]? = some v ∧ s.view.find? name = some ⟨v.name, v.ty, s.id, i⟩ := by
  rw [Scope.find?, List.find?_eq_some_iff_getElem] at h
  obtain ⟨hv, i, hi, rfl, hfirst⟩ := h
  refine ⟨i, List.getElem?_eq_getElem hi, ?_⟩
  rw [Block.find?, List.find?_eq_some_iff_getElem]
  refine ⟨hv, i, by simpa [Scope.view] using hi, by simp [Scope.view], fun j hj => ?_⟩
  simpa [Scope.view] using hfirst j hj

namespace SymbolTable

/-- What is looked up in some scopes shows when it is looked up in their blocks. -/
theorem findSome?_view {scopes : List Scope} {name : Text} {d : Binding}
    (h : (scopes.map Scope.view).findSome? (fun b => b.find? name) = some d) :
    ∃ v, lookup scopes name = some v ∧ v.ty = d.ty ∧
      ∃ s ∈ scopes, s.id = d.cell.block ∧ s.vars[d.cell.index]? = some v := by
  induction scopes with
  | nil => simp at h
  | cons s rest ih =>
    cases hs : s.find? name with
    | none =>
      have hview := Scope.view_find?_eq_none.2 hs
      simp only [List.map_cons, List.findSome?_cons, hview] at h
      obtain ⟨v, hv, hty, s', hs', hid, hat⟩ := ih h
      exact ⟨v, by simpa [lookup, hs] using hv, hty, s', List.mem_cons_of_mem _ hs', hid, hat⟩
    | some v =>
      obtain ⟨i, hat, hview⟩ := Scope.view_find? hs
      simp only [List.map_cons, List.findSome?_cons, hview, Option.some.injEq] at h
      subst h
      exact ⟨v, by simp [lookup, hs], rfl, s, List.mem_cons_self, rfl, hat⟩

theorem findSome?_view_eq_none {scopes : List Scope} {name : Text}
    (h : (scopes.map Scope.view).findSome? (fun b => b.find? name) = none) : lookup scopes name = none := by
  simp only [List.findSome?_eq_none_iff, List.mem_map, forall_exists_index, and_imp, forall_apply_eq_imp_iff₂] at h
  simp only [lookup, List.findSome?_eq_none_iff]
  exact fun s hs => Scope.view_find?_eq_none.1 (h s hs)

/-- A name of the environment is resolved to a variable of its type in one of the open scopes. -/
theorem resolve_of_find? {t : SymbolTable} {name : Text} {d : Binding} (h : t.env.find? name = some d) :
    ∃ v, t.resolve name = .ok v ∧ v.ty = d.ty ∧
      ∃ s ∈ t.openScopes, s.id = d.cell.block ∧ s.vars[d.cell.index]? = some v := by
  obtain ⟨v, hv, hrest⟩ := findSome?_view h
  exact ⟨v, by simp [resolve, hv], hrest⟩

theorem resolve_of_find?_eq_none {t : SymbolTable} {name : Text} (h : t.env.find? name = none) :
    t.resolve name = .error (.undeclared name.fold) := by
  simp [resolve, findSome?_view_eq_none h]

theorem env_enter (t : SymbolTable) : t.enter.env = t.env.enter := by
  simp [env, enter, Env.enter, openScopes, depth, Scope.view, Nat.add_right_comm]

theorem leave_of_enclosing {t : SymbolTable} {s : Scope} {rest : List Scope} (h : t.enclosing = s :: rest) :
    t.leave = { innermost := s, enclosing := rest, retired := t.retired ++ [t.innermost] } := by
  simp [leave, h]

theorem env_leave {t : SymbolTable} (h : t.enclosing ≠ []) : t.leave.env = t.env.leave := by
  obtain ⟨s, rest, hcons⟩ := List.exists_cons_of_ne_nil h
  rw [leave_of_enclosing hcons]
  simp [env, Env.leave, openScopes, depth, hcons]
  omega

/-- The table with one more variable in the innermost scope. -/
def bind (t : SymbolTable) (v : Variable) : SymbolTable :=
  { t with innermost := { t.innermost with vars := t.innermost.vars ++ [v] } }

theorem env_bind (t : SymbolTable) (tok : Token) (ty : Ty) (offset : Int64) :
    (t.bind ⟨{ tok with value := tok.value.fold }, ty, offset⟩).env = t.env.declare tok.value ty := by
  simp [env, bind, Env.declare, openScopes, depth, Scope.view, Block.declare, List.mapIdx_append, Variable.name]

/-- A declaration succeeds where the innermost block has none of that name. -/
theorem declare_of_not_declares {t : SymbolTable} {tok : Token} (ty : Ty) (f : Frame)
    (h : ¬ t.env.Declares tok.value) :
    t.declare f tok ty = .ok (⟨{ tok with value := tok.value.fold }, ty, f.next⟩,
      t.bind ⟨{ tok with value := tok.value.fold }, ty, f.next⟩, f.alloc.2) := by
  have hnone : t.innermost.find? tok.value = none := by
    rw [← Scope.view_find?_eq_none, ← Option.not_isSome_iff_eq_none]
    exact fun hsome => h ⟨_, rfl, hsome⟩
  simp only [declare, hnone]
  rfl

end SymbolTable

/-! ## The environment along a lowering -/

namespace Gen

theorem state_binary (remark : Text) (left right : Operand) (code : List Mips.Instr) (result : Ty) (s : GenState) :
    (binary remark left right code result s).state =
      { s with frame := s.frame.alloc.2, current := .inFrame result s.frame.next } := rfl

@[simp] theorem table_add (op : Token) (left right : Operand) (s : GenState) :
    (add op left right s).state.table = s.table := by
  unfold add
  split <;> rfl

@[simp] theorem table_mul (op : Token) (left right : Operand) (s : GenState) :
    (mul op left right s).state.table = s.table := by
  unfold mul
  split <;> rfl

@[simp] theorem table_compare (op : Token) (left right : Operand) (s : GenState) :
    (Gen.compare op left right s).state.table = s.table := by
  unfold Gen.compare
  split
  · rfl
  · split <;> rfl

@[simp] theorem state_negate (op : Token) (d : Operand) (s : GenState) : (negate op d s).state = s := by
  unfold negate
  split <;> rfl

@[simp] theorem table_literal (lexeme : Text) (s : GenState) : (literal lexeme s).state.table = s.table := by
  unfold literal
  split <;> rfl

/-- A reference to a declared name makes its variable the current operand, and leaves the rest of the state. -/
theorem reference_ok {tok : Token} {s : GenState} {v : Variable} (h : s.table.resolve tok.value = .ok v) :
    (reference tok s).state = { s with current := .inFrame v.ty v.offset } ∧ (reference tok s).value = true ∧
      (reference tok).lines s = [] := by
  simp [reference, h]

@[simp] theorem table_reference (tok : Token) (s : GenState) : (reference tok s).state.table = s.table := by
  cases h : s.table.resolve tok.value <;> simp [reference, h]

@[simp] theorem state_storeIn (target : Token) (v : Variable) (s : GenState) : (storeIn target v s).state = s := by
  by_cases h : v.ty.assignable s.current.ty <;> simp [storeIn, h]

@[simp] theorem state_readCurrent (keyword : Token) (s : GenState) : (readCurrent keyword s).state = s := by
  cases h₁ : s.current.ty.readable <;> cases h₂ : s.current.place.isLabel <;> simp [readCurrent, h₁, h₂]

/-! ### The states after statements -/

theorem state_assignment {target : Token} {s : GenState} {v : Variable} (h : s.table.resolve target.value = .ok v)
    (sign : Token) (value : Gen Unit) : (assignment target sign value s).state =
      (value { s with current := .inFrame v.ty v.offset }).state := by
  simp [assignment, h, (reference_ok h).1]

theorem state_conditional (opening middle : Token) (condition action : Gen Unit) (s : GenState) :
    (conditional opening middle condition action s).state =
      (action { (condition s).state with labels := (condition s).state.labels + 1 }).state := by
  simp [conditional]

theorem state_loop (opening middle : Token) (condition action : Gen Unit) (s : GenState) :
    (loop opening middle condition action s).state =
      (action (condition { s with labels := s.labels + 2 }).state).state := by
  simp [loop]

theorem state_block (closing : Token) (inside : Gen Unit) (s : GenState) :
    (block closing inside s).state =
      { (inside { s with table := s.table.enter }).state with
        table := (inside { s with table := s.table.enter }).state.table.leave } := by
  simp [block]

theorem state_read {tok : Token} {s : GenState} {v : Variable} (h : s.table.resolve tok.value = .ok v)
    (keyword opening closing : Token) :
    (read keyword opening (some tok) closing s).state = { s with current := .inFrame v.ty v.offset } := by
  simp [read, (reference_ok h).1, (reference_ok h).2.1]

/-- An assignment keeps the table where its value does, whether its target is declared or not. -/
theorem table_assignment {value : Gen Unit} (hvalue : ∀ s, (value s).state.table = s.table) (target sign : Token)
    (s : GenState) : (assignment target sign value s).state.table = s.table := by
  cases h : s.table.resolve target.value with
  | error e => simp [assignment, h, hvalue]
  | ok v => simp [state_assignment h, hvalue]

@[simp] theorem table_read (keyword opening : Token) (target : Option Token) (closing : Token) (s : GenState) :
    (read keyword opening target closing s).state.table = s.table := by
  cases target with
  | none => simp [read]
  | some tok =>
    cases h : s.table.resolve tok.value with
    | error e => simp [read, reference, h]
    | ok v => simp [state_read h]

theorem state_write (keyword opening : Token) (value : Gen Unit) (closing : Token) (s : GenState) :
    (write keyword opening value closing s).state = (value s).state := by
  cases h : printLines (if keyword.value = "writeln" then "writeln" else "write") (value s).state.current <;>
  simp [write, h]

theorem state_declare {tok : Token} {s : GenState} (h : ¬ s.table.env.Declares tok.value) (ty : Ty) :
    (declare tok ty s).state =
      { s with
        table := s.table.bind ⟨{ tok with value := tok.value.fold }, ty, s.frame.next⟩
        frame := s.frame.alloc.2 } ∧
    ∃ v, (declare tok ty s).value = .ok v := by
  simp [declare, SymbolTable.declare_of_not_declares ty s.frame h]

/-! ### Faults of statements whose tokens are of the right kinds -/

variable {p : Fault → Prop}

theorem clear_assignment {target : Token} {s : GenState} {v : Variable} (h : s.table.resolve target.value = .ok v)
    {sign : Token} (hsign : sign.kind = .assign) (value : Gen Unit) :
    Clear p (assignment target sign value) s ↔
      Clear p value { s with current := .inFrame v.ty v.offset } ∧
        Clear p (storeIn target v) (value { s with current := .inFrame v.ty v.offset }).state := by
  simp [assignment, h, (reference_ok h).1, clear_reference, clear_expect, hsign]

theorem clear_conditional {middle : Token} (hmiddle : middle.kind = .then) (opening : Token)
    (condition action : Gen Unit) (s : GenState) :
    Clear p (conditional opening middle condition action) s ↔
      Clear p condition s ∧ Clear p (expectCondition opening .conditional) (condition s).state ∧
        Clear p action { (condition s).state with labels := (condition s).state.labels + 1 } := by
  simp [conditional, clear_expect, hmiddle]

theorem clear_loop {middle : Token} (hmiddle : middle.kind = .do) (opening : Token) (condition action : Gen Unit)
    (s : GenState) :
    Clear p (loop opening middle condition action) s ↔
      Clear p condition { s with labels := s.labels + 2 } ∧
        Clear p (expectCondition opening .loop) (condition { s with labels := s.labels + 2 }).state ∧
        Clear p action (condition { s with labels := s.labels + 2 }).state := by
  simp [loop, clear_expect, hmiddle]

theorem clear_block {closing : Token} (hclosing : closing.kind = .end) (inside : Gen Unit) (s : GenState) :
    Clear p (block closing inside) s ↔ Clear p inside { s with table := s.table.enter } := by
  simp [block, clear_expect, hclosing]

theorem clear_read {keyword opening tok closing : Token} {s : GenState} {v : Variable}
    (h : s.table.resolve tok.value = .ok v) (hopening : opening.kind = .lparen) (hclosing : closing.kind = .rparen) :
    Clear p (read keyword opening (some tok) closing) s ↔
      Clear p (readCurrent keyword) { s with current := .inFrame v.ty v.offset } := by
  simp [read, reference_ok h, clear_reference, h, clear_expect, hopening, hclosing]

theorem clear_write {opening closing : Token} (hopening : opening.kind = .lparen) (hclosing : closing.kind = .rparen)
    (keyword : Token) (value : Gen Unit) (s : GenState) :
    Clear p (write keyword opening value closing) s ↔ Clear p value s := by
  cases h : printLines (if keyword.value = "writeln" then "writeln" else "write") (value s).state.current <;>
  simp [write, h, clear_expect, hopening, hclosing]

end Gen

open Gen

/-- Expressions declare nothing. -/
@[simp] theorem Expr.table_lower {l : Level} (e : Expr l) (s : GenState) : (e.lower s).state.table = s.table := by
  induction e generalizing s with
  | add left op right ihl ihr => simp [Expr.lower, ihl, ihr]
  | term e ih => simp [Expr.lower, ih]
  | mul left op right ihl ihr => simp [Expr.lower, ihl, ihr]
  | relation e ih => simp [Expr.lower, ih]
  | compare left op right ihl ihr => simp [Expr.lower, ihl, ihr]
  | factor e ih => simp [Expr.lower, ih]
  | missing => simp [Expr.lower]
  | name tok => simp [Expr.lower]
  | literal tok => simp [Expr.lower]
  | negation op e ih => simp [Expr.lower, ih]
  | group opening e closing ih => simp [Expr.lower, ih]

/-- A statement opens and closes its own scopes and declares in the innermost one. -/
theorem Code.enclosing_lower {x : Extent} (c : Code x) (s : GenState) :
    (c.lower s).state.table.enclosing = s.table.enclosing := by
  induction c generalizing s with
  | empty => simp [Code.lower]
  | declare type name =>
    simp only [Code.lower, state_bind, state_enter]
    by_cases hk : name.kind = .ident
    · rw [state_declaration hk, Gen.declare]
      split
      · next h =>
        unfold SymbolTable.declare at h
        split at h
        · cases h
        · cases h
          rfl
      · rfl
    · simp [Gen.declaration, hk]
  | assign target sign value => simp [Code.lower, table_assignment value.table_lower]
  | ifThen opening condition middle action ih => simp [Code.lower, state_conditional, ih]
  | whileDo opening condition middle action ih => simp [Code.lower, state_loop, ih]
  | block opening inside closing ih =>
    have hin : _ = s.table.innermost :: s.table.enclosing := ih { s with table := s.table.enter }
    simp [Code.lower, state_block, SymbolTable.leave_of_enclosing hin]
  | read keyword opening target closing => simp [Code.lower]
  | write keyword opening value closing => simp [Code.lower, state_write]
  | done => simp [Code.lower]
  | last s ih => simp [Code.lower, ih]
  | next s separator rest ihs ihr => simp [Code.lower, ihs, ihr]

/-- Lowering a well-scoped statement leaves the environment behind it in the symbol table. -/
theorem Code.env_lower {x : Extent} (c : Code x) (hv : c.Valid) (s : GenState) (hs : c.Scoped s.table.env) :
    (c.lower s).state.table.env = c.after s.table.env := by
  induction c generalizing s with
  | empty => simp [Code.lower, Code.after]
  | declare type name =>
    simp only [Code.lower, state_bind, state_enter, Code.after]
    rw [state_declaration hv.2, (state_declare hs _).1]
    exact SymbolTable.env_bind ..
  | assign target sign value => simp [Code.lower, table_assignment value.table_lower, Code.after]
  | ifThen opening condition middle action ih =>
    simp only [Code.lower, state_bind, state_enter, state_conditional, Code.after]
    rw [ih hv.2.2.2 _ (by simpa using hs.2)]
    simp
  | whileDo opening condition middle action ih =>
    simp only [Code.lower, state_bind, state_enter, state_loop, Code.after]
    rw [ih hv.2.2.2 _ (by simpa using hs.2)]
    simp
  | block opening inside closing ih =>
    have hin := ih hv.2.1 { s with table := s.table.enter } (by rw [SymbolTable.env_enter]; exact hs)
    have hopen := inside.enclosing_lower { s with table := s.table.enter }
    simp only [Code.lower, state_bind, state_enter, state_block, Code.after]
    rw [SymbolTable.env_leave (by rw [hopen]; exact List.cons_ne_nil _ _), hin, SymbolTable.env_enter]
  | read keyword opening target closing => simp [Code.lower, Code.after]
  | write keyword opening value closing => simp [Code.lower, state_write, Code.after]
  | done => simp [Code.lower, Code.after]
  | last c ih => simpa [Code.lower, Code.after] using ih hv.1 s hs
  | next c separator rest ihs ihr =>
    have hfirst := ihs hv.1 s hs.1
    simp only [Code.lower, state_bind, state_expect, Code.after]
    rw [ihr hv.2.2 _ (by rw [hfirst]; exact hs.2), hfirst]

/-! ## Faults about names -/

namespace SymbolTable

/-- A second declaration in a block is refused. -/
theorem declare_of_declares {t : SymbolTable} {tok : Token} (ty : Ty) (f : Frame) (h : t.env.Declares tok.value) :
    ∃ e, t.declare f tok ty = .error e := by
  obtain ⟨b, hb, hsome⟩ := h
  cases hb
  cases hfind : t.innermost.find? tok.value with
  | none =>
    rw [Scope.view_find?_eq_none.2 hfind] at hsome
    cases hsome
  | some v => exact ⟨_, by simp only [declare, hfind]; rfl⟩

end SymbolTable

variable {p : Fault → Prop}

/-- A name that is looked up without a fault is declared. -/
theorem isSome_of_resolve (hp : ∀ e, p (.name e)) {t : SymbolTable} {name : Text}
    (h : ∀ e, t.resolve name = .error e → ¬ p (.name e)) : (t.env.find? name).isSome := by
  cases hfind : t.env.find? name with
  | none => exact absurd (hp _) (h _ (SymbolTable.resolve_of_find?_eq_none hfind))
  | some d => rfl

theorem Expr.scoped_of_clear (hp : ∀ e, p (.name e)) {l : Level} (e : Expr l) (s : GenState)
    (h : Clear p e.lower s) : e.Scoped s.table.env := by
  induction e generalizing s with
  | add left op right ihl ihr =>
    simp only [Expr.lower, clear_bind] at h
    exact ⟨ihl s h.1, by simpa using ihr _ h.2.2.1⟩
  | term e ih =>
    simp only [Expr.lower, clear_bind] at h
    exact ih s h.2
  | mul left op right ihl ihr =>
    simp only [Expr.lower, clear_bind] at h
    exact ⟨ihl s h.1, by simpa using ihr _ h.2.2.1⟩
  | relation e ih =>
    simp only [Expr.lower, clear_bind] at h
    exact ih s h.2
  | compare left op right ihl ihr =>
    simp only [Expr.lower, clear_bind] at h
    exact ⟨ihl s h.2.1, by simpa using ihr _ h.2.2.2.1⟩
  | factor e ih =>
    simp only [Expr.lower, clear_bind] at h
    exact ih s h.2
  | missing => trivial
  | name tok =>
    simp only [Expr.lower, clear_bind, clear_reference] at h
    exact isSome_of_resolve hp h.2.1
  | literal tok => trivial
  | negation op e ih =>
    simp only [Expr.lower, clear_bind] at h
    exact ih s h.2.1
  | group opening e closing ih =>
    simp only [Expr.lower, clear_bind] at h
    exact ih s h.2.1

/-- A statement that is lowered without a fault about a name uses its names well. -/
theorem Code.scoped_of_clear (hp : ∀ e, p (.name e)) {x : Extent} (c : Code x) (hv : c.Valid) (s : GenState)
    (h : Clear p c.lower s) : c.Scoped s.table.env := by
  induction c generalizing s with
  | empty => trivial
  | declare type name =>
    simp only [Code.lower, clear_bind, clear_enter, state_enter, true_and, clear_declaration] at h
    intro hdeclares
    obtain ⟨e, he⟩ := SymbolTable.declare_of_declares (Ty.ofKeyword type.value) s.frame hdeclares
    exact h.2 hv.2 e (by simp [Gen.declare, he]) (hp e)
  | assign target sign value =>
    simp only [Code.lower, clear_bind, clear_enter, state_enter, true_and] at h
    cases hres : s.table.resolve target.value with
    | error e =>
      simp only [Gen.assignment, clear_bind, value_resolve, state_produce, hres, clear_report] at h
      exact absurd (hp e) h.2.2.1
    | ok v =>
      rw [clear_assignment hres hv.2.1] at h
      exact ⟨isSome_of_resolve hp (by simp [hres]),
        value.scoped_of_clear hp { s with current := .inFrame v.ty v.offset } h.1⟩
  | ifThen opening condition middle action ih =>
    simp only [Code.lower, clear_bind, clear_enter, state_enter, true_and, clear_conditional hv.2.2.1] at h
    exact ⟨condition.scoped_of_clear hp s h.1, by simpa using ih hv.2.2.2 _ h.2.2⟩
  | whileDo opening condition middle action ih =>
    simp only [Code.lower, clear_bind, clear_enter, state_enter, true_and, clear_loop hv.2.2.1] at h
    exact ⟨condition.scoped_of_clear hp { s with labels := s.labels + 2 } h.1, by simpa using ih hv.2.2.2 _ h.2.2⟩
  | block opening inside closing ih =>
    simp only [Code.lower, clear_bind, clear_enter, state_enter, true_and, clear_block hv.2.2] at h
    have hinside := ih hv.2.1 _ h
    rw [SymbolTable.env_enter] at hinside
    exact hinside
  | read keyword opening target closing =>
    rintro tok ⟨⟩
    simp only [Code.lower, clear_bind, clear_enter, state_enter, true_and, Gen.read, clear_reference] at h
    exact isSome_of_resolve hp (by simpa using h.2.2.1)
  | write keyword opening value closing =>
    simp only [Code.lower, clear_bind, clear_enter, state_enter, true_and,
      clear_write hv.2.2.1 hv.2.2.2.2] at h
    exact value.scoped_of_clear hp s h
  | done => trivial
  | last c ih => exact ih hv.1 s h
  | next c separator rest ihs ihr =>
    simp only [Code.lower, clear_bind, state_expect] at h
    have hfirst := ihs hv.1 s h.1
    refine ⟨hfirst, ?_⟩
    rw [← c.env_lower hv.1 s hfirst]
    exact ihr hv.2.2 _ h.2.2

/-- Around the inside of its block, a valid program leaves no fault. -/
theorem Program.clear_lower_block {opening closing stop : Token} {inside : Body}
    (hv : (Program.block opening inside closing stop).Valid) (next : Token) (s : GenState) :
    Clear p ((Program.block opening inside closing stop).lower next) s ↔
      Clear p inside.lower { s with table := s.table.enter } := by
  have hlast : ∀ s, Clear p (if next.isEof then pure () else remark next .trailing) s := by
    intro s
    split <;> simp
  simp only [Program.lower, Program.body, clear_bind, clear_produce, clear_note, clear_emit, state_produce,
    state_note, state_emit, clear_block hv.2.2.1, clear_expect, hv.2.2.2, true_or, hlast, true_and, and_true]

theorem Program.scoped_of_clear (hp : ∀ e, p (.name e)) (q : Program) (hv : q.Valid) (next : Token) (wordSize : Int64)
    (h : Clear p (q.lower next) { frame := { wordSize } }) : q.Scoped := by
  cases q with
  | bare stop => trivial
  | block opening inside closing stop =>
    have hinside := inside.scoped_of_clear hp hv.2.1 _ ((clear_lower_block hv next _).1 h)
    rw [SymbolTable.env_enter] at hinside
    exact hinside

end AlgolMips
