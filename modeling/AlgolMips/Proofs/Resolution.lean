import AlgolMips.Proofs.Acceptance
import AlgolMips.Proofs.Scoping

/-!
# Misused names

A reader who knows only where blocks begin and end can tell which names of a program are misused: those that are used
where no open block has declared them so far, and those that a block declares a second time. `Program.misuses` walks along
the text with a stack of blocks and lists them. A second declaration leaves the stack as it is, so the first one stays in
force.

Lowering reports just these names, at the same tokens and in the same order, whatever the types are and whatever else it
reports (`name_diagnostics_lexical`). What carries the proof is that the symbol table shows as the stack of the reader all
along the walk, also behind misused names (`Code.env_lower_behind`).
-/

namespace AlgolMips

open Gen

/-! ## Misuses along the text -/

/-- What is wrong with the use of a name. A name is given folded, a block by its number. -/
inductive Misuse where
  | undeclared (name : Text)
  | redeclared (name : Text) (block : Nat)
deriving DecidableEq

namespace Env

/-- The environment behind a declaration. A name that the innermost block has already keeps its first binding. -/
def declareOnce (Γ : Env) (name : Text) (ty : Ty) : Env := if Γ.Declares name then Γ else Γ.declare name ty

/-- A name must be declared where it is used. -/
def useMisuses (Γ : Env) (tok : Token) : List (Token × Misuse) :=
  if (Γ.find? tok.value).isSome then [] else [(tok, .undeclared tok.value.fold)]

/-- A name must not be declared where its block has it already. -/
def declarationMisuses (Γ : Env) (tok : Token) : List (Token × Misuse) :=
  match Γ.blocks with
  | [] => []
  | b :: _ => if (b.find? tok.value).isSome then [(tok, .redeclared tok.value.fold b.number)] else []

end Env

/-- The misused names of an expression, from left to right. -/
def Expr.misuses (Γ : Env) : {l : Level} → Expr l → List (Token × Misuse)
  | _, .add left _ right => left.misuses Γ ++ right.misuses Γ
  | _, .term e => e.misuses Γ
  | _, .mul left _ right => left.misuses Γ ++ right.misuses Γ
  | _, .relation e => e.misuses Γ
  | _, .compare left _ right => left.misuses Γ ++ right.misuses Γ
  | _, .factor e => e.misuses Γ
  | _, .missing => []
  | _, .name tok => Γ.useMisuses tok
  | _, .literal _ => []
  | _, .negation _ e => e.misuses Γ
  | _, .group _ e _ => e.misuses Γ

/-- The environment behind a statement, misused names or not. -/
def Code.behind : {x : Extent} → Code x → Env → Env
  | _, .declare type name, Γ => Γ.declareOnce name.value (Ty.ofKeyword type.value)
  | _, .ifThen _ _ _ action, Γ => action.behind Γ
  | _, .whileDo _ _ _ action, Γ => action.behind Γ
  | _, .block _ inside _, Γ => (inside.behind Γ.enter).leave
  | _, .last s, Γ => s.behind Γ
  | _, .next s _ rest, Γ => rest.behind (s.behind Γ)
  | _, .empty, Γ | _, .assign .., Γ | _, .read .., Γ | _, .write .., Γ | _, .done, Γ => Γ

/-- The misused names of a statement in the order of the text. The target of an assignment counts once, before the
value. -/
def Code.misuses : {x : Extent} → Code x → Env → List (Token × Misuse)
  | _, .empty, _ => []
  | _, .declare _ name, Γ => Γ.declarationMisuses name
  | _, .assign target _ value, Γ => Γ.useMisuses target ++ value.misuses Γ
  | _, .ifThen _ condition _ action, Γ => condition.misuses Γ ++ action.misuses Γ
  | _, .whileDo _ condition _ action, Γ => condition.misuses Γ ++ action.misuses Γ
  | _, .block _ inside _, Γ => inside.misuses Γ.enter
  | _, .read _ _ target _, Γ => target.toList.flatMap Γ.useMisuses
  | _, .write _ _ value _, Γ => value.misuses Γ
  | _, .done, _ => []
  | _, .last s, Γ => s.misuses Γ
  | _, .next s _ rest, Γ => s.misuses Γ ++ rest.misuses (s.behind Γ)

/-- The misused names of a program. -/
def Program.misuses : Program → List (Token × Misuse)
  | bare _ => []
  | block _ inside _ _ => inside.misuses Env.initial.enter

/-! ## The environment behind misused names -/

theorem Scope.isSome_view_find? (s : Scope) (name : Text) : (s.view.find? name).isSome = (s.find? name).isSome := by
  cases h : s.find? name with
  | none =>
    rw [view_find?_eq_none.2 h]
    rfl
  | some v =>
    obtain ⟨i, -, hview⟩ := view_find? h
    rw [hview]
    rfl

theorem SymbolTable.declares_env {t : SymbolTable} {name : Text} :
    t.env.Declares name ↔ (t.innermost.find? name).isSome := by
  rw [← Scope.isSome_view_find?]
  constructor
  · rintro ⟨b, ⟨⟩, hsome⟩
    exact hsome
  · exact fun hsome => ⟨_, rfl, hsome⟩

namespace Gen

/-- A declaration that is refused leaves the table, and any other one adds its name. -/
theorem env_declare (tok : Token) (ty : Ty) (s : GenState) :
    (declare tok ty s).state.table.env = s.table.env.declareOnce tok.value ty := by
  by_cases h : s.table.env.Declares tok.value
  · obtain ⟨e, he⟩ := SymbolTable.declare_of_declares ty s.frame h
    simp [declare, he, Env.declareOnce, h]
  · rw [(state_declare h ty).1, Env.declareOnce, if_neg h]
    exact SymbolTable.env_bind ..

end Gen

/-- The table shows as the environment behind a statement, whatever the statement does with its names. -/
theorem Code.env_lower_behind {x : Extent} (c : Code x) (hv : c.Valid) (s : GenState) :
    (c.lower s).state.table.env = c.behind s.table.env := by
  induction c generalizing s with
  | empty => rfl
  | declare type name =>
    simp only [Code.lower, state_bind, state_enter, Code.behind]
    rw [state_declaration hv.2, env_declare]
  | assign target sign value => simp [Code.lower, table_assignment value.table_lower, Code.behind]
  | ifThen opening condition middle action ih =>
    simp [Code.lower, state_conditional, ih hv.2.2.2, Code.behind]
  | whileDo opening condition middle action ih =>
    simp [Code.lower, state_loop, ih hv.2.2.2, Code.behind]
  | block opening inside closing ih =>
    have hopen := inside.enclosing_lower { s with table := s.table.enter }
    simp only [Code.lower, state_bind, state_enter, state_block, Code.behind]
    rw [SymbolTable.env_leave (by rw [hopen]; exact List.cons_ne_nil _ _), ih hv.2.1, SymbolTable.env_enter]
  | read keyword opening target closing => simp [Code.lower, Code.behind]
  | write keyword opening value closing => simp [Code.lower, state_write, Code.behind]
  | done => rfl
  | last c ih => exact ih hv.1 s
  | next c separator rest ihs ihr => simp [Code.lower, ihs hv.1, ihr hv.2.2, Code.behind]

/-! ## Diagnostics about names -/

namespace Diagnostic

/-- Whether a diagnostic is of one of the two classes that names are reported under. -/
def aboutName (d : Diagnostic) : Bool := d.fault.kind = .undeclaredName || d.fault.kind = .redeclaration

/-- The misuse that a diagnostic reports, with the token that it stands at. -/
def misuse? (d : Diagnostic) : Option (Token × Misuse) :=
  match d.fault with
  | .name (.undeclared name) => some (d.token, .undeclared name)
  | .name (.redeclared name scope _) => some (d.token, .redeclared name scope)
  | _ => none

/-- The diagnostics about names are those that report a misuse. -/
theorem isSome_misuse? (d : Diagnostic) : d.misuse?.isSome = d.aboutName := by
  obtain ⟨tok, f⟩ := d
  cases f with
  | name e => cases e <;> rfl
  | _ => rfl

/-- Reading the misuses off some diagnostics leaves out those of the other classes. -/
theorem map_misuse?_filter (ds : List Diagnostic) :
    (ds.filter aboutName).map misuse? = (ds.filterMap misuse?).map some := by
  induction ds with
  | nil => rfl
  | cons d rest ih =>
    have hd := d.isSome_misuse?
    cases hm : d.misuse? with
    | none =>
      rw [hm] at hd
      rw [List.filter_cons_of_neg (by simp [← hd]), List.filterMap_cons_none hm, ih]
    | some m =>
      rw [hm] at hd
      rw [List.filter_cons_of_pos (by simp [← hd]), List.filterMap_cons_some hm, List.map_cons, List.map_cons, ih, hm]

end Diagnostic

/-- A fault about a name. -/
def Fault.OfName : Fault → Prop
  | .name _ => True
  | _ => False

namespace Gen

variable {α β : Type}

/-- The misuses that a walk reports. -/
def misuses (m : Gen α) (s : GenState) : List (Token × Misuse) :=
  ((m s).events.filterMap Event.fault?).filterMap Diagnostic.misuse?

@[simp] theorem misuses_bind (m : Gen α) (f : α → Gen β) (s : GenState) :
    (m >>= f).misuses s = m.misuses s ++ (f (m s).value).misuses (m s).state := by
  simp [misuses, List.filterMap_append]

/-- A walk without a fault about a name reports no misuse. -/
@[simp] theorem misuses_of_clear {m : Gen α} {s : GenState} (h : Clear Fault.OfName m s) : m.misuses s = [] := by
  refine List.filterMap_eq_nil_iff.2 fun d hd => ?_
  obtain ⟨e, he, hfault⟩ := List.mem_filterMap.1 hd
  cases e with
  | fault d' =>
    cases hfault
    have hname := h d he
    unfold Diagnostic.misuse?
    split
    · next hf => exact absurd (hf ▸ trivial) hname
    · next hf => exact absurd (hf ▸ trivial) hname
    · rfl
  | _ => cases hfault

theorem misuses_report (tok : Token) (e : NameError) (s : GenState) :
    (report tok (.name e)).misuses s = [match e with
      | .undeclared name => (tok, .undeclared name)
      | .redeclared name scope _ => (tok, .redeclared name scope)] := by
  cases e <;> rfl

/-! ### Steps without a fault about a name -/

@[simp] theorem clear_ofName_expect (k : Kind) (tok : Token) (s : GenState) : Clear Fault.OfName (expect k tok) s :=
  (clear_expect ..).2 (.inr nofun)

@[simp] theorem clear_ofName_add (op : Token) (left right : Operand) (s : GenState) :
    Clear Fault.OfName (add op left right) s := (clear_add ..).2 (.inr nofun)

@[simp] theorem clear_ofName_mul (op : Token) (left right : Operand) (s : GenState) :
    Clear Fault.OfName (mul op left right) s := (clear_mul ..).2 (.inr nofun)

@[simp] theorem clear_ofName_compare (op : Token) (left right : Operand) (s : GenState) :
    Clear Fault.OfName (Gen.compare op left right) s := (clear_compare ..).2 (.inr (.inr nofun))

@[simp] theorem clear_ofName_negate (op : Token) (d : Operand) (s : GenState) :
    Clear Fault.OfName (negate op d) s := (clear_negate ..).2 (.inr nofun)

@[simp] theorem clear_ofName_storeIn (target : Token) (v : Variable) (s : GenState) :
    Clear Fault.OfName (storeIn target v) s := (clear_storeIn ..).2 (.inr nofun)

@[simp] theorem clear_ofName_expectCondition (tok : Token) (g : Guarded) (s : GenState) :
    Clear Fault.OfName (expectCondition tok g) s := (clear_expectCondition ..).2 (.inr nofun)

@[simp] theorem clear_ofName_readCurrent (keyword : Token) (s : GenState) :
    Clear Fault.OfName (readCurrent keyword) s := (clear_readCurrent ..).2 (.inr nofun)

/-! ### Steps that look a name up -/

theorem useMisuses_of_ok {s : GenState} {tok : Token} {v : Variable} (h : s.table.resolve tok.value = .ok v) :
    s.table.env.useMisuses tok = [] := by
  cases hfind : s.table.env.find? tok.value with
  | none =>
    rw [SymbolTable.resolve_of_find?_eq_none hfind] at h
    cases h
  | some d => simp [Env.useMisuses, hfind]

/-- A name that is not resolved is not in the environment. -/
theorem useMisuses_of_error {s : GenState} {tok : Token} {e : NameError} (h : s.table.resolve tok.value = .error e) :
    e = .undeclared tok.value.fold ∧ s.table.env.useMisuses tok = [(tok, .undeclared tok.value.fold)] := by
  cases hfind : s.table.env.find? tok.value with
  | none =>
    rw [SymbolTable.resolve_of_find?_eq_none hfind] at h
    cases h
    exact ⟨rfl, by simp [Env.useMisuses, hfind]⟩
  | some d =>
    obtain ⟨v, hv, -⟩ := SymbolTable.resolve_of_find? hfind
    rw [hv] at h
    cases h

@[simp] theorem misuses_reference (tok : Token) (s : GenState) :
    (reference tok).misuses s = s.table.env.useMisuses tok := by
  cases h : s.table.resolve tok.value with
  | ok v => simp [useMisuses_of_ok h, clear_reference, h]
  | error e =>
    obtain ⟨rfl, hmisuses⟩ := useMisuses_of_error h
    simp [reference, h, hmisuses, misuses_report]

theorem misuses_declaration {type name : Token} (hname : name.kind = .ident) (s : GenState) :
    (declaration type name).misuses s = s.table.env.declarationMisuses name := by
  have hblock : s.table.env.declarationMisuses name = if (s.table.innermost.find? name.value).isSome then
      [(name, .redeclared name.value.fold s.table.innermost.id)] else [] := by
    rw [← Scope.isSome_view_find?]
    rfl
  rw [hblock]
  cases hfind : s.table.innermost.find? name.value with
  | none =>
    refine misuses_of_clear ((clear_declaration ..).2 ⟨.inl hname, fun _ e he => ?_⟩)
    have hnot : ¬ s.table.env.Declares name.value := by simp [SymbolTable.declares_env, hfind]
    obtain ⟨v, hv⟩ := (state_declare hnot (Ty.ofKeyword type.value)).2
    rw [hv] at he
    cases he
  | some previous =>
    have hrefused : s.table.declare s.frame name (Ty.ofKeyword type.value) =
        .error (.redeclared name.value.fold s.table.innermost.id previous) := by
      simp only [SymbolTable.declare, hfind]
    cases hs : s.table.shadowed? name.value <;>
    simp [declaration, hname, hs, declare, hrefused, misuses_report]

/-! ### Statements -/

/-- The target of an assignment is reported once, and its value after it. -/
theorem misuses_assignment {value : Gen Unit} {ms : List (Token × Misuse)} {s : GenState}
    (hvalue : ∀ t : GenState, t.table = s.table → value.misuses t = ms) (target sign : Token) :
    (assignment target sign value).misuses s = s.table.env.useMisuses target ++ ms := by
  cases h : s.table.resolve target.value with
  | error e =>
    obtain ⟨rfl, hmisuses⟩ := useMisuses_of_error h
    simp [assignment, h, hmisuses, misuses_report, hvalue s rfl]
  | ok v =>
    simp [assignment, h, useMisuses_of_ok h, (reference_ok h).1, hvalue { s with current := .inFrame v.ty v.offset } rfl]

theorem misuses_conditional (opening middle : Token) (condition action : Gen Unit) (s : GenState) :
    (conditional opening middle condition action).misuses s = condition.misuses s ++
      action.misuses { (condition s).state with labels := (condition s).state.labels + 1 } := by
  simp [conditional]

theorem misuses_loop (opening middle : Token) (condition action : Gen Unit) (s : GenState) :
    (loop opening middle condition action).misuses s = condition.misuses { s with labels := s.labels + 2 } ++
      action.misuses (condition { s with labels := s.labels + 2 }).state := by
  simp [loop]

theorem misuses_block (closing : Token) (inside : Gen Unit) (s : GenState) :
    (block closing inside).misuses s = inside.misuses { s with table := s.table.enter } := by
  simp [block]

theorem misuses_read (keyword opening : Token) (target : Option Token) (closing : Token) (s : GenState) :
    (read keyword opening target closing).misuses s = target.toList.flatMap s.table.env.useMisuses := by
  cases target with
  | none => simp [read]
  | some tok =>
    cases h : (reference tok s).value <;> simp [read, h]

theorem misuses_write (keyword opening : Token) (value : Gen Unit) (closing : Token) (s : GenState) :
    (write keyword opening value closing).misuses s = value.misuses s := by
  cases h : printLines (if keyword.value = "writeln" then "writeln" else "write") (value s).state.current <;>
  simp [write, h]

end Gen

/-! ## Trees -/

/-- An expression reports the misused names of its text. -/
theorem Expr.misuses_lower {l : Level} (e : Expr l) (s : GenState) : e.lower.misuses s = e.misuses s.table.env := by
  induction e generalizing s with
  | add left op right ihl ihr => simp [Expr.lower, Expr.misuses, ihl, ihr]
  | term e ih => simp [Expr.lower, Expr.misuses, ih]
  | mul left op right ihl ihr => simp [Expr.lower, Expr.misuses, ihl, ihr]
  | relation e ih => simp [Expr.lower, Expr.misuses, ih]
  | compare left op right ihl ihr => simp [Expr.lower, Expr.misuses, ihl, ihr]
  | factor e ih => simp [Expr.lower, Expr.misuses, ih]
  | missing => simp [Expr.lower, Expr.misuses]
  | name tok => simp [Expr.lower, Expr.misuses]
  | literal tok => simp [Expr.lower, Expr.misuses]
  | negation op e ih => simp [Expr.lower, Expr.misuses, ih]
  | group opening e closing ih => simp [Expr.lower, Expr.misuses, ih]

/-- A statement reports the misused names of its text. -/
theorem Code.misuses_lower {x : Extent} (c : Code x) (hv : c.Valid) (s : GenState) :
    c.lower.misuses s = c.misuses s.table.env := by
  induction c generalizing s with
  | empty => simp [Code.lower, Code.misuses]
  | declare type name => simp [Code.lower, Code.misuses, misuses_declaration hv.2]
  | assign target sign value =>
    have hvalue (t : GenState) (ht : t.table = s.table) : value.lower.misuses t = value.misuses s.table.env := by
      rw [value.misuses_lower, ht]
    simp [Code.lower, Code.misuses, misuses_assignment hvalue]
  | ifThen opening condition middle action ih =>
    simp [Code.lower, Code.misuses, misuses_conditional, condition.misuses_lower, ih hv.2.2.2]
  | whileDo opening condition middle action ih =>
    simp [Code.lower, Code.misuses, misuses_loop, condition.misuses_lower, ih hv.2.2.2]
  | block opening inside closing ih =>
    simp [Code.lower, Code.misuses, misuses_block, ih hv.2.1, SymbolTable.env_enter]
  | read keyword opening target closing => simp [Code.lower, Code.misuses, misuses_read]
  | write keyword opening value closing =>
    simp [Code.lower, Code.misuses, misuses_write, value.misuses_lower]
  | done => simp [Code.lower, Code.misuses]
  | last c ih => exact ih hv.1 s
  | next c separator rest ihs ihr =>
    simp [Code.lower, Code.misuses, ihs hv.1, ihr hv.2.2, c.env_lower_behind hv.1]

theorem Program.misuses_lower (p : Program) (hv : p.Valid) (next : Token) (wordSize : Int64) :
    (p.lower next).misuses { frame := { wordSize } } = p.misuses := by
  have hlast (s : GenState) : Gen.misuses (if next.isEof then pure () else remark next .trailing) s = [] := by
    split <;> simp
  cases p with
  | bare stop => simp [Program.lower, Program.body, Program.misuses, hlast]
  | block opening inside closing stop =>
    have henter : SymbolTable.env (SymbolTable.enter {}) = Env.initial.enter := SymbolTable.env_enter {}
    simp [Program.lower, Program.body, Program.misuses, misuses_block, inside.misuses_lower hv.2.1, henter, hlast]

/-- The diagnostics about names are those of lexical scoping. Of all diagnostics of a program of the grammar, whatever its
types, those about names report the misused names of its text, each at its token and in their order. And along any
statement the names in force are those of the text: a second declaration in a block leaves the first one in force. -/
theorem name_diagnostics_lexical (wordSize : Int64) (p : Program) (hv : p.Valid) :
    ((lower wordSize { tokens := p.tokens }).diagnostics.filter Diagnostic.aboutName).map Diagnostic.misuse? =
        p.misuses.map some ∧
      ∀ (x : Extent) (c : Code x) (s : GenState), c.Valid →
        (c.lower s).state.table.env = c.behind s.table.env := by
  refine ⟨?_, fun x c s hc => c.env_lower_behind hc s⟩
  rw [Diagnostic.map_misuse?_filter, lower_tokens hv]
  exact congrArg (List.map some) (p.misuses_lower hv {} wordSize)

/-- A program that misuses four names: a second `x` in one block, a target before its declaration, a name behind the block
that declared it, and the target of a `read`. The name that a conditional declares is there behind it. -/
def carelessProgram : Program :=
  .block (.plain .begin "begin")
    (.next (.declare (.plain .typeName "integer") (.plain .ident "x")) (.plain .semi ";")
      (.next (.declare (.plain .typeName "logical") (.plain .ident "X")) (.plain .semi ";")
        (.next (.block (.plain .begin "begin")
            (.next (.assign (.plain .ident "y") (.plain .assign ":=") (value "x")) (.plain .semi ";")
              (.last (.declare (.plain .typeName "integer") (.plain .ident "y"))))
            (.plain .end "end")) (.plain .semi ";")
          (.next (.ifThen (.plain .if "if") (value "x") (.plain .then "then")
              (.declare (.plain .typeName "string") (.plain .ident "z"))) (.plain .semi ";")
            (.next (.assign (.plain .ident "Z") (.plain .assign ":=") (value "y")) (.plain .semi ";")
              (.last (.read (.plain .inout "read") (.plain .lparen "(") (some (.plain .ident "w"))
                (.plain .rparen ")"))))))))
    (.plain .end "end") (.plain .dot ".")
where
  value (name : Text) : Expr .expression := .term (.relation (.factor (.name (.plain .ident name))))

theorem carelessProgram_reported :
    carelessProgram.Valid ∧
      ((lower 4 { tokens := carelessProgram.tokens }).diagnostics.filter Diagnostic.aboutName).map Diagnostic.misuse? =
        [some (.plain .ident "X", .redeclared "x" 1), some (.plain .ident "y", .undeclared "y"),
          some (.plain .ident "y", .undeclared "y"), some (.plain .ident "w", .undeclared "w")] := by
  have hv : carelessProgram.Valid := by
    simp [carelessProgram, carelessProgram.value, Program.Valid, Code.Valid, Expr.Valid, Token.plain]
  refine ⟨hv, (name_diagnostics_lexical 4 carelessProgram hv).1.trans ?_⟩
  decide +kernel

end AlgolMips
