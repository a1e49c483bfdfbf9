import Mathlib.Data.List.Forall2
import AlgolMips.Proofs.Acceptance
import AlgolMips.Proofs.ParseTree
import AlgolMips.Proofs.Scoping

/-!
# The derivation of a program

On the way a lowering leaves marks: the productions it makes and the stations of its trace. What else it leaves is beside
the point here, so a walk is seen through its marks alone (`Gen.marks`), and every step gets one equation for them.

An expression leaves the productions of its parse tree in preorder, whatever it is about (`Expr.marks_lower`). So does a
statement whose assignments have declared targets (`Code.rules_lower`); an assignment to an undeclared name makes no
production for its target. The stations of a statement name the statements in it that are not empty, in the order of the
text, and `read`, `write` and `writeln` besides (`Code.stations_lower`). So the derivation of a program is the leftmost
derivation of its parse tree.
-/

namespace AlgolMips

open Gen

/-! ## Marks -/

/-- Whether a station names a statement; the others say what a statement of input or output does. -/
def Note.isStatement : Note → Bool
  | declaration | assignment | conditional | block | loop | inout => true
  | program | read | write | writeLine => false

namespace Event

/-- Whether an event says where in the program a lowering is. -/
def isMark : Event → Bool
  | rule _ | note _ => true
  | _ => false

/-- The productions among some events. -/
def rulesIn (es : List Event) : List Rule := es.filterMap rule?

/-- The stations among some events that name statements. -/
def stationsIn (es : List Event) : List Note := (es.filterMap note?).filter Note.isStatement

@[simp] theorem rulesIn_nil : rulesIn [] = [] := rfl

@[simp] theorem rulesIn_append (es es' : List Event) : rulesIn (es ++ es') = rulesIn es ++ rulesIn es' :=
  List.filterMap_append

@[simp] theorem rulesIn_rule (r : Rule) (es : List Event) : rulesIn (.rule r :: es) = r :: rulesIn es := rfl

@[simp] theorem rulesIn_note (n : Note) (es : List Event) : rulesIn (.note n :: es) = rulesIn es := rfl

@[simp] theorem rulesIn_rules (rs : List Rule) : rulesIn (rs.map rule) = rs := by
  induction rs with
  | nil => rfl
  | cons r rs ih => simp [ih]

theorem rulesIn_marks (es : List Event) : rulesIn (es.filter isMark) = rulesIn es := by
  simp only [rulesIn, List.filterMap_filter]
  congr 1
  funext e
  cases e <;> rfl

theorem notes_marks (es : List Event) : (es.filter isMark).filterMap note? = es.filterMap note? := by
  rw [List.filterMap_filter]
  congr 1
  funext e
  cases e <;> rfl

@[simp] theorem stationsIn_nil : stationsIn [] = [] := rfl

@[simp] theorem stationsIn_append (es es' : List Event) :
    stationsIn (es ++ es') = stationsIn es ++ stationsIn es' := by
  simp [stationsIn]

@[simp] theorem stationsIn_rule (r : Rule) (es : List Event) : stationsIn (.rule r :: es) = stationsIn es := rfl

@[simp] theorem stationsIn_note (n : Note) (es : List Event) :
    stationsIn (.note n :: es) = if n.isStatement then n :: stationsIn es else stationsIn es := by
  simp [stationsIn, note?, List.filter_cons]

@[simp] theorem stationsIn_rules (rs : List Rule) : stationsIn (rs.map rule) = [] := by
  induction rs with
  | nil => rfl
  | cons r rs ih => simp [ih]

end Event

namespace Gen

variable {α β : Type}

/-- The marks that a walk leaves. -/
def marks (m : Gen α) (s : GenState) : List Event := (m s).events.filter Event.isMark

@[simp] theorem marks_pure (a : α) (s : GenState) : (pure a : Gen α).marks s = [] := rfl

@[simp] theorem marks_bind (m : Gen α) (f : α → Gen β) (s : GenState) :
    (m >>= f).marks s = m.marks s ++ (f (m s).value).marks (m s).state := by
  simp [marks]

@[simp] theorem marks_emit (ls : List Mips.Line) (s : GenState) : (emit ls).marks s = [] := by
  simp [marks, emit, Event.isMark]

@[simp] theorem marks_produce (r : Rule) (s : GenState) : (produce r).marks s = [.rule r] := rfl

@[simp] theorem marks_note (n : Note) (s : GenState) : (note n).marks s = [.note n] := rfl

@[simp] theorem marks_report (tok : Token) (f : Fault) (s : GenState) : (report tok f).marks s = [] := rfl

@[simp] theorem marks_remark (tok : Token) (r : Remark) (s : GenState) : (remark tok r).marks s = [] := rfl

@[simp] theorem marks_expect (k : Kind) (tok : Token) (s : GenState) : (expect k tok).marks s = [] := by
  unfold expect
  split <;> rfl

@[simp] theorem marks_get (s : GenState) : get.marks s = [] := rfl

@[simp] theorem marks_current (s : GenState) : current.marks s = [] := rfl

@[simp] theorem marks_setCurrent (d : Operand) (s : GenState) : (setCurrent d).marks s = [] := rfl

@[simp] theorem marks_newTemp (s : GenState) : newTemp.marks s = [] := rfl

@[simp] theorem marks_newLabel (s : GenState) : newLabel.marks s = [] := rfl

@[simp] theorem marks_resolve (name : Text) (s : GenState) : (resolve name).marks s = [] := rfl

@[simp] theorem marks_enterScope (s : GenState) : enterScope.marks s = [] := rfl

@[simp] theorem marks_leaveScope (s : GenState) : leaveScope.marks s = [] := rfl

@[simp] theorem marks_declare (tok : Token) (ty : Ty) (s : GenState) : (declare tok ty).marks s = [] := by
  unfold marks declare
  split <;> rfl

/-! ### Expressions -/

@[simp] theorem marks_binary (remark : Text) (left right : Operand) (code : List Mips.Instr) (result : Ty)
    (s : GenState) : (binary remark left right code result).marks s = [] := by
  simp [binary]

@[simp] theorem marks_add (op : Token) (left right : Operand) (s : GenState) : (add op left right).marks s = [] := by
  unfold add
  split <;> simp

@[simp] theorem marks_mul (op : Token) (left right : Operand) (s : GenState) : (mul op left right).marks s = [] := by
  unfold mul
  split <;> simp

@[simp] theorem marks_compare (op : Token) (left right : Operand) (s : GenState) :
    (Gen.compare op left right).marks s = [] := by
  unfold Gen.compare
  split
  · simp
  · split <;> simp

@[simp] theorem marks_negate (op : Token) (d : Operand) (s : GenState) : (negate op d).marks s = [] := by
  unfold negate
  split <;> simp

@[simp] theorem marks_literal (lexeme : Text) (s : GenState) : (literal lexeme).marks s = [] := by
  unfold literal
  split <;> simp

@[simp] theorem marks_reference (tok : Token) (s : GenState) : (reference tok).marks s = [.rule .reference] := by
  cases h : s.table.resolve tok.value <;> simp [reference, h]

/-! ### Statements -/

@[simp] theorem marks_enter (n : Note) (s : GenState) : (enter n).marks s = [.rule .statement, .note n] := rfl

@[simp] theorem marks_declaration (type name : Token) (s : GenState) :
    (declaration type name).marks s = [.rule .declaration] := by
  simp only [declaration, marks_bind, marks_produce, marks_expect, List.nil_append]
  split
  · simp only [marks_bind, marks_get, List.nil_append]
    split <;>
    · simp only [marks_bind, marks_remark, marks_declare, List.nil_append]
      split <;> rfl
  · rfl

@[simp] theorem marks_storeIn (target : Token) (v : Variable) (s : GenState) : (storeIn target v).marks s = [] := by
  by_cases h : v.ty.assignable s.current.ty <;> simp [storeIn, h]

/-- An assignment makes a production for its target only where the target is declared. -/
theorem marks_assignment (target sign : Token) (value : Gen Unit) (s : GenState) :
    (assignment target sign value).marks s = .rule .assignment ::
      match s.table.resolve target.value with
      | .ok v => .rule .reference :: value.marks { s with current := .inFrame v.ty v.offset }
      | .error _ => value.marks s := by
  cases h : s.table.resolve target.value with
  | ok v => simp [assignment, h, (reference_ok h).1]
  | error e => simp [assignment, h]

@[simp] theorem marks_expectCondition (tok : Token) (g : Guarded) (s : GenState) :
    (expectCondition tok g).marks s = [] := by
  by_cases h : s.current.ty.isCondition <;> simp [expectCondition, h]

theorem marks_conditional (opening middle : Token) (condition action : Gen Unit) (s : GenState) :
    (conditional opening middle condition action).marks s = .rule .conditional :: (condition.marks s ++
      action.marks { (condition s).state with labels := (condition s).state.labels + 1 }) := by
  simp [conditional]

theorem marks_loop (opening middle : Token) (condition action : Gen Unit) (s : GenState) :
    (loop opening middle condition action).marks s = .rule .loop ::
      (condition.marks { s with labels := s.labels + 2 } ++
        action.marks (condition { s with labels := s.labels + 2 }).state) := by
  simp [loop]

theorem marks_block (closing : Token) (inside : Gen Unit) (s : GenState) :
    (block closing inside).marks s = .rule .block :: inside.marks { s with table := s.table.enter } := by
  simp [block]

theorem marks_readCurrent (keyword : Token) (s : GenState) :
    (readCurrent keyword).marks s = if s.current.ty.readable && !s.current.place.isLabel then [.note .read] else [] := by
  cases h₁ : s.current.ty.readable <;> cases h₂ : s.current.place.isLabel <;> simp [readCurrent, h₁, h₂]

/-- A `read` is noted where it reads something. -/
theorem marks_read (keyword opening : Token) (target : Option Token) (closing : Token) (s : GenState) :
    ∃ noted : Bool, (read keyword opening target closing).marks s =
      [.rule .inout, .rule .reference] ++ if noted then [.note .read] else [] := by
  cases target with
  | none => exact ⟨false, by simp [read]⟩
  | some tok =>
    cases h : s.table.resolve tok.value with
    | error e => exact ⟨false, by simp [read, reference, h]⟩
    | ok v =>
      refine ⟨v.ty.readable, ?_⟩
      simp [read, (reference_ok h).1, (reference_ok h).2.1, marks_readCurrent, Operand.inFrame, Place.isLabel]

theorem marks_write (keyword opening : Token) (value : Gen Unit) (closing : Token) (s : GenState) :
    (write keyword opening value closing).marks s = .rule .inout ::
      (value.marks s ++ [.note (if keyword.value = "writeln" then .writeLine else .write)]) := by
  cases h : printLines (if keyword.value = "writeln" then "writeln" else "write") (value s).state.current <;>
  simp [write, h]

end Gen

/-! ## Productions -/

/-- An expression leaves its production and those below it in preorder, whatever its names and types are. -/
theorem Expr.marks_lower {l : Level} (e : Expr l) (s : GenState) :
    e.lower.marks s = (l.rule :: e.children.preorder).map Event.rule := by
  induction e generalizing s with
  | add left op right ihl ihr => simp [Expr.lower, Expr.children, ihl, ihr]
  | term e ih => simp [Expr.lower, Expr.children, ih]
  | mul left op right ihl ihr => simp [Expr.lower, Expr.children, ihl, ihr]
  | relation e ih => simp [Expr.lower, Expr.children, ih]
  | compare left op right ihl ihr => simp [Expr.lower, Expr.children, ihl, ihr]
  | factor e ih => simp [Expr.lower, Expr.children, ih]
  | missing => simp [Expr.lower, Expr.children]
  | name tok => simp [Expr.lower, Expr.children]
  | literal tok => simp [Expr.lower, Expr.children]
  | negation op e ih => simp [Expr.lower, Expr.children, ih]
  | group opening e closing ih => simp [Expr.lower, Expr.children, ih]

/-- Every target of an assignment is declared earlier in a block that is still open. -/
def Code.TargetsDeclared : {x : Extent} → Code x → Env → Prop
  | _, .assign target _ _, Γ => (Γ.find? target.value).isSome
  | _, .ifThen _ _ _ action, Γ => action.TargetsDeclared Γ
  | _, .whileDo _ _ _ action, Γ => action.TargetsDeclared Γ
  | _, .block _ inside _, Γ => inside.TargetsDeclared Γ.enter
  | _, .last s, Γ => s.TargetsDeclared Γ
  | _, .next s _ rest, Γ => s.TargetsDeclared Γ ∧ rest.TargetsDeclared (s.after Γ)
  | _, .empty, _ | _, .declare .., _ | _, .read .., _ | _, .write .., _ | _, .done, _ => True

def Program.TargetsDeclared : Program → Prop
  | bare _ => True
  | block _ inside _ _ => inside.TargetsDeclared Env.initial.enter

instance Code.decidableTargetsDeclared : {x : Extent} → (c : Code x) → (Γ : Env) → Decidable (c.TargetsDeclared Γ)
  | _, .assign target _ _, Γ => inferInstanceAs (Decidable ((Γ.find? target.value).isSome = true))
  | _, .ifThen _ _ _ action, Γ => action.decidableTargetsDeclared Γ
  | _, .whileDo _ _ _ action, Γ => action.decidableTargetsDeclared Γ
  | _, .block _ inside _, Γ => inside.decidableTargetsDeclared Γ.enter
  | _, .last s, Γ => s.decidableTargetsDeclared Γ
  | _, .next s _ rest, Γ =>
    @instDecidableAnd _ _ (s.decidableTargetsDeclared Γ) (rest.decidableTargetsDeclared (s.after Γ))
  | _, .empty, _ | _, .declare .., _ | _, .read .., _ | _, .write .., _ | _, .done, _ => .isTrue trivial

instance : (p : Program) → Decidable p.TargetsDeclared
  | .bare _ => .isTrue trivial
  | .block _ inside _ _ => inside.decidableTargetsDeclared Env.initial.enter

/-! ### The names of a table -/

/-- A scope and a block declare the same names. -/
def Scope.HasNames (s : Scope) (b : Block) : Prop := ∀ name, (s.find? name).isSome = (b.find? name).isSome

namespace SymbolTable

/-- The open scopes of a table have the names of the blocks of an environment, block by block. Unlike the environment,
the table refuses a second declaration of a name, which makes no difference to the names. -/
def Follows (t : SymbolTable) (Γ : Env) : Prop := List.Forall₂ Scope.HasNames t.openScopes Γ.blocks

theorem follows_initial : ({} : SymbolTable).Follows Env.initial := .cons (fun _ => rfl) .nil

variable {t : SymbolTable} {Γ : Env}

theorem Follows.enter (h : t.Follows Γ) : t.enter.Follows Γ.enter := .cons (fun _ => rfl) h

theorem Follows.leave (h : t.Follows Γ) (hopen : t.enclosing ≠ []) : t.leave.Follows Γ.leave := by
  obtain ⟨s, rest, hcons⟩ := List.exists_cons_of_ne_nil hopen
  unfold Follows at h
  rw [openScopes, hcons] at h
  rw [leave_of_enclosing hcons]
  cases hblocks : Γ.blocks with
  | nil =>
    rw [hblocks] at h
    cases h
  | cons b blocks =>
    rw [hblocks] at h
    cases h with
    | cons _ hrest => simpa [Follows, Env.leave, openScopes, hblocks] using hrest

/-- A declaration adds its name, unless the name is there already. -/
theorem Follows.declare (h : t.Follows Γ) (tok : Token) (ty ty' : Ty) (f : Frame) :
    (match t.declare f tok ty with
      | .ok (_, table, _) => table
      | .error _ => t).Follows (Γ.declare tok.value ty') := by
  unfold Follows at h
  cases hblocks : Γ.blocks with
  | nil =>
    rw [hblocks] at h
    cases h
  | cons b blocks =>
    rw [hblocks, openScopes] at h
    cases h with
    | cons hnames hrest =>
      simp only [Env.declare, hblocks]
      cases hfind : t.innermost.find? tok.value with
      | some v =>
        have hthere := hnames tok.value
        simp only [SymbolTable.declare, hfind]
        refine .cons (fun name => ?_) hrest
        rw [hnames name]
        simp only [Block.find?, Block.declare, List.find?_append, Option.isSome_or] at hthere ⊢
        by_cases hname : tok.value.fold = name.fold
        · simp only [← hname]
          simp [← hthere, hfind]
        · simp [hname]
      | none =>
        simp only [SymbolTable.declare, hfind]
        refine .cons (fun name => ?_) hrest
        have hbefore := hnames name
        simp only [Scope.find?, Block.find?, Block.declare, List.find?_append, Option.isSome_or] at hbefore ⊢
        rw [hbefore]
        by_cases hname : tok.value.fold = name.fold <;> simp [hname, Variable.name]

theorem isSome_lookup {scopes : List Scope} {blocks : List Block} (h : List.Forall₂ Scope.HasNames scopes blocks)
    (name : Text) : (lookup scopes name).isSome = (blocks.findSome? fun b => b.find? name).isSome := by
  unfold lookup
  induction h with
  | nil => rfl
  | @cons s b scopes blocks hnames _ ih =>
    have hb := hnames name
    cases hs : s.find? name <;> cases hf : b.find? name <;> simp_all

/-- A name of the environment is resolved. -/
theorem Follows.resolve (h : t.Follows Γ) {name : Text} (hname : (Γ.find? name).isSome) :
    ∃ v, t.resolve name = .ok v := by
  obtain ⟨v, hv⟩ := Option.isSome_iff_exists.1 ((isSome_lookup h name).trans hname)
  exact ⟨v, by simp [SymbolTable.resolve, hv]⟩

end SymbolTable

/-- Along a statement the table keeps the names of the environment, whatever the statement does with them. -/
theorem Code.follows_lower {x : Extent} (c : Code x) (hv : c.Valid) {s : GenState} {Γ : Env}
    (h : s.table.Follows Γ) : (c.lower s).state.table.Follows (c.after Γ) := by
  induction c generalizing s Γ with
  | empty => exact h
  | declare type name =>
    simp only [Code.lower, state_bind, state_enter]
    rw [state_declaration hv.2, Gen.declare]
    have hdeclare := h.declare name (Ty.ofKeyword type.value) (Ty.ofKeyword type.value) s.frame
    cases hd : s.table.declare s.frame name (Ty.ofKeyword type.value) with
    | ok r =>
      rw [hd] at hdeclare
      exact hdeclare
    | error e =>
      rw [hd] at hdeclare
      exact hdeclare
  | assign target sign value => simpa [Code.lower, table_assignment value.table_lower, Code.after] using h
  | ifThen opening condition middle action ih =>
    simp only [Code.lower, state_bind, state_enter, state_conditional, Code.after]
    exact ih hv.2.2.2 (by simpa using h)
  | whileDo opening condition middle action ih =>
    simp only [Code.lower, state_bind, state_enter, state_loop]
    exact ih hv.2.2.2 (by simpa using h)
  | block opening inside closing ih =>
    simp only [Code.lower, state_bind, state_enter, state_block]
    refine SymbolTable.Follows.leave (ih hv.2.1 h.enter) ?_
    rw [inside.enclosing_lower]
    exact List.cons_ne_nil _ _
  | read keyword opening target closing => simpa [Code.lower, Code.after] using h
  | write keyword opening value closing => simpa [Code.lower, state_write, Code.after] using h
  | done => exact h
  | last c ih => exact ih hv.1 h
  | next c separator rest ihs ihr =>
    simp only [Code.lower, state_bind, state_expect]
    exact ihr hv.2.2 (ihs hv.1 h)

/-- A statement whose targets are declared leaves the productions of its parse tree in preorder. -/
theorem Code.rules_lower {x : Extent} (c : Code x) (hv : c.Valid) {s : GenState} {Γ : Env} (h : s.table.Follows Γ)
    (ht : c.TargetsDeclared Γ) : Event.rulesIn (c.lower.marks s) = c.forest.preorder := by
  induction c generalizing s Γ with
  | empty => rfl
  | declare type name => simp [Code.lower, Code.forest]
  | assign target sign value =>
    obtain ⟨v, hres⟩ := h.resolve ht
    simp [Code.lower, Code.forest, marks_assignment, hres, value.marks_lower]
  | ifThen opening condition middle action ih =>
    simp only [Code.lower, Code.forest, marks_bind, marks_enter, state_enter, marks_conditional, condition.marks_lower]
    simpa using ih hv.2.2.2 (by simpa using h) ht
  | whileDo opening condition middle action ih =>
    simp only [Code.lower, Code.forest, marks_bind, marks_enter, state_enter, marks_loop, condition.marks_lower]
    simpa using ih hv.2.2.2 (by simpa using h) ht
  | block opening inside closing ih =>
    simp only [Code.lower, Code.forest, marks_bind, marks_enter, state_enter, marks_block]
    simpa using ih hv.2.1 h.enter ht
  | read keyword opening target closing =>
    obtain ⟨noted, hmarks⟩ := marks_read keyword opening target closing s
    cases noted <;> cases target <;> simp [Code.lower, Code.forest, hmarks]
  | write keyword opening value closing =>
    simp [Code.lower, Code.forest, marks_write, value.marks_lower]
  | done => rfl
  | last c ih => exact ih hv.1 h ht
  | next c separator rest ihs ihr =>
    have hfirst := ihs hv.1 h ht.1
    have hrest := ihr hv.2.2 (c.follows_lower hv.1 h) ht.2
    simp [Code.lower, Code.forest, hfirst, hrest]

/-! ## Stations -/

/-- The names of the statements that are not empty, in the order of the text. -/
def Code.stations : {x : Extent} → Code x → List Note
  | _, .empty => []
  | _, .declare .. => [.declaration]
  | _, .assign .. => [.assignment]
  | _, .ifThen _ _ _ action => .conditional :: action.stations
  | _, .whileDo _ _ _ action => .loop :: action.stations
  | _, .block _ inside _ => .block :: inside.stations
  | _, .read .. => [.inout]
  | _, .write .. => [.inout]
  | _, .done => []
  | _, .last s => s.stations
  | _, .next s _ rest => s.stations ++ rest.stations

/-- The names of the statements of a program; its own block is none of them. -/
def Program.stations : Program → List Note
  | bare _ => []
  | block _ inside _ _ => inside.stations

/-- Lowering a statement passes the statements in it one after the other. -/
theorem Code.stationsIn_lower {x : Extent} (c : Code x) (s : GenState) :
    Event.stationsIn (c.lower.marks s) = c.stations := by
  induction c generalizing s with
  | empty => rfl
  | declare type name => simp [Code.lower, Code.stations, Note.isStatement]
  | assign target sign value =>
    cases h : s.table.resolve target.value <;>
    simp [Code.lower, Code.stations, marks_assignment, h, value.marks_lower, Note.isStatement]
  | ifThen opening condition middle action ih =>
    simp [Code.lower, Code.stations, marks_conditional, condition.marks_lower, ih, Note.isStatement]
  | whileDo opening condition middle action ih =>
    simp [Code.lower, Code.stations, marks_loop, condition.marks_lower, ih, Note.isStatement]
  | block opening inside closing ih => simp [Code.lower, Code.stations, marks_block, ih, Note.isStatement]
  | read keyword opening target closing =>
    obtain ⟨noted, hmarks⟩ := marks_read keyword opening target closing s
    cases noted <;> simp [Code.lower, Code.stations, hmarks, Note.isStatement]
  | write keyword opening value closing =>
    by_cases h : keyword.value = "writeln" <;>
    simp [Code.lower, Code.stations, marks_write, h, value.marks_lower, Note.isStatement]
  | done => rfl
  | last c ih => exact ih s
  | next c separator rest ihs ihr => simp [Code.lower, Code.stations, ihs, ihr]

/-! ## Programs -/

/-- The marks of a program that is read from its own tokens. -/
theorem marks_lower_tokens {opening closing stop : Token} {inside : Body}
    (hv : (Program.block opening inside closing stop).Valid) (wordSize : Int64) :
    (lower wordSize { tokens := (Program.block opening inside closing stop).tokens }).events.filter Event.isMark =
      [.rule .program, .note .program, .rule .block] ++
        inside.lower.marks { frame := { wordSize }, table := SymbolTable.enter {} } := by
  rw [lower_tokens hv]
  show ((Program.block opening inside closing stop).lower {}).marks { frame := { wordSize } } = _
  simp [Program.lower, Program.body, marks_block, Token.isEof]

/-- A program of the grammar whose targets are declared is lowered without a syntactic fault and up to its end, whatever
its types. Its derivation is the preorder of its parse tree, which is a leftmost derivation of its tokens. The trace
starts with the program and names its statements in the order of the text. -/
theorem derivation_leftmost (settings : Settings) (p : Program) (hblock : ∀ stop, p ≠ .bare stop) (hv : p.Valid)
    (hc : p.Complete) (ht : p.TargetsDeclared) :
    let t := lower settings.wordSize { tokens := p.tokens }
    (∀ d ∈ t.diagnostics, d.fault.kind ≠ .syntactic) ∧ t.exhausted ∧
      t.derivation = p.forest.preorder.map Rule.number ∧
      Leftmost p.forest.preorder [.rule .program] p.tokens ∧
      (settings.feature .verboseTrace → ∃ passed : List Note,
        t.trace settings = Text.join " " ("Program Start" :: passed.map Note.name) ∧
          passed.filter Note.isStatement = p.stations) := by
  cases p with
  | bare stop => exact absurd rfl (hblock stop)
  | block opening inside closing stop =>
    intro t
    have hmarks := marks_lower_tokens hv settings.wordSize
    have hparse : TokenSource.parse { tokens := (Program.block opening inside closing stop).tokens } = (_, []) :=
      Parse.program_tokens _ hv
    have hrest : t.rest = [] := congrArg Lowering.rest (lower_tokens hv settings.wordSize)
    refine ⟨?_, by simp [Lowering.exhausted, hrest, Parse.nextKind], ?_, ?_, fun hverbose => ?_⟩
    · refine (clear_lower_iff Fault.Syntactic settings.wordSize _).2 ((Program.clear_syntactic_iff ..).2 ?_)
      rw [hparse]
      exact Program.checked_of_valid _ hv
    · have hrules : Event.rulesIn t.events = (Program.block opening inside closing stop).forest.preorder := by
        have hinside := inside.rules_lower hv.2.1
          (s := { frame := { wordSize := settings.wordSize }, table := SymbolTable.enter {} })
          SymbolTable.follows_initial.enter ht
        rw [← Event.rulesIn_marks, hmarks]
        simp [Program.forest, hinside]
      exact congrArg (List.map Rule.number) hrules
    · have hleftmost := Forest.leftmost (Program.conforms_forest hv hc) .done
      simp only [List.append_nil, Program.frontier_forest] at hleftmost
      exact hleftmost
    · refine ⟨(inside.lower.marks { frame := { wordSize := settings.wordSize }, table := SymbolTable.enter {} }).filterMap
        Event.note?, ?_, inside.stationsIn_lower _⟩
      rw [Lowering.trace, if_pos hverbose, ← Event.notes_marks, hmarks]
      rfl

/-- The product of a number and a truth value, assigned to an integer variable. -/
theorem productProgram_derivation :
    let p := productProgram (.literal (.plain .literal "true"))
    p.Valid ∧ p.Complete ∧ p.TargetsDeclared ∧
      (lower 4 { tokens := p.tokens }).derivation = [1, 7, 2, 3, 2, 4, 13, 9, 10, 11, 12, 11, 12] ∧
      ∃ passed : List Note, passed.filter Note.isStatement = [.declaration, .assignment] ∧
        (lower 4 { tokens := p.tokens }).trace { feature := fun _ => true } =
          Text.join " " ("Program Start" :: passed.map Note.name) := by
  intro p
  have hv : p.Valid := productProgram_valid rfl
  have hc : p.Complete := ⟨trivial, trivial, trivial⟩
  have ht : p.TargetsDeclared := by decide +kernel
  obtain ⟨_, _, hderivation, _, htrace⟩ := derivation_leftmost { feature := fun _ => true } p nofun hv hc ht
  obtain ⟨passed, htext, hpassed⟩ := htrace rfl
  exact ⟨hv, hc, ht, hderivation, passed, hpassed, htext⟩

end AlgolMips
