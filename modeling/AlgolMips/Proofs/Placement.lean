import AlgolMips.Lowering
import AlgolMips.Proofs.Likeness
import AlgolMips.Proofs.Scanning
import AlgolMips.Proofs.Walk

/-!
# The places of tokens

A token has a kind, a text and a place in a source, and only the first two have a say in what becomes of it. `unplaced`
takes the places away, from a token and from everything that tokens stand in: variables, scopes, diagnostics, events. A
walk commutes with it (`Gen.Mirrors`): on a tree and a state without places it does what it does on the placed ones, with
the places taken away. So two sources whose tokens agree but for their places give the same code and the same outcome
(`lower_unplaced`).

The one source of the same tokens that matters in practice is the reader: it hands out the tokens of a text one at a time,
and an end mark with a place behind them, where a list of tokens is followed by an end mark without one.
-/

namespace AlgolMips

open Mips

/-! ## Taking places away -/

def Token.unplaced (t : Token) : Token := { kind := t.kind, value := t.value }

@[simp] theorem Token.unplaced_kind (t : Token) : t.unplaced.kind = t.kind := rfl

@[simp] theorem Token.unplaced_value (t : Token) : t.unplaced.value = t.value := rfl

@[simp] theorem Token.isEof_unplaced (t : Token) : t.unplaced.isEof = t.isEof := rfl

theorem Token.unplaced_eq {t t' : Token} (hk : t.kind = t'.kind) (hv : t.value = t'.value) : t.unplaced = t'.unplaced := by
  simp only [unplaced, hk, hv]

theorem Parse.telling_unplaced : Telling Token.unplaced where
  kind h := (Token.mk.inj h).1
  read h _ := by rw [(Token.mk.inj h).2.1]

def Variable.unplaced (v : Variable) : Variable := { v with token := v.token.unplaced }

@[simp] theorem Variable.name_unplaced (v : Variable) : v.unplaced.name = v.name := rfl

@[simp] theorem Variable.unplaced_ty (v : Variable) : v.unplaced.ty = v.ty := rfl

@[simp] theorem Variable.unplaced_offset (v : Variable) : v.unplaced.offset = v.offset := rfl

def Scope.unplaced (s : Scope) : Scope := { s with vars := s.vars.map Variable.unplaced }

theorem Scope.find?_unplaced (s : Scope) (name : Text) : s.unplaced.find? name = (s.find? name).map Variable.unplaced :=
  List.find?_map

def NameError.unplaced : NameError → NameError
  | .redeclared name scope previous => .redeclared name scope previous.unplaced
  | .undeclared name => .undeclared name

namespace SymbolTable

def unplaced (t : SymbolTable) : SymbolTable :=
  { innermost := t.innermost.unplaced
    enclosing := t.enclosing.map Scope.unplaced
    retired := t.retired.map Scope.unplaced }

theorem openScopes_unplaced (t : SymbolTable) : t.unplaced.openScopes = t.openScopes.map Scope.unplaced := rfl

theorem enter_unplaced (t : SymbolTable) : t.unplaced.enter = t.enter.unplaced := by
  simp [enter, unplaced, depth, openScopes, Scope.unplaced]

theorem leave_unplaced (t : SymbolTable) : t.unplaced.leave = t.leave.unplaced := by
  cases h : t.enclosing <;> simp [leave, unplaced, h]

theorem lookup_unplaced (scopes : List Scope) (name : Text) :
    lookup (scopes.map Scope.unplaced) name = (lookup scopes name).map Variable.unplaced := by
  induction scopes with
  | nil => rfl
  | cons s rest ih =>
    simp only [lookup, List.map_cons, List.findSome?_cons, Scope.find?_unplaced] at ih ⊢
    cases s.find? name <;> simp [ih]

end SymbolTable

/-- The binding of a name, or what is wrong with it, without places. -/
def unplacedBinding : Except NameError Variable → Except NameError Variable
  | .ok v => .ok v.unplaced
  | .error e => .error e.unplaced

theorem SymbolTable.resolve_unplaced (t : SymbolTable) (name : Text) :
    t.unplaced.resolve name = unplacedBinding (t.resolve name) := by
  simp only [resolve, openScopes_unplaced, lookup_unplaced]
  cases lookup t.openScopes name <;> rfl

def Fault.unplaced : Fault → Fault
  | .expected kind found => .expected kind found.unplaced
  | .name e => .name e.unplaced
  | .assignment value target => .assignment value target.unplaced
  | f => f

theorem Fault.kind_unplaced (f : Fault) : f.unplaced.kind = f.kind := by
  cases f with
  | name e => cases e <;> rfl
  | _ => rfl

theorem Fault.message_unplaced (f : Fault) : f.unplaced.message = f.message := by
  cases f with
  | name e => cases e <;> rfl
  | _ => rfl

theorem Fault.isFatal_unplaced (s : Settings) (f : Fault) : f.unplaced.isFatal s = f.isFatal s := by
  cases f <;> rfl

def Diagnostic.unplaced (d : Diagnostic) : Diagnostic := ⟨d.token.unplaced, d.fault.unplaced⟩

def Remark.unplaced : Remark → Remark
  | .shadows previous => .shadows previous.unplaced
  | .trailing => .trailing

def Event.unplaced : Event → Event
  | .fault d => .fault d.unplaced
  | .remark tok r => .remark tok.unplaced r.unplaced
  | e => e

def GenState.unplaced (s : GenState) : GenState := { s with table := s.table.unplaced }

/-! ## Walks commute with it -/

namespace Gen

variable {α β : Type}

/-- What `m` does is done by `m'` without places. The values need not be of one form. -/
structure Mirrors (v : α → β) (m : Gen α) (m' : Gen β) : Prop where
  value : ∀ s : GenState, (m' s.unplaced).value = v (m s).value
  state : ∀ s : GenState, (m' s.unplaced).state = (m s).state.unplaced
  events : ∀ s : GenState, (m' s.unplaced).events = (m s).events.map Event.unplaced

theorem Mirrors.bind {γ δ : Type} {v : α → β} {w : γ → δ} {m : Gen α} {m' : Gen β} {f : α → Gen γ} {f' : β → Gen δ}
    (h : Mirrors v m m') (hf : ∀ a, Mirrors w (f a) (f' (v a))) : Mirrors w (m >>= f) (m' >>= f') where
  value s := by rw [value_bind, value_bind, h.value, h.state, (hf _).value]
  state s := by rw [state_bind, state_bind, h.value, h.state, (hf _).state]
  events s := by rw [events_bind, events_bind, h.value, h.state, h.events, (hf _).events, List.map_append]

theorem mirrors_pure (v : α → β) (a : α) : Mirrors v (pure a) (pure (v a)) := ⟨fun _ => rfl, fun _ => rfl, fun _ => rfl⟩

theorem Mirrors.ite {c c' : Prop} [Decidable c] [Decidable c'] {v : α → β} {m₁ m₂ : Gen α} {m₁' m₂' : Gen β}
    (hc : c ↔ c') (h₁ : Mirrors v m₁ m₁') (h₂ : Mirrors v m₂ m₂') :
    Mirrors v (if c then m₁ else m₂) (if c' then m₁' else m₂') := by
  by_cases h : c
  · rw [if_pos h, if_pos (hc.1 h)]
    exact h₁
  · rw [if_neg h, if_neg fun h' => h (hc.2 h')]
    exact h₂

theorem mirrors_get : Mirrors GenState.unplaced get get := ⟨fun _ => rfl, fun _ => rfl, fun _ => rfl⟩

theorem mirrors_current : Mirrors id current current := ⟨fun _ => rfl, fun _ => rfl, fun _ => rfl⟩

theorem mirrors_setCurrent (d : Operand) : Mirrors id (setCurrent d) (setCurrent d) :=
  ⟨fun _ => rfl, fun _ => rfl, fun _ => rfl⟩

theorem mirrors_newTemp : Mirrors id newTemp newTemp := ⟨fun _ => rfl, fun _ => rfl, fun _ => rfl⟩

theorem mirrors_newLabel : Mirrors id newLabel newLabel := ⟨fun _ => rfl, fun _ => rfl, fun _ => rfl⟩

theorem mirrors_tell (es : List Event) : Mirrors id (tell es) (tell (es.map Event.unplaced)) :=
  ⟨fun _ => rfl, fun _ => rfl, fun s => by simp⟩

theorem mirrors_emit (ls : List Line) : Mirrors id (emit ls) (emit ls) := by
  have h := mirrors_tell (ls.map Event.line)
  rw [List.map_map] at h
  exact h

theorem mirrors_produce (r : Rule) : Mirrors id (produce r) (produce r) := mirrors_tell _

theorem mirrors_note (n : Note) : Mirrors id (note n) (note n) := mirrors_tell _

theorem mirrors_report (tok : Token) (f : Fault) : Mirrors id (report tok f) (report tok.unplaced f.unplaced) :=
  mirrors_tell _

theorem mirrors_remark (tok : Token) (r : Remark) : Mirrors id (remark tok r) (remark tok.unplaced r.unplaced) :=
  mirrors_tell _

theorem mirrors_expect (k : Kind) (tok : Token) : Mirrors id (expect k tok) (expect k tok.unplaced) :=
  .ite .rfl (mirrors_pure id ()) (mirrors_report tok (.expected k tok))

theorem mirrors_resolve (name : Text) : Mirrors unplacedBinding (resolve name) (resolve name) :=
  ⟨fun s => s.table.resolve_unplaced name, fun _ => rfl, fun _ => rfl⟩

theorem mirrors_enterScope : Mirrors id enterScope enterScope where
  value _ := rfl
  state s := by simp only [enterScope, Gen.modify, GenState.unplaced, SymbolTable.enter_unplaced]
  events _ := rfl

theorem mirrors_leaveScope : Mirrors id leaveScope leaveScope where
  value _ := rfl
  state s := by simp only [leaveScope, Gen.modify, GenState.unplaced, SymbolTable.leave_unplaced]
  events _ := rfl

theorem mirrors_declare (tok : Token) (ty : Ty) : Mirrors unplacedBinding (declare tok ty) (declare tok.unplaced ty) := by
  have hfind (s : GenState) :
      s.unplaced.table.innermost.find? tok.unplaced.value =
        (s.table.innermost.find? tok.value).map Variable.unplaced :=
    s.table.innermost.find?_unplaced tok.value
  have hboth (s : GenState) : (declare tok.unplaced ty s.unplaced).value = unplacedBinding (declare tok ty s).value ∧
      (declare tok.unplaced ty s.unplaced).state = (declare tok ty s).state.unplaced ∧
      (declare tok.unplaced ty s.unplaced).events = (declare tok ty s).events.map Event.unplaced := by
    simp only [declare, SymbolTable.declare, hfind]
    cases s.table.innermost.find? tok.value with
    | some previous => exact ⟨rfl, rfl, rfl⟩
    | none => simp [unplacedBinding, Variable.unplaced, Token.unplaced, GenState.unplaced, SymbolTable.unplaced,
        Scope.unplaced, Walked.events]
  exact ⟨fun s => (hboth s).1, fun s => (hboth s).2.1, fun s => (hboth s).2.2⟩

/-! ### Expressions -/

theorem mirrors_binary (remark : Text) (left right : Operand) (code : List Instr) (result : Ty) :
    Mirrors id (binary remark left right code result) (binary remark left right code result) :=
  (mirrors_emit _).bind fun _ => mirrors_newTemp.bind fun _ => (mirrors_emit _).bind fun _ => mirrors_setCurrent _

theorem mirrors_add (op : Token) (left right : Operand) : Mirrors id (add op left right) (add op.unplaced left right) :=
  .ite .rfl (mirrors_binary ..) (mirrors_report ..)

theorem mirrors_mul (op : Token) (left right : Operand) : Mirrors id (mul op left right) (mul op.unplaced left right) :=
  .ite .rfl (mirrors_binary ..) (mirrors_report ..)

theorem mirrors_compare (op : Token) (left right : Operand) :
    Mirrors id (compare op left right) (compare op.unplaced left right) :=
  .ite .rfl (mirrors_setCurrent left) (.ite .rfl (mirrors_report ..) (mirrors_binary ..))

theorem mirrors_negate (op : Token) (d : Operand) : Mirrors id (negate op d) (negate op.unplaced d) :=
  .ite .rfl (mirrors_report ..) (mirrors_emit _)

theorem mirrors_literal (lexeme : Text) : Mirrors id (literal lexeme) (literal lexeme) :=
  .ite .rfl (mirrors_newLabel.bind fun _ => (mirrors_emit _).bind fun _ => mirrors_setCurrent _)
    (mirrors_newTemp.bind fun _ => (mirrors_emit _).bind fun _ => mirrors_setCurrent _)

theorem mirrors_reference (tok : Token) : Mirrors id (reference tok) (reference tok.unplaced) := by
  refine (mirrors_produce _).bind fun _ => (mirrors_resolve _).bind fun found => ?_
  cases found with
  | ok v => exact (mirrors_setCurrent _).bind fun _ => mirrors_pure id true
  | error e => exact (mirrors_report tok (.name e)).bind fun _ => mirrors_pure id false

/-- Two operands one after the other, and what is done with them. -/
theorem Mirrors.operands {left left' right right' : Gen Unit} {f f' : Operand → Operand → Gen Unit}
    (hl : Mirrors id left left') (hr : Mirrors id right right') (hf : ∀ a b, Mirrors id (f a b) (f' a b)) :
    Mirrors id (do left; let a ← current; right; f a (← current)) (do left'; let a ← current; right'; f' a (← current)) :=
  hl.bind fun _ => mirrors_current.bind fun a => hr.bind fun _ => mirrors_current.bind fun b => hf a b

end Gen

open Gen

theorem Expr.mirrors_lower {l : Level} (e : Expr l) : Mirrors id e.lower (e.map Token.unplaced).lower := by
  induction e with
  | add left op right ihLeft ihRight => exact ihLeft.operands ihRight (mirrors_add op)
  | term e ih => exact (mirrors_produce _).bind fun _ => ih
  | mul left op right ihLeft ihRight => exact ihLeft.operands ihRight (mirrors_mul op)
  | relation e ih => exact (mirrors_produce _).bind fun _ => ih
  | compare left op right ihLeft ihRight =>
    exact (mirrors_produce _).bind fun _ => ihLeft.operands ihRight (mirrors_compare op)
  | factor e ih => exact (mirrors_produce _).bind fun _ => ih
  | missing => exact mirrors_produce _
  | name tok => exact (mirrors_produce _).bind fun _ => (mirrors_reference tok).bind fun _ => mirrors_pure id ()
  | literal tok => exact (mirrors_produce _).bind fun _ => mirrors_literal _
  | negation op e ih =>
    exact (mirrors_produce _).bind fun _ => ih.bind fun _ => mirrors_current.bind fun d => mirrors_negate op d
  | group opening e closing ih =>
    exact (mirrors_produce _).bind fun _ => ih.bind fun _ => mirrors_expect .rparen closing

/-! ### Statements -/

namespace Gen

theorem mirrors_declaration (type name : Token) :
    Mirrors id (declaration type name) (declaration type.unplaced name.unplaced) := by
  have hdeclare : Mirrors id
      (do match ← declare name (Ty.ofKeyword type.value) with
          | .ok _ => pure ()
          | .error e => report name (.name e))
      (do match ← declare name.unplaced (Ty.ofKeyword type.value) with
          | .ok _ => pure ()
          | .error e => report name.unplaced (.name e)) := by
    refine (mirrors_declare name _).bind fun found => ?_
    cases found with
    | ok v => exact mirrors_pure id ()
    | error e => exact mirrors_report name (.name e)
  refine (mirrors_produce _).bind fun _ => (mirrors_expect .ident name).bind fun _ => ?_
  refine .ite .rfl (mirrors_get.bind fun s => ?_) (mirrors_pure id ())
  have hshadowed : s.unplaced.table.shadowed? name.value = (s.table.shadowed? name.value).map Variable.unplaced :=
    SymbolTable.lookup_unplaced _ _
  simp only [Token.unplaced_value, hshadowed]
  cases s.table.shadowed? name.value with
  | some previous => exact (mirrors_remark name (.shadows previous)).bind fun _ => hdeclare
  | none => exact hdeclare

theorem mirrors_storeIn (target : Token) (v : Variable) :
    Mirrors id (storeIn target v) (storeIn target.unplaced v.unplaced) :=
  mirrors_current.bind fun value => .ite .rfl (mirrors_emit _) (mirrors_report target (.assignment value.ty v))

theorem mirrors_assignment (target sign : Token) {value value' : Gen Unit} (h : Mirrors id value value') :
    Mirrors id (assignment target sign value) (assignment target.unplaced sign.unplaced value') := by
  refine (mirrors_produce _).bind fun _ => (mirrors_resolve _).bind fun found => ?_
  cases found with
  | error e =>
    exact (mirrors_report target (.name e)).bind fun _ => (mirrors_expect .assign sign).bind fun _ => h
  | ok v =>
    exact (mirrors_reference target).bind fun _ => (mirrors_expect .assign sign).bind fun _ => h.bind fun _ =>
      mirrors_storeIn target v

theorem mirrors_expectCondition (tok : Token) (g : Guarded) :
    Mirrors id (expectCondition tok g) (expectCondition tok.unplaced g) :=
  mirrors_current.bind fun d => .ite .rfl (mirrors_pure id ()) (mirrors_report tok (.condition g d.ty))

theorem mirrors_conditional (opening middle : Token) {condition condition' action action' : Gen Unit}
    (hc : Mirrors id condition condition') (ha : Mirrors id action action') :
    Mirrors id (conditional opening middle condition action)
      (conditional opening.unplaced middle.unplaced condition' action') :=
  (mirrors_produce _).bind fun _ => hc.bind fun _ => (mirrors_expectCondition opening _).bind fun _ =>
    mirrors_newLabel.bind fun _ => mirrors_current.bind fun _ => (mirrors_emit _).bind fun _ =>
      (mirrors_expect .then middle).bind fun _ => ha.bind fun _ => mirrors_emit _

theorem mirrors_loop (opening middle : Token) {condition condition' action action' : Gen Unit}
    (hc : Mirrors id condition condition') (ha : Mirrors id action action') :
    Mirrors id (loop opening middle condition action)
      (loop opening.unplaced middle.unplaced condition' action') :=
  (mirrors_produce _).bind fun _ => mirrors_newLabel.bind fun _ => mirrors_newLabel.bind fun _ =>
    (mirrors_emit _).bind fun _ => hc.bind fun _ => (mirrors_expect .do middle).bind fun _ =>
      (mirrors_expectCondition opening _).bind fun _ => mirrors_current.bind fun _ => (mirrors_emit _).bind fun _ =>
        ha.bind fun _ => mirrors_emit _

theorem mirrors_block (closing : Token) {inside inside' : Gen Unit} (h : Mirrors id inside inside') :
    Mirrors id (block closing inside) (block closing.unplaced inside') :=
  (mirrors_produce _).bind fun _ => mirrors_enterScope.bind fun _ => h.bind fun _ =>
    (mirrors_expect .end closing).bind fun _ => mirrors_leaveScope

theorem mirrors_readCurrent (keyword : Token) : Mirrors id (readCurrent keyword) (readCurrent keyword.unplaced) :=
  mirrors_current.bind fun d =>
    .ite .rfl ((mirrors_note _).bind fun _ => mirrors_emit _) (mirrors_report keyword (.reading d.ty))

theorem mirrors_read (keyword opening : Token) (target : Option Token) (closing : Token) :
    Mirrors id (read keyword opening target closing)
      (read keyword.unplaced opening.unplaced (target.map Token.unplaced) closing.unplaced) := by
  refine (mirrors_produce _).bind fun _ => (mirrors_expect .lparen opening).bind fun _ => ?_
  cases target with
  | none => exact (mirrors_produce _).bind fun _ => mirrors_expect .rparen closing
  | some tok =>
    refine (mirrors_reference tok).bind fun declared => .ite .rfl ?_ (mirrors_expect .rparen closing)
    exact (mirrors_readCurrent keyword).bind fun _ => mirrors_expect .rparen closing

theorem mirrors_write (keyword opening : Token) {value value' : Gen Unit} (closing : Token) (h : Mirrors id value value') :
    Mirrors id (write keyword opening value closing)
      (write keyword.unplaced opening.unplaced value' closing.unplaced) := by
  refine (mirrors_produce _).bind fun _ => (mirrors_expect .lparen opening).bind fun _ => h.bind fun _ =>
    (mirrors_note _).bind fun _ => mirrors_current.bind fun d => ?_
  have hsame : printLines (if keyword.unplaced.value = "writeln" then "writeln" else "write") d =
      printLines (if keyword.value = "writeln" then "writeln" else "write") d := rfl
  simp only [id, hsame]
  cases printLines (if keyword.value = "writeln" then "writeln" else "write") d with
  | none => exact mirrors_expect .rparen closing
  | some ls => exact (mirrors_emit _).bind fun _ => mirrors_expect .rparen closing

theorem mirrors_enter (n : Note) : Mirrors id (enter n) (enter n) :=
  (mirrors_produce _).bind fun _ => mirrors_note n

end Gen

theorem Code.mirrors_lower {x : Extent} (c : Code x) : Mirrors id c.lower (c.map Token.unplaced).lower := by
  induction c with
  | empty => exact mirrors_produce _
  | declare type name => exact (mirrors_enter _).bind fun _ => mirrors_declaration type name
  | assign target sign value =>
    exact (mirrors_enter _).bind fun _ => mirrors_assignment target sign value.mirrors_lower
  | ifThen opening condition middle action ih =>
    exact (mirrors_enter _).bind fun _ => mirrors_conditional opening middle condition.mirrors_lower ih
  | whileDo opening condition middle action ih =>
    exact (mirrors_enter _).bind fun _ => mirrors_loop opening middle condition.mirrors_lower ih
  | block opening inside closing ih => exact (mirrors_enter _).bind fun _ => mirrors_block closing ih
  | read keyword opening target closing =>
    exact (mirrors_enter _).bind fun _ => mirrors_read keyword opening target closing
  | write keyword opening value closing =>
    exact (mirrors_enter _).bind fun _ => mirrors_write keyword opening closing value.mirrors_lower
  | done => exact mirrors_pure id ()
  | last s ih => exact ih
  | next s separator rest ih ihRest =>
    exact ih.bind fun _ => (mirrors_expect .semi separator).bind fun _ => ihRest

theorem Program.mirrors_body (p : Program) : Mirrors id p.body (p.map Token.unplaced).body := by
  cases p with
  | bare stop => exact (mirrors_produce _).bind fun _ => mirrors_expect .dot stop
  | block opening inside closing stop =>
    exact (mirrors_block closing inside.mirrors_lower).bind fun _ => mirrors_expect .dot stop

theorem Program.mirrors_lower (p : Program) (next : Token) :
    Mirrors id (p.lower next) ((p.map Token.unplaced).lower next.unplaced) := by
  refine (mirrors_produce _).bind fun _ => (mirrors_note _).bind fun _ => (mirrors_emit _).bind fun _ =>
    p.mirrors_body.bind fun _ => (mirrors_emit _).bind fun _ => ?_
  exact .ite .rfl (mirrors_pure id ()) (mirrors_remark next .trailing)

/-! ## Sources that agree but for places -/

namespace Lowering

/-- Two lowerings agree in everything but the places of tokens. -/
structure Agrees (t t' : Lowering) : Prop where
  lines : t.lines = t'.lines
  derivation : t.derivation = t'.derivation
  trace : ∀ s, t.trace s = t'.trace s
  succeeded : ∀ s, t.succeeded s = t'.succeeded s
  exhausted : t.exhausted = t'.exhausted
  writes : ∀ s, t.writes s = t'.writes s
  table : t.table.unplaced = t'.table.unplaced
  diagnostics : t.diagnostics.map Diagnostic.unplaced = t'.diagnostics.map Diagnostic.unplaced
  messages : t.diagnostics.map (fun d => (d.fault.kind, d.fault.message)) =
    t'.diagnostics.map fun d => (d.fault.kind, d.fault.message)
  remarks : t.remarks.map (fun r => (r.1.unplaced, r.2.unplaced)) = t'.remarks.map fun r => (r.1.unplaced, r.2.unplaced)

variable {t t' : Lowering}

/-- Events of one sort, as seen by a function that takes places away where the sort has any. -/
theorem filterMap_of_unplaced {α β : Type} {sort : Event → Option α} {view : α → β}
    (hsort : ∀ e : Event, (sort e.unplaced).map view = (sort e).map view)
    (h : t.events.map Event.unplaced = t'.events.map Event.unplaced) :
    (t.events.filterMap sort).map view = (t'.events.filterMap sort).map view := by
  have hmap (es : List Event) : (es.filterMap sort).map view = (es.map Event.unplaced).filterMap fun e => (sort e).map view := by
    rw [List.map_filterMap, List.filterMap_map]
    exact congrArg (List.filterMap · es) (funext fun e => (hsort e).symm)
  rw [hmap, hmap, h]

theorem agrees_of_unplaced (hevents : t.events.map Event.unplaced = t'.events.map Event.unplaced)
    (hstate : t.state.unplaced = t'.state.unplaced) (hrest : Parse.nextKind t.rest = Parse.nextKind t'.rest) :
    t.Agrees t' := by
  have hlines : t.lines.map id = t'.lines.map id :=
    filterMap_of_unplaced (fun e => by cases e <;> rfl) hevents
  have hrules : (t.events.filterMap Event.rule?).map Rule.number = (t'.events.filterMap Event.rule?).map Rule.number :=
    filterMap_of_unplaced (fun e => by cases e <;> rfl) hevents
  have hnotes : (t.events.filterMap Event.note?).map Note.name = (t'.events.filterMap Event.note?).map Note.name :=
    filterMap_of_unplaced (fun e => by cases e <;> rfl) hevents
  have hfaults {β : Type} (view : Diagnostic → β) (hview : ∀ d : Diagnostic, view d.unplaced = view d) :
      t.diagnostics.map view = t'.diagnostics.map view := by
    refine filterMap_of_unplaced (fun e => ?_) hevents
    cases e with
    | fault d => exact congrArg some (hview d)
    | _ => rfl
  have hsucceeded (s : Settings) : t.succeeded s = t'.succeeded s := by
    have hfatal := hfaults (fun d => !d.fault.isFatal s) fun d => by rw [Diagnostic.unplaced, Fault.isFatal_unplaced]
    have hall (l : List Diagnostic) : l.all (fun d => !d.fault.isFatal s) =
        (l.map fun d => !d.fault.isFatal s).all id := by
      rw [List.all_map]
      rfl
    rw [succeeded, succeeded, hall, hall, hfatal]
  have hexhausted : t.exhausted = t'.exhausted := by rw [exhausted, exhausted, hrest]
  exact
    { lines := by simpa using hlines
      derivation := hrules
      trace := fun s => by rw [trace, trace, hnotes]
      succeeded := hsucceeded
      exhausted := hexhausted
      writes := fun s => by rw [writes, writes, hsucceeded, hexhausted]
      table := congrArg GenState.table hstate
      diagnostics := hfaults Diagnostic.unplaced fun d => by
        obtain ⟨tok, f⟩ := d
        cases f with
        | name e => cases e <;> rfl
        | _ => rfl
      messages := hfaults _ fun d => by rw [Diagnostic.unplaced, Fault.kind_unplaced, Fault.message_unplaced]
      remarks := filterMap_of_unplaced (fun e => by
        cases e with
        | remark tok r => cases r <;> rfl
        | _ => rfl) hevents }

end Lowering

theorem lower_agrees {wordSize : Int64} {s s' : TokenSource}
    (h : ∀ n, (s.token n).kind = (s'.token n).kind ∧ (s.token n).value = (s'.token n).value) :
    (lower wordSize s).Agrees (lower wordSize s') := by
  obtain ⟨hprogram, hrest⟩ := TokenSource.parse_alike Parse.telling_unplaced fun n => Token.unplaced_eq (h n).1 (h n).2
  -- both walks have the same image without places, for the fresh state has none
  have hwalk := s.parse.1.mirrors_lower (s.parse.2.headD s.eof)
  have hwalk' := s'.parse.1.mirrors_lower (s'.parse.2.headD s'.eof)
  rw [hprogram, hrest.head] at hwalk
  exact Lowering.agrees_of_unplaced ((hwalk.events _).symm.trans (hwalk'.events _))
    ((hwalk.state _).symm.trans (hwalk'.state _)) (hrest.nextKind_eq Parse.telling_unplaced rfl rfl)

/-! ## Streams -/

namespace Scanned

theorem segmentsBefore_token {s : Segment} {k : Kind} (h : s.cls = .token k) (rest : List Segment) :
    segmentsBefore 0 (s :: rest) = [] ∧ ∀ n, segmentsBefore (n + 1) (s :: rest) = s :: segmentsBefore n rest := by
  simp [segmentsBefore, h]

theorem segmentsBefore_skip {file : Int} {s : Segment} (h : s.token? file = none) (n : Nat) (rest : List Segment) :
    segmentsBefore n (s :: rest) = s :: segmentsBefore n rest := by
  cases hcls : s.cls with
  | token k => simp [Segment.token?, hcls] at h
  | _ => simp [segmentsBefore, hcls]

end Scanned

namespace Reader

/-- The source of the tokens that a reader hands out. -/
def source (r : Reader) : TokenSource :=
  { tokens := r.all.1, file := r.all.2.eof.file, line := r.all.2.eof.line, column := r.all.2.eof.column }

theorem source_token (r : Reader) (n : Nat) : r.source.token n = r.tokens.getD n r.finished.eof := by
  rw [TokenSource.token, source, r.all_eq]
  rfl

/-- The source of a reader begins with the next token of the reader, and goes on as the reader does. -/
theorem source_next (r : Reader) :
    r.source.token 0 = r.next.1 ∧ ∀ n, r.source.token (n + 1) = r.next.2.source.token n := by
  simp only [source_token]
  rcases r.next_spec with ⟨hnone, hnext⟩ | ⟨-, hmore, hend⟩
  · rw [hnone, hnext, tokens_finished, finished_finished]
    exact ⟨rfl, fun n => rfl⟩
  · rw [hmore, hend]
    exact ⟨rfl, fun n => rfl⟩

theorem take_eq_map_token (n : Nat) (r : Reader) : (r.take n).1 = (List.range n).map r.source.token := by
  induction n generalizing r with
  | zero => rfl
  | succ n ih =>
    obtain ⟨hfirst, hlater⟩ := r.source_next
    rw [List.range_succ_eq_map, List.map_cons, List.map_map, hfirst]
    simp only [take, ih, Function.comp_def, hlater]

theorem faults_prefix_finished (r : Reader) : r.faults <+: r.finished.faults := List.prefix_append _ _

theorem faults_take_prefix (n : Nat) (r : Reader) : (r.take n).2.faults <+: r.all.2.faults := by
  have h := (r.take n).2.faults_prefix_finished
  rw [(r.take_spec n).2.2] at h
  rw [r.all_eq]
  exact h

/-- The faults of the segments in front of a token that is still to come. -/
def faultsBefore (r : Reader) (n : Nat) : List (Token × ScanFault) :=
  (Scanned.segmentsBefore n r.segments).filterMap (Segment.fault? r.file)

/-- The faults met on the way to the next token are those of the segments in front of it, and the others are still to be
met. -/
theorem faults_next (r : Reader) :
    r.next.2.faults = r.faults ++ r.faultsBefore 0 ∧
      ∀ n, r.next.2.faults ++ r.next.2.faultsBefore n = r.faults ++ r.faultsBefore (n + 1) := by
  fun_induction next r with
  | case1 r h =>
    have hnone : r.segments = [] := by rw [segments, h, Scan.segmentsFrom]
    simp [faultsBefore, hnone, Scanned.segmentsBefore]
  | case2 r c cs h first segment tok htok =>
    obtain ⟨k, hcls, -⟩ := Segment.token?_eq_some_iff.1 htok
    obtain ⟨hzero, hsucc⟩ := Scanned.segmentsBefore_token hcls (r.pass segment first.rest).segments
    have hfault : segment.fault? r.file = none := by simp [Segment.fault?, hcls]
    have hfaults : (r.pass segment first.rest).faults = r.faults := by simp [pass, hfault]
    have hsegments : r.segments = segment :: (r.pass segment first.rest).segments := segments_of_cons h
    simp only [faultsBefore, hsegments, hzero, hsucc, hfaults, List.filterMap_cons, hfault]
    exact ⟨(List.append_nil _).symm, fun n => rfl⟩
  | case3 r c cs h first segment htok ih =>
    have hsegments : r.segments = segment :: (r.pass segment first.rest).segments := segments_of_cons h
    have hbefore (n : Nat) :
        r.faults ++ r.faultsBefore n = (r.pass segment first.rest).faults ++ (r.pass segment first.rest).faultsBefore n := by
      rw [faultsBefore, hsegments, Scanned.segmentsBefore_skip htok, List.filterMap_cons]
      cases hfault : segment.fault? r.file <;> simp [pass, faultsBefore, hfault]
    simp only [hbefore]
    exact ih

theorem faults_take (n : Nat) (r : Reader) : (r.take (n + 1)).2.faults = r.faults ++ r.faultsBefore n := by
  induction n generalizing r with
  | zero => exact r.faults_next.1
  | succ n ih => exact (ih r.next.2).trans (r.faults_next.2 n)

end Reader

/-- Only the kinds and the texts of tokens decide what a source is lowered to: sources that agree in these from token to
token, end marks included, give lowerings that differ in nothing but places. In particular a text may be lowered while it
is read or from the list of all its tokens. The tokens that the reader hands out, however many it is asked for, are those
of its source, and the faults met until a token is read are a first part of all faults. -/
theorem lowering_ignores_places :
    (∀ (wordSize : Int64) (s s' : TokenSource),
      (∀ n, (s.token n).kind = (s'.token n).kind ∧ (s.token n).value = (s'.token n).value) →
        (lower wordSize s).Agrees (lower wordSize s')) ∧
    ∀ (wordSize : Int64) (comments : Bool) (file : Int) (source : List Char),
      let r := Reader.ofSource comments file source
      (∀ n, (r.take n).1 = (List.range n).map r.source.token) ∧
      (lower wordSize r.source).Agrees (lower wordSize { tokens := r.all.1 }) ∧
      ∀ n, (scan comments file source).faultsBefore n = (r.take (n + 1)).2.faults ∧
        (r.take (n + 1)).2.faults <+: r.all.2.faults := by
  refine ⟨fun wordSize s s' h => lower_agrees h, fun wordSize comments file source => ?_⟩
  intro r
  refine ⟨fun n => r.take_eq_map_token n, lower_agrees fun n => ?_, fun n => ⟨?_, r.faults_take_prefix _⟩⟩
  · -- the two sources have the same tokens, and their end marks differ in places only
    simp only [TokenSource.token, Reader.source]
    cases hn : r.all.1[n]? <;> simp [List.getD, hn, TokenSource.eof]
  · rw [r.faults_take n]
    rfl

/-- A program that declares a name twice, on the second line of a file. -/
def redeclaringProgram : Program :=
  .block ⟨.begin, "begin", 3, 2, 1, 5⟩
    (.next (.declare ⟨.typeName, "integer", 3, 2, 7, 7⟩ ⟨.ident, "x", 3, 2, 15, 1⟩) ⟨.semi, ";", 3, 2, 16, 1⟩
      (.last (.declare ⟨.typeName, "logical", 3, 2, 18, 7⟩ ⟨.ident, "x", 3, 2, 26, 1⟩)))
    ⟨.end, "end", 3, 2, 28, 3⟩ ⟨.dot, ".", 3, 2, 31, 1⟩

def redeclaringSource : TokenSource := { tokens := redeclaringProgram.tokens, file := 3, line := 2, column := 32 }

/-- The same tokens without places, and with an end mark behind them. -/
def redeclaringList : TokenSource := { tokens := redeclaringProgram.tokens.map Token.unplaced ++ [{}] }

theorem redeclaring_agrees :
    (lower 4 redeclaringSource).diagnostics.map (fun d => (d.fault.kind, d.token.column)) = [(.redeclaration, 26)] ∧
      (lower 4 redeclaringSource).Agrees (lower 4 redeclaringList) := by
  refine ⟨?_, lowering_ignores_places.1 4 redeclaringSource redeclaringList fun n => ?_⟩
  · have hvalid : redeclaringProgram.Valid := ⟨rfl, ⟨⟨rfl, rfl⟩, rfl, ⟨rfl, rfl⟩, nofun⟩, rfl, rfl⟩
    have hparse : redeclaringSource.parse = (redeclaringProgram, []) := Parse.program_tokens _ hvalid
    rw [lower, hparse]
    decide +kernel
  · match n with
    | 0 | 1 | 2 | 3 | 4 | 5 | 6 | 7 | 8 => exact ⟨rfl, rfl⟩
    | n + 9 => exact ⟨rfl, rfl⟩

end AlgolMips
