import AlgolMips.Mips.Output
import AlgolMips.Translation.Effects
import AlgolMips.Tree.Parse

/-!
# Translation

A program is translated in one pass over its tokens. There is one function for each production of the grammar, and it takes
its tokens, works on the symbol table and emits code as it goes. A fault is recorded and translation goes on: a token of
the wrong kind is taken in place of the one that is asked for, and behind the last token there is an end mark as often as
it is asked for.

No production puts tokens back, which is why translation ends: every production gives a translator that has no more tokens
ahead of it than there were.
-/

namespace AlgolMips

open Mips

/-- The tokens ahead, the current one first, and the work done so far. -/
structure Translator where
  source : TokenSource
  work : Work

namespace Translator

/-- The current token, which is an end mark behind the last one. -/
def current (t : Translator) : Token := t.source.tokens.headD t.source.eof

def kind (t : Translator) : Kind := t.current.kind

/-- The number of tokens ahead. -/
def ahead (t : Translator) : Nat := t.source.tokens.length

/-- A translator that has no more tokens ahead of it. -/
abbrev Onward (t : Translator) := { t' : Translator // t'.ahead ≤ t.ahead }

theorem ahead_pos {t : Translator} (h : t.kind ≠ .eof) : 0 < t.ahead := by
  obtain ⟨⟨tokens, file, line, column⟩, w⟩ := t
  cases tokens with
  | nil => exact absurd rfl h
  | cons tok rest => exact Nat.succ_pos _

variable (s : Settings)

/-- Does something between two tokens. -/
def does (t : Translator) (e : Effect Unit) : Translator := { t with work := (e s t.work).2 }

/-- Does something between two tokens that has a result. -/
def asks {α : Type} (t : Translator) (e : Effect α) : α × Translator :=
  let answer := e s t.work
  (answer.1, { t with work := answer.2 })

/-- Passes the current token while something is done. -/
def passing (t : Translator) (e : Effect Unit) : Translator where
  source := { t.source with tokens := t.source.tokens.tail }
  work := (e s t.work).2

/-- Passes the current token, whatever it is. -/
def advance (t : Translator) : Translator := t.passing s (.act (.take none t.current))

/-- Takes the current token in place of one of a kind, and reports it if it is of another kind. -/
def expect (t : Translator) (k : Kind) : Translator := t.passing s (.take k t.current)

@[simp] theorem ahead_does (t : Translator) (e : Effect Unit) : (t.does s e).ahead = t.ahead := rfl

@[simp] theorem ahead_asks {α : Type} (t : Translator) (e : Effect α) : (t.asks s e).2.ahead = t.ahead := rfl

@[simp] theorem ahead_advance (t : Translator) : (t.advance s).ahead = t.ahead - 1 := List.length_tail

@[simp] theorem ahead_expect (t : Translator) (k : Kind) : (t.expect s k).ahead = t.ahead - 1 := List.length_tail

/-- A token that is no end mark is passed for good. -/
theorem ahead_expect_lt {t : Translator} (h : t.kind ≠ .eof) (k : Kind) : (t.expect s k).ahead < t.ahead := by
  have hpos := ahead_pos h
  rw [ahead_expect]
  omega

theorem ahead_expect_le (t : Translator) (k : Kind) : (t.expect s k).ahead ≤ t.ahead := by
  rw [ahead_expect]
  omega

/-- What is passed behind a token that is no end mark counts as well. -/
theorem ahead_expect_lt_of_le {t u : Translator} (h : t.kind ≠ .eof) (hu : u.ahead ≤ t.ahead) (k : Kind) :
    (u.expect s k).ahead < t.ahead := by
  have hpos := ahead_pos h
  rw [ahead_expect]
  omega

/-! ## Expressions -/

/-- (13) A name. The answer is whether the current operand is now the variable of that name. -/
def reference (t : Translator) : Bool × Translator :=
  let entered := t.does s (.produce .reference)
  if t.kind = .ident then
    let named := entered.asks s (.name t.current)
    (named.1, named.2.expect s .ident)
  else (false, entered)

theorem ahead_reference_le (t : Translator) : (t.reference s).2.ahead ≤ t.ahead := by
  unfold reference
  dsimp only
  split
  · exact ahead_expect_le s _ _
  · exact Nat.le_refl _

mutual

/-- (9) Terms with additive operators between them. -/
def expression (t : Translator) : Onward t :=
  let first := term (t.does s (.produce .expression))
  let all := expressionTail first.val
  ⟨all.val, Nat.le_trans all.property first.property⟩
termination_by (t.ahead, 6)
decreasing_by
  · exact Prod.Lex.right _ (by decide)
  · exact Prod.Lex.right' _ first.property (by decide)

def expressionTail (t : Translator) : Onward t :=
  if _h : t.kind = .addOp then
    let left := t.work.current
    let right := term (t.expect s .addOp)
    let all := expressionTail (right.val.does s (.add t.current left))
    ⟨all.val, Nat.le_trans all.property (Nat.le_trans right.property (ahead_expect_le s t _))⟩
  else ⟨t, Nat.le_refl _⟩
termination_by (t.ahead, 5)
decreasing_by
  · exact Prod.Lex.left _ _ (ahead_expect_lt s (by rw [_h]; decide) _)
  · exact Prod.Lex.left _ _ (Nat.lt_of_le_of_lt right.property (ahead_expect_lt s (by rw [_h]; decide) _))

/-- (10) Relations with multiplicative operators between them. -/
def term (t : Translator) : Onward t :=
  let first := relation (t.does s (.produce .term))
  let all := termTail first.val
  ⟨all.val, Nat.le_trans all.property first.property⟩
termination_by (t.ahead, 4)
decreasing_by
  · exact Prod.Lex.right _ (by decide)
  · exact Prod.Lex.right' _ first.property (by decide)

def termTail (t : Translator) : Onward t :=
  if _h : t.kind = .mulOp then
    let left := t.work.current
    let right := relation (t.expect s .mulOp)
    let all := termTail (right.val.does s (.mul t.current left))
    ⟨all.val, Nat.le_trans all.property (Nat.le_trans right.property (ahead_expect_le s t _))⟩
  else ⟨t, Nat.le_refl _⟩
termination_by (t.ahead, 3)
decreasing_by
  · exact Prod.Lex.left _ _ (ahead_expect_lt s (by rw [_h]; decide) _)
  · exact Prod.Lex.left _ _ (Nat.lt_of_le_of_lt right.property (ahead_expect_lt s (by rw [_h]; decide) _))

/-- (11) A factor, or two with a relational operator between them. -/
def relation (t : Translator) : Onward t :=
  let first := factor (t.does s (.produce .relation))
  if _h : first.val.kind = .relOp then
    let left := first.val.work.current
    let right := factor (first.val.expect s .relOp)
    ⟨right.val.does s (.compare first.val.current left),
      Nat.le_trans right.property (Nat.le_trans (ahead_expect_le s _ _) first.property)⟩
  else ⟨first.val, first.property⟩
termination_by (t.ahead, 2)
decreasing_by
  · exact Prod.Lex.right _ (by decide)
  · exact Prod.Lex.left _ _ (Nat.lt_of_lt_of_le (ahead_expect_lt s (by rw [_h]; decide) _) first.property)

/-- (12) A name, a literal, a negated factor or an expression in parentheses. -/
def factor (t : Translator) : Onward t :=
  let entered := t.does s (.produce .factor)
  match _h : t.kind with
  | .ident => ⟨(entered.reference s).2, ahead_reference_le s entered⟩
  | .literal => ⟨(entered.does s (.literal t.current.value)).expect s .literal, ahead_expect_le s _ _⟩
  | .not =>
    let e := factor (entered.expect s .not)
    ⟨e.val.does s (.negate t.current), Nat.le_trans e.property (ahead_expect_le s entered _)⟩
  | .lparen =>
    let e := expression (entered.expect s .lparen)
    ⟨e.val.expect s .rparen,
      Nat.le_trans (ahead_expect_le s _ _) (Nat.le_trans e.property (ahead_expect_le s entered _))⟩
  | _ => ⟨entered, Nat.le_refl _⟩
termination_by (t.ahead, 1)
decreasing_by
  · exact Prod.Lex.left _ _ (ahead_expect_lt s (t := entered) (by show t.kind ≠ _; rw [_h]; decide) _)
  · exact Prod.Lex.left _ _ (ahead_expect_lt s (t := entered) (by show t.kind ≠ _; rw [_h]; decide) _)

end

/-! ## Statements -/

/-- (3) A declaration. A token that is no identifier binds nothing. -/
def declaration (t : Translator) : Translator :=
  let ty := Ty.ofKeyword t.current.value
  let t := (t.does s (.produce .declaration)).expect s .typeName
  let name := t.current
  let t := t.expect s .ident
  if name.kind = .ident then t.does s (.bindName name ty) else t

theorem ahead_declaration_le (t : Translator) : (t.declaration s).ahead ≤ t.ahead := by
  unfold declaration
  dsimp only
  split <;> exact Nat.le_trans (ahead_expect_le s _ .ident) (ahead_expect_le s _ .typeName)

/-- (4) An assignment. A value is computed for an undeclared target too. -/
def assignment (t : Translator) : Translator :=
  let target := t.current
  let t := t.does s (.produce .assignment)
  match t.work.table.resolve target.value with
  | .error e => (expression s (((t.does s (.fail target (.name e))).advance s).expect s .assign)).val
  | .ok v => (expression s ((t.reference s).2.expect s .assign)).val.does s (.storeIn target v)

theorem ahead_assignment_le (t : Translator) : (t.assignment s).ahead ≤ t.ahead := by
  unfold assignment
  dsimp only
  split
  · refine Nat.le_trans (expression s _).property (Nat.le_trans (ahead_expect_le s _ _) ?_)
    rw [ahead_advance]
    exact Nat.sub_le _ _
  · exact Nat.le_trans (expression s _).property (Nat.le_trans (ahead_expect_le s _ _) (ahead_reference_le s _))

/-- What is read or written, between the parentheses. -/
def inoutValue (t : Translator) (keyword : Token) : Translator :=
  if keyword.value = "read" then
    let found := t.reference s
    if found.1 then found.2.does s (.readCurrent keyword) else found.2
  else (expression s t).val.does s (.write keyword)

theorem ahead_inoutValue_le (t : Translator) (keyword : Token) : (t.inoutValue s keyword).ahead ≤ t.ahead := by
  unfold inoutValue
  split
  · dsimp only
    split <;> exact ahead_reference_le s t
  · exact (expression s t).property

/-- (8) Input and output. Only the keyword `read` asks for a variable. -/
def inout (t : Translator) : Translator :=
  let keyword := t.current
  let t := ((t.does s (.produce .inout)).expect s .inout).expect s .lparen
  (t.inoutValue s keyword).expect s .rparen

theorem ahead_inout_le (t : Translator) : (t.inout s).ahead ≤ t.ahead := by
  refine Nat.le_trans (ahead_expect_le s _ _) (Nat.le_trans (ahead_inoutValue_le s _ _) ?_)
  exact Nat.le_trans (ahead_expect_le s _ _) (ahead_expect_le s _ _)

/-- A conditional up to the statement that it guards, and the label behind that. -/
def conditionalHead (t : Translator) : Label × Translator :=
  let condition := expression s ((t.does s (.produce .conditional)).expect s .if)
  let guarded := condition.val.asks s (.skipUnless t.current)
  (guarded.1, guarded.2.expect s .then)

theorem ahead_conditionalHead_lt {t : Translator} (h : t.kind ≠ .eof) : (t.conditionalHead s).2.ahead < t.ahead := by
  unfold conditionalHead
  dsimp only
  refine ahead_expect_lt_of_le s h ?_ _
  rw [ahead_asks]
  refine Nat.le_trans (expression s _).property ?_
  rw [ahead_expect, ahead_does]
  exact Nat.sub_le _ _

/-- A loop up to the statement that it repeats, and the labels in front of it and behind it. -/
def loopHead (t : Translator) : (Label × Label) × Translator :=
  let labelled := (t.does s (.produce .loop)).asks s .loopLabels
  let entered := labelled.2.expect s .while
  let condition := expression s (entered.does s (.emit [.comment "while statement", .label labelled.1.1]))
  (labelled.1, (condition.val.expect s .do).does s (.leaveUnless t.current labelled.1.2))

theorem ahead_loopHead_lt {t : Translator} (h : t.kind ≠ .eof) : (t.loopHead s).2.ahead < t.ahead := by
  unfold loopHead
  dsimp only
  rw [ahead_does]
  refine ahead_expect_lt_of_le s h (Nat.le_trans (expression s _).property ?_) _
  rw [ahead_does, ahead_expect, ahead_asks, ahead_does]
  exact Nat.sub_le _ _

mutual

/-- (2) A statement, which may be empty. -/
def statement (t : Translator) : Onward t :=
  let entered := t.does s (.produce .statement)
  match _h : t.kind with
  | .typeName => ⟨(entered.does s (.note .declaration)).declaration s, ahead_declaration_le s _⟩
  | .ident => ⟨(entered.does s (.note .assignment)).assignment s, ahead_assignment_le s _⟩
  | .if =>
    let whole := conditional (entered.does s (.note .conditional)) _h
    ⟨whole.val, whole.property⟩
  | .begin =>
    let whole := block (entered.does s (.note .block))
    ⟨whole.val, whole.property⟩
  | .while =>
    let whole := loop (entered.does s (.note .loop)) _h
    ⟨whole.val, whole.property⟩
  | .inout => ⟨(entered.does s (.note .inout)).inout s, ahead_inout_le s _⟩
  | _ => ⟨entered, Nat.le_refl _⟩
termination_by (t.ahead, 2)
decreasing_by all_goals exact Prod.Lex.right _ (by decide)

/-- (5) A conditional. -/
def conditional (t : Translator) (h : t.kind = .if) : Onward t :=
  have hless := ahead_conditionalHead_lt s (t := t) (by rw [h]; decide)
  let action := statement (t.conditionalHead s).2
  ⟨action.val.does s (.emit [.label (t.conditionalHead s).1]), Nat.le_trans action.property (Nat.le_of_lt hless)⟩
termination_by (t.ahead, 1)
decreasing_by exact Prod.Lex.left _ _ hless

/-- (6) A loop. -/
def loop (t : Translator) (h : t.kind = .while) : Onward t :=
  have hless := ahead_loopHead_lt s (t := t) (by rw [h]; decide)
  let head := t.loopHead s
  let action := statement head.2
  ⟨action.val.does s (.emit [.instr (.jump head.1.1), .label head.1.2]),
    Nat.le_trans action.property (Nat.le_of_lt hless)⟩
termination_by (t.ahead, 1)
decreasing_by exact Prod.Lex.left _ _ hless

/-- (7) A block, in a scope of its own. -/
def block (t : Translator) : Onward t :=
  let entered := t.does s (.produce .block)
  if h : t.kind = .begin then
    have hless := ahead_expect_lt s (t := entered) (by show t.kind ≠ _; rw [h]; decide) .begin
    let inside := statements ((entered.expect s .begin).does s .enterScope)
    ⟨(inside.val.expect s .end).does s .leaveScope,
      Nat.le_trans (ahead_expect_le s inside.val .end) (Nat.le_trans inside.property (Nat.le_of_lt hless))⟩
  else ⟨entered, Nat.le_refl _⟩
termination_by (t.ahead, 1)
decreasing_by exact Prod.Lex.left _ _ hless

/-- The inside of a block: it reaches up to an `end` or an end mark where a statement could start. -/
def statements (t : Translator) : Onward t :=
  if _h : t.kind = .end ∨ t.kind = .eof then ⟨t, Nat.le_refl _⟩
  else
    let first := statement t
    if first.val.kind = .end then first
    else
      let rest := statements (first.val.expect s .semi)
      ⟨rest.val, Nat.le_trans rest.property (Nat.le_trans (ahead_expect_le s _ _) first.property)⟩
termination_by (t.ahead, 3)
decreasing_by
  · exact Prod.Lex.right _ (by decide)
  · exact Prod.Lex.left _ _ (ahead_expect_lt_of_le s (fun heof => _h (.inr heof)) first.property _)

end

/-- (1) A program, with its prolog and postlog. -/
def program (t : Translator) : Translator :=
  let entered := t.does s do
    .produce .program
    .note .program
    .emit prolog
  let last := ((block s entered).val.expect s .dot).does s (.emit postlog)
  if last.current.isEof then last else last.does s (.remark last.current .trailing)

end Translator

/-- Translates the program that a source spells, up to the end of the program. -/
def translate (s : Settings) (source : TokenSource) : Translator :=
  Translator.program s { source, work := .start s.wordSize }

namespace Translator

variable (t : Translator) (s : Settings)

/-- Whether no token is left. -/
def exhausted : Bool := t.current.isEof

def derivationText : Text := Text.join " " (t.work.derivation.toList.map Text.ofNat)

/-- The names of the stations, recorded only on request. -/
def trace : Text := Text.join " " t.work.trace.toList

/-- All diagnostics, one a line. -/
def errors : Text := Text.unlines (t.work.diagnostics.toList.map Diagnostic.describe)

def output : Output := { lines := t.work.lines.toList }

/-- Whether the code is to be written out: after a success, or, unless only a success counts, when no token is left. -/
def shouldFlush : Bool := if s.feature .strictOutput then t.work.ok else t.exhausted || t.work.ok

/-- Writes the code out where it is to be written, and nothing where it is not. The answer is whether it was written. -/
def flush (o : Output) (sink : Sink) : Flushed Bool :=
  if t.shouldFlush s then
    let flushed := o.flush sink
    { flushed with answer := flushed.answer.map fun _ => true }
  else ⟨.ok false, o, sink⟩

end Translator

end AlgolMips
