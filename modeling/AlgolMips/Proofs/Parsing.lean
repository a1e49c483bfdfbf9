import AlgolMips.Proofs.Grammar
import AlgolMips.Tree.Parse

/-!
# Reading and spelling

Reading is the inverse of spelling. A valid tree is read back from its tokens, whatever follows them that cannot
continue it (`Parse.program_tokens`). The other way, a tree that was read from tokens is spelled by them wherever its
tokens in the checked places are of the right kinds (`Parse.program_spelled`): a token of another kind, or an end mark
behind the last token, may only stand where it will be found.
-/

namespace AlgolMips

open Parse

/-! ## A valid tree is read back -/

/-- The kinds of tokens that a factor starts with. -/
def factorKinds : List Kind := [.ident, .literal, .not, .lparen]

/-- The kinds of tokens that continue an expression of a level which could end in front of them. -/
def Level.continuations : Level → List Kind
  | factor => factorKinds
  | relation => .relOp :: factorKinds
  | term => .mulOp :: .relOp :: factorKinds
  | expression => .addOp :: .mulOp :: .relOp :: factorKinds

namespace Parse

variable {eof : Token}

theorem expression_val (ts : List Token) : (expression eof ts).val =
    (expressionTail eof (.term (term eof ts).val.1) (term eof ts).val.2).val := by
  rw [expression]

theorem term_val (ts : List Token) : (term eof ts).val =
    (termTail eof (.relation (relation eof ts).val.1) (relation eof ts).val.2).val := by
  rw [term]

theorem expressionTail_stop {left : Expr .expression} {ts : List Token} (h : nextKind ts ≠ .addOp) :
    (expressionTail eof left ts).val = (left, ts) := by
  cases ts with
  | nil => rw [expressionTail]
  | cons t rest =>
    have hk : t.kind ≠ .addOp := h
    rw [expressionTail, if_neg hk]

theorem expressionTail_step {left : Expr .expression} {op : Token} {ts : List Token} (h : op.kind = .addOp) :
    (expressionTail eof left (op :: ts)).val =
      (expressionTail eof (.add left op (term eof ts).val.1) (term eof ts).val.2).val := by
  rw [expressionTail, if_pos h]

theorem termTail_stop {left : Expr .term} {ts : List Token} (h : nextKind ts ≠ .mulOp) :
    (termTail eof left ts).val = (left, ts) := by
  cases ts with
  | nil => rw [termTail]
  | cons t rest =>
    have hk : t.kind ≠ .mulOp := h
    rw [termTail, if_neg hk]

theorem termTail_step {left : Expr .term} {op : Token} {ts : List Token} (h : op.kind = .mulOp) :
    (termTail eof left (op :: ts)).val =
      (termTail eof (.mul left op (relation eof ts).val.1) (relation eof ts).val.2).val := by
  rw [termTail, if_pos h]

theorem relation_stop {ts rest : List Token} {left : Expr .factor} (hl : (factor eof ts).val = (left, rest))
    (h : nextKind rest ≠ .relOp) : (relation eof ts).val = (.factor left, rest) := by
  rw [relation]
  split
  · simp_all
  · next t r h' =>
    have hr : rest = t :: r := by rw [← h', hl]
    have hk : t.kind ≠ .relOp := by simpa [hr, nextKind] using h
    simp [hk, hl, hr]

theorem relation_step {ts rest : List Token} {left : Expr .factor} {op : Token}
    (hl : (factor eof ts).val = (left, op :: rest)) (h : op.kind = .relOp) :
    (relation eof ts).val = (.compare left op (factor eof rest).val.1, (factor eof rest).val.2) := by
  rw [relation]
  split
  · simp_all
  · next t r h' =>
    obtain ⟨rfl, rfl⟩ : op = t ∧ rest = r := by simpa [hl] using h'
    simp [h, hl]

theorem factor_name {tok : Token} {ts : List Token} (h : tok.kind = .ident) :
    (factor eof (tok :: ts)).val = (.name tok, ts) := by
  simp [factor, h]

theorem factor_literal {tok : Token} {ts : List Token} (h : tok.kind = .literal) :
    (factor eof (tok :: ts)).val = (.literal tok, ts) := by
  simp [factor, h]

theorem factor_not {op : Token} {ts : List Token} (h : op.kind = .not) :
    (factor eof (op :: ts)).val = (.negation op (factor eof ts).val.1, (factor eof ts).val.2) := by
  rw [factor]
  simp [h]

theorem factor_lparen {opening : Token} {ts : List Token} (h : opening.kind = .lparen) :
    (factor eof (opening :: ts)).val =
      (.group opening (expression eof ts).val.1 ((expression eof ts).val.2.headD eof),
        (expression eof ts).val.2.tail) := by
  rw [factor]
  simp [h]

theorem factor_missing {ts : List Token} (h : nextKind ts ∉ Level.factor.continuations) :
    (factor eof ts).val = (.missing, ts) := by
  cases ts with
  | nil => rw [factor]
  | cons t rest =>
    rw [factor]
    simp only [Level.continuations, factorKinds, nextKind] at h
    split <;> simp_all

/-- What reading gives on the tokens of an expression and more behind them: an expression or a term is gone on with, a
relation or a factor is read whole. -/
def ReadsBack (eof : Token) : {l : Level} → Expr l → Prop
  | .expression, e => ∀ rest, nextKind rest ∉ Level.term.continuations →
      (expression eof (e.tokens ++ rest)).val = (expressionTail eof e rest).val
  | .term, e => ∀ rest, nextKind rest ∉ Level.relation.continuations →
      (term eof (e.tokens ++ rest)).val = (termTail eof e rest).val
  | .relation, e => ∀ rest, nextKind rest ∉ Level.relation.continuations →
      (relation eof (e.tokens ++ rest)).val = (e, rest)
  | .factor, e => ∀ rest, nextKind rest ∉ Level.factor.continuations →
      (factor eof (e.tokens ++ rest)).val = (e, rest)

theorem ReadsBack.term_val {e : Expr .term} (h : ReadsBack eof e) {rest : List Token}
    (hr : nextKind rest ∉ Level.term.continuations) : (term eof (e.tokens ++ rest)).val = (e, rest) := by
  simp only [Level.continuations, List.mem_cons, not_or] at hr
  rw [h rest (by simpa [Level.continuations] using hr.2), termTail_stop hr.1]

theorem ReadsBack.expression_val {e : Expr .expression} (h : ReadsBack eof e) {rest : List Token}
    (hr : nextKind rest ∉ Level.expression.continuations) :
    (expression eof (e.tokens ++ rest)).val = (e, rest) := by
  simp only [Level.continuations, List.mem_cons, not_or] at hr
  rw [h rest (by simpa [Level.continuations] using hr.2), expressionTail_stop hr.1]

/-- By induction on the expression. A left operand is read up to its operator, which ends it, and reading goes on
there. -/
theorem readsBack {l : Level} (e : Expr l) (hv : e.Valid) : ReadsBack eof e := by
  induction e with
  | add left op right ihl ihr =>
    intro rest hr
    obtain ⟨hl, hop, hright⟩ := hv
    have hk : nextKind (op :: (right.tokens ++ rest)) ∉ Level.term.continuations := by
      simp [nextKind, hop, Level.continuations, factorKinds]
    have ht : (Expr.add left op right).tokens ++ rest = left.tokens ++ op :: (right.tokens ++ rest) := by
      simp [Expr.tokens]
    rw [ht, ihl hl _ hk, expressionTail_step hop, (ihr hright).term_val hr]
  | term e ih =>
    intro rest hr
    rw [Parse.expression_val]
    simp only [Expr.tokens]
    rw [(ih hv).term_val hr]
  | mul left op right ihl ihr =>
    intro rest hr
    obtain ⟨hl, hop, hright⟩ := hv
    have hk : nextKind (op :: (right.tokens ++ rest)) ∉ Level.relation.continuations := by
      simp [nextKind, hop, Level.continuations, factorKinds]
    have ht : (Expr.mul left op right).tokens ++ rest = left.tokens ++ op :: (right.tokens ++ rest) := by
      simp [Expr.tokens]
    rw [ht, ihl hl _ hk, termTail_step hop, ihr hright rest hr]
  | relation e ih =>
    intro rest hr
    rw [Parse.term_val]
    simp only [Expr.tokens]
    rw [ih hv rest hr]
  | compare left op right ihl ihr =>
    intro rest hr
    obtain ⟨hl, hop, hright⟩ := hv
    have hk : nextKind (op :: (right.tokens ++ rest)) ∉ Level.factor.continuations := by
      simp [nextKind, hop, Level.continuations, factorKinds]
    have hr' : nextKind rest ∉ Level.factor.continuations := fun h => hr (List.mem_cons_of_mem _ h)
    have ht : (Expr.compare left op right).tokens ++ rest = left.tokens ++ op :: (right.tokens ++ rest) := by
      simp [Expr.tokens]
    rw [ht, relation_step (ihl hl _ hk) hop, ihr hright rest hr']
  | factor e ih =>
    intro rest hr
    have hr' : nextKind rest ∉ Level.factor.continuations := fun h => hr (List.mem_cons_of_mem _ h)
    have hne : nextKind rest ≠ .relOp := fun h => hr (h ▸ List.mem_cons_self)
    exact relation_stop (ih hv rest hr') hne
  | missing =>
    intro rest hr
    exact factor_missing hr
  | name tok =>
    intro rest _
    exact factor_name hv
  | literal tok =>
    intro rest _
    exact factor_literal hv
  | negation op e ih =>
    intro rest hr
    simp only [Expr.tokens, List.cons_append]
    rw [factor_not hv.1, ih hv.2 rest hr]
  | group opening e closing ih =>
    intro rest _
    obtain ⟨ho, he, hc⟩ := hv
    have hk : nextKind (closing :: rest) ∉ Level.expression.continuations := by
      simp [nextKind, hc, Level.continuations, factorKinds]
    have ht : (Expr.group opening e closing).tokens ++ rest = opening :: (e.tokens ++ closing :: rest) := by
      simp [Expr.tokens]
    rw [ht, factor_lparen ho, (ih he).expression_val hk]
    rfl

/-- The kinds of tokens that a statement starts with. -/
def statementKinds : List Kind := [.typeName, .ident, .if, .begin, .while, .inout]

theorem statement_empty {ts : List Token} (h : nextKind ts ∉ statementKinds) :
    (statement eof ts).val = (.empty, ts) := by
  cases ts with
  | nil => rw [statement]
  | cons t rest =>
    rw [statement]
    simp only [statementKinds, nextKind] at h
    split <;> simp_all

theorem statement_declare {t : Token} {ts : List Token} (h : t.kind = .typeName) :
    (statement eof (t :: ts)).val = (.declare t (ts.headD eof), ts.tail) := by
  simp [statement, h, declaration]

theorem statement_assign {t : Token} {ts : List Token} (h : t.kind = .ident) :
    (statement eof (t :: ts)).val =
      (.assign t (ts.headD eof) (expression eof ts.tail).val.1, (expression eof ts.tail).val.2) := by
  simp [statement, h, assignment]

theorem statement_if {t : Token} {ts : List Token} (h : t.kind = .if) :
    (statement eof (t :: ts)).val =
      let c := (enclosed eof ts).val
      let a := (statement eof c.2).val
      (.ifThen t c.1.1 c.1.2 a.1, a.2) := by
  rw [statement]
  simp [h]

theorem statement_while {t : Token} {ts : List Token} (h : t.kind = .while) :
    (statement eof (t :: ts)).val =
      let c := (enclosed eof ts).val
      let a := (statement eof c.2).val
      (.whileDo t c.1.1 c.1.2 a.1, a.2) := by
  rw [statement]
  simp [h]

theorem statement_begin {t : Token} {ts : List Token} (h : t.kind = .begin) :
    (statement eof (t :: ts)).val =
      (.block t (body eof ts).val.1 ((body eof ts).val.2.headD eof), (body eof ts).val.2.tail) := by
  rw [statement]
  simp [h]

theorem statement_read {t : Token} {ts : List Token} (h : t.kind = .inout) (hr : t.value = "read") :
    (statement eof (t :: ts)).val =
      (.read t (ts.headD eof) (target ts.tail).1 ((target ts.tail).2.headD eof), (target ts.tail).2.tail) := by
  simp [statement, h, inout, hr]

theorem statement_write {t : Token} {ts : List Token} (h : t.kind = .inout) (hr : t.value ≠ "read") :
    (statement eof (t :: ts)).val =
      (.write t (ts.headD eof) (enclosed eof ts.tail).val.1.1 (enclosed eof ts.tail).val.1.2,
        (enclosed eof ts.tail).val.2) := by
  simp [statement, h, inout, hr]

theorem enclosed_val {ts rest : List Token} {e : Expr .expression} {t : Token}
    (h : (expression eof ts).val = (e, t :: rest)) : (enclosed eof ts).val = ((e, t), rest) := by
  simp [enclosed, h]

theorem body_done {ts : List Token} (h : nextKind ts = .end ∨ nextKind ts = .eof) :
    (body eof ts).val = (.done, ts) := by
  cases ts with
  | nil => rw [body]
  | cons t rest =>
    have hk : t.kind = .end ∨ t.kind = .eof := h
    rw [body, if_pos hk]

theorem body_last {ts rest : List Token} {s : Stmt} (h : ¬ (nextKind ts = .end ∨ nextKind ts = .eof))
    (hs : (statement eof ts).val = (s, rest)) (hr : nextKind rest = .end) :
    (body eof ts).val = (.last s, rest) := by
  cases ts with
  | nil => exact absurd (.inr rfl) h
  | cons t ts =>
    have hk : ¬ (t.kind = .end ∨ t.kind = .eof) := h
    rw [body, if_neg hk]
    simp [hs, hr]

theorem body_more {ts : List Token} (h : ¬ (nextKind ts = .end ∨ nextKind ts = .eof))
    (hr : nextKind (statement eof ts).val.2 ≠ .end) :
    (body eof ts).val =
      (.next (statement eof ts).val.1 ((statement eof ts).val.2.headD eof) (body eof (statement eof ts).val.2.tail).val.1,
        (body eof (statement eof ts).val.2.tail).val.2) := by
  cases ts with
  | nil => exact absurd (.inr rfl) h
  | cons t rest =>
    have hk : ¬ (t.kind = .end ∨ t.kind = .eof) := h
    rw [body, if_neg hk]
    simp only [if_neg hr]

theorem body_next {ts rest : List Token} {s : Stmt} {separator : Token}
    (h : ¬ (nextKind ts = .end ∨ nextKind ts = .eof)) (hs : (statement eof ts).val = (s, separator :: rest))
    (hr : separator.kind ≠ .end) :
    (body eof ts).val = (.next s separator (body eof rest).val.1, (body eof rest).val.2) := by
  have hmore : nextKind (statement eof ts).val.2 ≠ .end := by
    rw [hs]
    exact hr
  rw [body_more h hmore, hs]
  rfl

theorem program_block {t : Token} {ts : List Token} (h : t.kind = .begin) :
    program eof (t :: ts) =
      (.block t (body eof ts).val.1 ((body eof ts).val.2.headD eof) ((body eof ts).val.2.tail.headD eof),
        (body eof ts).val.2.tail.tail) := by
  simp only [program, if_pos h]

theorem program_bare {ts : List Token} (h : nextKind ts ≠ .begin) :
    program eof ts = (.bare (ts.headD eof), ts.tail) := by
  cases ts with
  | nil => rfl
  | cons t rest =>
    have hk : t.kind ≠ .begin := h
    simp [program, hk]

theorem target_val (found : Option Token) {rest : List Token} (h : ∀ tok ∈ found, tok.kind = .ident)
    (hr : nextKind rest ≠ .ident) : target (found.toList ++ rest) = (found, rest) := by
  cases found with
  | some tok => simp [target, h tok rfl]
  | none =>
    cases rest with
    | nil => rfl
    | cons t rest =>
      have ht : t.kind ≠ .ident := hr
      simp [target, ht]

theorem target_spelled (ts : List Token) :
    (target ts).1.toList ++ (target ts).2 = ts ∧ ∀ tok ∈ (target ts).1, tok.kind = .ident := by
  cases ts with
  | nil => exact ⟨rfl, fun _ h => absurd h (Option.not_mem_none _)⟩
  | cons t rest =>
    by_cases h : t.kind = .ident
    · simp [target, h]
    · simp [target, h]

/-- What can follow a statement in a block. -/
def Follows (ts : List Token) : Prop := nextKind ts = .semi ∨ nextKind ts = .end

theorem Follows.not_continuations {ts : List Token} (h : Follows ts) :
    nextKind ts ∉ Level.expression.continuations := by
  rcases h with h | h <;> simp [h, Level.continuations, factorKinds]

theorem Follows.not_statementKinds {ts : List Token} (h : Follows ts) : nextKind ts ∉ statementKinds := by
  rcases h with h | h <;> simp [h, statementKinds]

/-- What reading gives on the tokens of a statement or of the inside of a block, and more behind them. -/
def CodeReadsBack (eof : Token) : {x : Extent} → Code x → Prop
  | .statement, s => ∀ rest, Follows rest → (statement eof (s.tokens ++ rest)).val = (s, rest)
  | .body, b => ∀ rest, nextKind rest = .end → (body eof (b.tokens ++ rest)).val = (b, rest)

theorem enclosed_tokens {e : Expr .expression} (he : e.Valid) {t : Token}
    (ht : t.kind ∉ Level.expression.continuations) (rest : List Token) :
    (enclosed eof (e.tokens ++ t :: rest)).val = ((e, t), rest) :=
  enclosed_val ((readsBack e he).expression_val ht)

/-- A statement that is there does not start like the end of a block. -/
theorem not_ends_of_ne_empty {s : Stmt} (hv : s.Valid) (hs : s ≠ .empty) (rest : List Token) :
    ¬ (nextKind (s.tokens ++ rest) = .end ∨ nextKind (s.tokens ++ rest) = .eof) := by
  cases s with
  | empty => exact absurd rfl hs
  | declare | assign | ifThen | whileDo | block | read | write => simp [Code.tokens, nextKind, hv.1]

theorem codeReadsBack {x : Extent} (c : Code x) (hv : c.Valid) : CodeReadsBack eof c := by
  induction c with
  | empty =>
    intro rest hr
    exact statement_empty hr.not_statementKinds
  | declare type name =>
    intro rest _
    exact statement_declare hv.1
  | assign target sign value =>
    intro rest hr
    obtain ⟨ht, _, he⟩ := hv
    have hval := (@readsBack eof _ value he).expression_val hr.not_continuations
    simp only [Code.tokens, List.cons_append]
    rw [statement_assign ht]
    simp only [List.tail_cons, List.headD_cons]
    rw [hval]
  | ifThen opening condition middle action ih =>
    intro rest hr
    obtain ⟨ho, hc, hm, ha⟩ := hv
    have hk : middle.kind ∉ Level.expression.continuations := by simp [hm, Level.continuations, factorKinds]
    have ht : (Code.ifThen opening condition middle action).tokens ++ rest =
        opening :: (condition.tokens ++ middle :: (action.tokens ++ rest)) := by simp [Code.tokens]
    rw [ht, statement_if ho, enclosed_tokens hc hk]
    simp only
    rw [ih ha rest hr]
  | whileDo opening condition middle action ih =>
    intro rest hr
    obtain ⟨ho, hc, hm, ha⟩ := hv
    have hk : middle.kind ∉ Level.expression.continuations := by simp [hm, Level.continuations, factorKinds]
    have ht : (Code.whileDo opening condition middle action).tokens ++ rest =
        opening :: (condition.tokens ++ middle :: (action.tokens ++ rest)) := by simp [Code.tokens]
    rw [ht, statement_while ho, enclosed_tokens hc hk]
    simp only
    rw [ih ha rest hr]
  | block opening inside closing ih =>
    intro rest _
    obtain ⟨ho, hi, hc⟩ := hv
    have ht : (Code.block opening inside closing).tokens ++ rest = opening :: (inside.tokens ++ closing :: rest) := by
      simp [Code.tokens]
    rw [ht, statement_begin ho, ih hi (closing :: rest) hc]
    rfl
  | read keyword opening found closing =>
    intro rest _
    obtain ⟨hk, hr, _, ht, hc⟩ := hv
    have hne : nextKind (closing :: rest) ≠ .ident := by simp [nextKind, hc]
    have htok : (Code.read keyword opening found closing).tokens ++ rest =
        keyword :: opening :: (found.toList ++ closing :: rest) := by simp [Code.tokens]
    rw [htok, statement_read hk hr]
    simp only [List.tail_cons, List.headD_cons]
    rw [target_val found ht hne]
    rfl
  | write keyword opening value closing =>
    intro rest _
    obtain ⟨hk, hr, _, he, hc⟩ := hv
    have hend : closing.kind ∉ Level.expression.continuations := by simp [hc, Level.continuations, factorKinds]
    have htok : (Code.write keyword opening value closing).tokens ++ rest =
        keyword :: opening :: (value.tokens ++ closing :: rest) := by simp [Code.tokens]
    rw [htok, statement_write hk hr]
    simp only [List.tail_cons, List.headD_cons]
    rw [enclosed_tokens he hend]
  | done =>
    intro rest hr
    exact body_done (.inl hr)
  | last s ih =>
    intro rest hr
    exact body_last (not_ends_of_ne_empty hv.1 hv.2 rest) (ih hv.1 rest (.inr hr)) hr
  | next s separator more ihs ihr =>
    intro rest hr
    obtain ⟨hs, hsep, hm⟩ := hv
    have htok : (Code.next s separator more).tokens ++ rest = s.tokens ++ separator :: (more.tokens ++ rest) := by
      simp [Code.tokens]
    have hstart : ¬ (nextKind (s.tokens ++ separator :: (more.tokens ++ rest)) = .end ∨
        nextKind (s.tokens ++ separator :: (more.tokens ++ rest)) = .eof) := by
      by_cases he : s = .empty
      · subst he
        simp [Code.tokens, nextKind, hsep]
      · exact not_ends_of_ne_empty hs he _
    rw [htok, body_next hstart (ihs hs _ (.inl hsep)) (by simp [hsep]), ihr hm rest hr]

/-- A valid program is read back from its tokens, and nothing is left behind it. -/
theorem program_tokens (p : Program) (hv : p.Valid) : program eof p.tokens = (p, []) := by
  cases p with
  | bare stop =>
    have h : stop.kind ≠ .begin := by
      rw [show stop.kind = .dot from hv]
      decide
    simp [Program.tokens, program, h]
  | block opening inside closing stop =>
    obtain ⟨ho, hi, hc, _⟩ := hv
    have hin := @codeReadsBack eof _ inside hi [closing, stop] hc
    simp only [Program.tokens, program, if_pos ho]
    rw [hin]
    rfl

end Parse

/-! ## A tree that was read is spelled by its tokens -/

/-- The closing token of every group is a closing parenthesis. The kinds of all other tokens of an expression decide how
it is read. -/
def Expr.Checked : {l : Level} → Expr l → Prop
  | _, .add left _ right => left.Checked ∧ right.Checked
  | _, .term e => e.Checked
  | _, .mul left _ right => left.Checked ∧ right.Checked
  | _, .relation e => e.Checked
  | _, .compare left _ right => left.Checked ∧ right.Checked
  | _, .factor e => e.Checked
  | _, .missing => True
  | _, .name _ => True
  | _, .literal _ => True
  | _, .negation _ e => e.Checked
  | _, .group _ e closing => e.Checked ∧ closing.kind = .rparen

/-- Every token that is taken whatever it is, is of the kind that the grammar asks for. -/
def Code.Checked : {x : Extent} → Code x → Prop
  | _, .empty => True
  | _, .declare _ name => name.kind = .ident
  | _, .assign _ sign value => sign.kind = .assign ∧ value.Checked
  | _, .ifThen _ condition middle action => condition.Checked ∧ middle.kind = .then ∧ action.Checked
  | _, .whileDo _ condition middle action => condition.Checked ∧ middle.kind = .do ∧ action.Checked
  | _, .block _ inside closing => inside.Checked ∧ closing.kind = .end
  | _, .read _ opening _ closing => opening.kind = .lparen ∧ closing.kind = .rparen
  | _, .write _ opening value closing => opening.kind = .lparen ∧ value.Checked ∧ closing.kind = .rparen
  | _, .done => True
  | _, .last s => s.Checked
  | _, .next s separator rest => s.Checked ∧ separator.kind = .semi ∧ rest.Checked

def Program.Checked : Program → Prop
  | bare stop => stop.kind = .dot
  | block _ inside closing stop => inside.Checked ∧ closing.kind = .end ∧ stop.kind = .dot

namespace Parse

/-- An expression was read from tokens: where its checked tokens are right it is valid, and its tokens and the rest make
up what there was. -/
def Spelled {l : Level} (p : Expr l × List Token) (ts : List Token) : Prop :=
  p.1.Checked → p.1.Valid ∧ p.1.tokens ++ p.2 = ts

/-- The same of a statement or of the inside of a block. -/
def CodeSpelled {x : Extent} (p : Code x × List Token) (ts : List Token) : Prop :=
  p.1.Checked → p.1.Valid ∧ p.1.tokens ++ p.2 = ts

/-- A left operand was gone on with: the same of what was read behind it. -/
def Extends {l : Level} (left : Expr l) (p : Expr l × List Token) (ts : List Token) : Prop :=
  p.1.Checked → left.Checked ∧ (left.Valid → p.1.Valid) ∧ p.1.tokens ++ p.2 = left.tokens ++ ts

variable {eof : Token} (heof : eof.kind = .eof)

include heof

/-- A token of a kind that no end mark has is there, and not only supplied. -/
theorem head_tail_of_kind {ts : List Token} {k : Kind} (h : (ts.headD eof).kind = k) (hk : k ≠ .eof) :
    ts.headD eof :: ts.tail = ts := by
  cases ts with
  | nil =>
    have : k = .eof := by rw [← h]; exact heof
    exact absurd this hk
  | cons t rest => rfl

/-- Expressions by induction along the way in which they are read. -/
theorem expression_spelled :
    (∀ ts, Spelled (expression eof ts).val ts) ∧
    (∀ left ts, Extends left (expressionTail eof left ts).val ts) ∧
    (∀ ts, Spelled (term eof ts).val ts) ∧
    (∀ left ts, Extends left (termTail eof left ts).val ts) ∧
    (∀ ts, Spelled (relation eof ts).val ts) ∧
    (∀ ts, Spelled (factor eof ts).val ts) := by
  apply Parse.expression.mutual_induct eof
  · intro ts first ihTerm ihTail _
    rw [Parse.expression_val]
    intro h
    obtain ⟨hl, hv, ht⟩ := ihTail h
    obtain ⟨hfirst, hts⟩ := ihTerm hl
    exact ⟨hv hfirst, ht.trans hts⟩
  · intro left
    rw [expressionTail_stop (by simp [nextKind])]
    exact fun h => ⟨h, id, rfl⟩
  · intro left t rest hk right ihTerm ihTail _
    rw [expressionTail_step hk]
    intro h
    obtain ⟨⟨hl, hr⟩, hv, ht⟩ := ihTail h
    obtain ⟨hright, hts⟩ := ihTerm hr
    refine ⟨hl, fun hleft => hv ⟨hleft, hk, hright⟩, ?_⟩
    rw [ht]
    simp only [Expr.tokens, List.append_assoc, List.cons_append]
    rw [hts]
  · intro left t rest hk
    have hstop : nextKind (t :: rest) ≠ .addOp := hk
    rw [expressionTail_stop hstop]
    exact fun h => ⟨h, id, rfl⟩
  · intro ts first ihRel ihTail _
    rw [Parse.term_val]
    intro h
    obtain ⟨hl, hv, ht⟩ := ihTail h
    obtain ⟨hfirst, hts⟩ := ihRel hl
    exact ⟨hv hfirst, ht.trans hts⟩
  · intro left
    rw [termTail_stop (by simp [nextKind])]
    exact fun h => ⟨h, id, rfl⟩
  · intro left t rest hk right ihRel ihTail _
    rw [termTail_step hk]
    intro h
    obtain ⟨⟨hl, hr⟩, hv, ht⟩ := ihTail h
    obtain ⟨hright, hts⟩ := ihRel hr
    refine ⟨hl, fun hleft => hv ⟨hleft, hk, hright⟩, ?_⟩
    rw [ht]
    simp only [Expr.tokens, List.append_assoc, List.cons_append]
    rw [hts]
  · intro left t rest hk
    have hstop : nextKind (t :: rest) ≠ .mulOp := hk
    rw [termTail_stop hstop]
    exact fun h => ⟨h, id, rfl⟩
  · intro ts left hrest ihFactor
    have hval : (factor eof ts).val = ((factor eof ts).val.1, []) := Prod.ext rfl hrest
    rw [relation_stop hval (by simp [nextKind])]
    rw [hval] at ihFactor
    exact ihFactor
  · intro ts left t rest hrest hk ihLeft ihRight
    have hval : (factor eof ts).val = ((factor eof ts).val.1, t :: rest) := Prod.ext rfl hrest
    rw [relation_step hval hk]
    rw [hval] at ihLeft
    rintro ⟨hl, hr⟩
    obtain ⟨hlv, hlt⟩ := ihLeft hl
    obtain ⟨hrv, hrt⟩ := ihRight hr
    refine ⟨⟨hlv, hk, hrv⟩, ?_⟩
    simp only [Expr.tokens, List.append_assoc, List.cons_append]
    rw [hrt]
    exact hlt
  · intro ts left t rest hrest hk ihFactor
    have hval : (factor eof ts).val = ((factor eof ts).val.1, t :: rest) := Prod.ext rfl hrest
    rw [relation_stop hval hk]
    rw [hval] at ihFactor
    exact ihFactor
  · rw [factor_missing (by simp [nextKind, Level.continuations, factorKinds])]
    exact fun _ => ⟨trivial, rfl⟩
  · intro t rest hk
    rw [factor_name hk]
    exact fun _ => ⟨hk, rfl⟩
  · intro t rest hk
    rw [factor_literal hk]
    exact fun _ => ⟨hk, rfl⟩
  · intro t rest hk ih
    rw [factor_not hk]
    intro h
    obtain ⟨hv, ht⟩ := ih h
    refine ⟨⟨hk, hv⟩, ?_⟩
    simp only [Expr.tokens, List.cons_append]
    rw [ht]
  · intro t rest hk ih
    rw [factor_lparen hk]
    rintro ⟨he, hc⟩
    obtain ⟨hv, ht⟩ := ih he
    refine ⟨⟨hk, hv, hc⟩, ?_⟩
    have hclose := head_tail_of_kind heof hc nofun
    simp only [Expr.tokens, List.cons_append, List.append_assoc, List.nil_append]
    rw [hclose, ht]
  · intro t rest h₁ h₂ h₃ h₄
    have hstop : nextKind (t :: rest) ∉ Level.factor.continuations := by
      simp only [nextKind, Level.continuations, factorKinds, List.mem_cons, List.not_mem_nil, or_false, not_or]
      exact ⟨h₁, h₂, h₃, h₄⟩
    rw [factor_missing hstop]
    exact fun _ => ⟨trivial, rfl⟩

/-- An expression and the token behind it, where that is of a kind which no end mark has. -/
theorem enclosed_spelled {ts : List Token} {k : Kind} (hk : k ≠ .eof)
    (he : (enclosed eof ts).val.1.1.Checked) (ht : (enclosed eof ts).val.1.2.kind = k) :
    (enclosed eof ts).val.1.1.Valid ∧
      (enclosed eof ts).val.1.1.tokens ++ (enclosed eof ts).val.1.2 :: (enclosed eof ts).val.2 = ts := by
  obtain ⟨hv, htok⟩ := (expression_spelled heof).1 ts he
  have hrest := head_tail_of_kind heof ht hk
  refine ⟨hv, ?_⟩
  simp only [enclosed]
  rw [hrest, htok]

theorem declaration_spelled {t : Token} {ts : List Token} (hk : t.kind = .typeName) :
    CodeSpelled (statement eof (t :: ts)).val (t :: ts) := by
  rw [statement_declare hk]
  intro hn
  have hrest := head_tail_of_kind heof hn nofun
  refine ⟨⟨hk, hn⟩, ?_⟩
  simp only [Code.tokens, List.cons_append, List.nil_append]
  rw [hrest]

theorem assignment_spelled {t : Token} {ts : List Token} (hk : t.kind = .ident) :
    CodeSpelled (statement eof (t :: ts)).val (t :: ts) := by
  rw [statement_assign hk]
  rintro ⟨hs, he⟩
  obtain ⟨hv, htok⟩ := (expression_spelled heof).1 ts.tail he
  have hrest := head_tail_of_kind heof hs nofun
  refine ⟨⟨hk, hs, hv⟩, ?_⟩
  simp only [Code.tokens, List.cons_append]
  rw [htok, hrest]

theorem inout_spelled {t : Token} {ts : List Token} (hk : t.kind = .inout) :
    CodeSpelled (statement eof (t :: ts)).val (t :: ts) := by
  by_cases hr : t.value = "read"
  · rw [statement_read hk hr]
    rintro ⟨ho, hc⟩
    have hopening := head_tail_of_kind heof ho nofun
    have hclosing := head_tail_of_kind heof hc nofun
    obtain ⟨htarget, hident⟩ := target_spelled ts.tail
    refine ⟨⟨hk, hr, ho, hident, hc⟩, ?_⟩
    simp only [Code.tokens, List.cons_append, List.append_assoc, List.nil_append]
    rw [hclosing, htarget, hopening]
  · rw [statement_write hk hr]
    rintro ⟨ho, he, hc⟩
    have hopening := head_tail_of_kind heof ho nofun
    obtain ⟨hv, htok⟩ := enclosed_spelled heof (by nofun) he hc
    refine ⟨⟨hk, hr, ho, hv, hc⟩, ?_⟩
    simp only [Code.tokens, List.cons_append, List.append_assoc, List.nil_append]
    rw [htok, hopening]

/-- Statements and the insides of blocks by induction along the way in which they are read. -/
theorem statement_spelled :
    (∀ ts, CodeSpelled (statement eof ts).val ts) ∧ (∀ ts, CodeSpelled (body eof ts).val ts) := by
  apply Parse.statement.mutual_induct eof
  · rw [statement_empty (by simp [nextKind, statementKinds])]
    exact fun _ => ⟨trivial, rfl⟩
  · exact fun t rest hk => declaration_spelled heof hk
  · exact fun t rest hk => assignment_spelled heof hk
  · intro t rest hk condition ih _
    rw [statement_if hk]
    rintro ⟨hc, hm, ha⟩
    obtain ⟨hcv, hct⟩ := enclosed_spelled heof (by decide) hc hm
    obtain ⟨hav, hat⟩ := ih ha
    refine ⟨⟨hk, hcv, hm, hav⟩, ?_⟩
    simp only [Code.tokens, List.cons_append, List.append_assoc]
    rw [hat, hct]
  · intro t rest hk ih
    rw [statement_begin hk]
    rintro ⟨hi, hc⟩
    obtain ⟨hv, ht⟩ := ih hi
    have hclosing := head_tail_of_kind heof hc (by decide)
    refine ⟨⟨hk, hv, hc⟩, ?_⟩
    simp only [Code.tokens, List.cons_append, List.append_assoc, List.nil_append]
    rw [hclosing, ht]
  · intro t rest hk condition ih _
    rw [statement_while hk]
    rintro ⟨hc, hm, ha⟩
    obtain ⟨hcv, hct⟩ := enclosed_spelled heof (by decide) hc hm
    obtain ⟨hav, hat⟩ := ih ha
    refine ⟨⟨hk, hcv, hm, hav⟩, ?_⟩
    simp only [Code.tokens, List.cons_append, List.append_assoc]
    rw [hat, hct]
  · exact fun t rest hk => inout_spelled heof hk
  · intro t rest h₁ h₂ h₃ h₄ h₅ h₆
    have hstop : nextKind (t :: rest) ∉ statementKinds := by
      simp only [nextKind, statementKinds, List.mem_cons, List.not_mem_nil, or_false, not_or]
      exact ⟨h₁, h₂, h₃, h₄, h₅, h₆⟩
    rw [statement_empty hstop]
    exact fun _ => ⟨trivial, rfl⟩
  · rw [body_done (.inr rfl)]
    exact fun _ => ⟨trivial, rfl⟩
  · intro t rest hk
    have hends : nextKind (t :: rest) = .end ∨ nextKind (t :: rest) = .eof := hk
    rw [body_done hends]
    exact fun _ => ⟨trivial, rfl⟩
  · intro t rest hk s hend ih
    have hstart : ¬ (nextKind (t :: rest) = .end ∨ nextKind (t :: rest) = .eof) := hk
    rw [body_last hstart rfl hend]
    intro h
    obtain ⟨hv, ht⟩ := ih h
    refine ⟨⟨hv, fun hempty => hk (.inl ?_)⟩, ht⟩
    -- an empty statement leaves the tokens as they are, and they do not start with `end`
    change (statement eof (t :: rest)).val.1 = .empty at hempty
    rw [hempty] at ht
    have hsame : (statement eof (t :: rest)).val.2 = t :: rest := ht
    exact (congrArg nextKind hsame).symm.trans hend
  · intro t rest hk s hend ih ihRest _ h
    have hstart : ¬ (nextKind (t :: rest) = .end ∨ nextKind (t :: rest) = .eof) := hk
    rw [body_more hstart hend] at h ⊢
    obtain ⟨hsc, hsep, hrc⟩ := h
    obtain ⟨hsv, hst⟩ := ih hsc
    obtain ⟨hrv, hrt⟩ := ihRest hrc
    have hrest := head_tail_of_kind heof hsep (by decide)
    refine ⟨⟨hsv, hsep, hrv⟩, ?_⟩
    simp only [Code.tokens, List.append_assoc, List.cons_append]
    rw [hrt, hrest]
    exact hst

/-- A program whose checked tokens are right is valid, and its tokens and the rest make up what it was read from. -/
theorem program_spelled (ts : List Token) (h : (program eof ts).1.Checked) :
    (program eof ts).1.Valid ∧ (program eof ts).1.tokens ++ (program eof ts).2 = ts := by
  cases ts with
  | nil =>
    have hdot : eof.kind = .dot := h
    rw [heof] at hdot
    cases hdot
  | cons t rest =>
    by_cases hk : t.kind = .begin
    · simp only [program, if_pos hk] at h ⊢
      obtain ⟨hi, hc, hs⟩ := h
      obtain ⟨hv, ht⟩ := (statement_spelled heof).2 rest hi
      have hclosing := head_tail_of_kind heof hc (by decide)
      have hstop := head_tail_of_kind heof hs (by decide)
      refine ⟨⟨hk, hv, hc, hs⟩, ?_⟩
      simp only [Program.tokens, List.cons_append, List.append_assoc, List.nil_append]
      rw [hstop, hclosing, ht]
    · simp only [program, if_neg hk] at h ⊢
      exact ⟨h, rfl⟩

end Parse

end AlgolMips
