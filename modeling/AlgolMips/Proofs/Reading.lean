import AlgolMips.Proofs.Parsing

/-!
# How trees are read

`Expr.Read` and `Code.Read` are the ways in which a tree is read from tokens and some tokens are left: one rule for each
sort of tree, with the kind of the token that decides for it. In a place that is checked later the next token stands,
whatever it is, or the end mark. The rules leave open where reading stops, except that no block goes on with another
statement behind the last token.

All that is read is read in these ways (`Parse.read_expression`, `Parse.read_statement`), so facts about all trees that
can come out need an induction on the rules only. There are two here: a tree takes the next tokens one by one
(`Parse.program_consumes`), and its literals are tokens of the source that were scanned as literals
(`TokenSource.literals_parse`).
-/

namespace AlgolMips

open Parse

/-- An expression is read from tokens, and some tokens are left. -/
inductive Expr.Read (eof : Token) : {l : Level} → Expr l → List Token → List Token → Prop where
  | add {left : Expr .expression} {op : Token} {right : Expr .term} {ts mid rest : List Token} :
      op.kind = .addOp → Read eof left ts (op :: mid) → Read eof right mid rest → Read eof (.add left op right) ts rest
  | term {e : Expr .term} {ts rest : List Token} : Read eof e ts rest → Read eof (.term e) ts rest
  | mul {left : Expr .term} {op : Token} {right : Expr .relation} {ts mid rest : List Token} :
      op.kind = .mulOp → Read eof left ts (op :: mid) → Read eof right mid rest → Read eof (.mul left op right) ts rest
  | relation {e : Expr .relation} {ts rest : List Token} : Read eof e ts rest → Read eof (.relation e) ts rest
  | compare {left right : Expr .factor} {op : Token} {ts mid rest : List Token} :
      op.kind = .relOp → Read eof left ts (op :: mid) → Read eof right mid rest →
        Read eof (.compare left op right) ts rest
  | factor {e : Expr .factor} {ts rest : List Token} : Read eof e ts rest → Read eof (.factor e) ts rest
  | missing {ts : List Token} : Read eof .missing ts ts
  | name {tok : Token} {ts : List Token} : tok.kind = .ident → Read eof (.name tok) (tok :: ts) ts
  | literal {tok : Token} {ts : List Token} : tok.kind = .literal → Read eof (.literal tok) (tok :: ts) ts
  | negation {op : Token} {e : Expr .factor} {ts rest : List Token} :
      op.kind = .not → Read eof e ts rest → Read eof (.negation op e) (op :: ts) rest
  | group {opening : Token} {e : Expr .expression} {ts rest : List Token} :
      opening.kind = .lparen → Read eof e ts rest → Read eof (.group opening e (rest.headD eof)) (opening :: ts) rest.tail

/-- A statement or the inside of a block is read from tokens, and some tokens are left. -/
inductive Code.Read (eof : Token) : {x : Extent} → Code x → List Token → List Token → Prop where
  | empty {ts : List Token} : Read eof .empty ts ts
  | declare {type : Token} {ts : List Token} :
      type.kind = .typeName → Read eof (.declare type (ts.headD eof)) (type :: ts) ts.tail
  | assign {target : Token} {value : Expr .expression} {ts rest : List Token} :
      target.kind = .ident → value.Read eof ts.tail rest →
        Read eof (.assign target (ts.headD eof) value) (target :: ts) rest
  | ifThen {opening : Token} {condition : Expr .expression} {action : Stmt} {ts mid rest : List Token} :
      opening.kind = .if → condition.Read eof ts mid → Read eof action mid.tail rest →
        Read eof (.ifThen opening condition (mid.headD eof) action) (opening :: ts) rest
  | whileDo {opening : Token} {condition : Expr .expression} {action : Stmt} {ts mid rest : List Token} :
      opening.kind = .while → condition.Read eof ts mid → Read eof action mid.tail rest →
        Read eof (.whileDo opening condition (mid.headD eof) action) (opening :: ts) rest
  | block {opening : Token} {inside : Body} {ts rest : List Token} :
      opening.kind = .begin → Read eof inside ts rest →
        Read eof (.block opening inside (rest.headD eof)) (opening :: ts) rest.tail
  | read {keyword : Token} {ts : List Token} :
      keyword.kind = .inout → Read eof
        (.read keyword (ts.headD eof) (target ts.tail).1 ((target ts.tail).2.headD eof)) (keyword :: ts) (target ts.tail).2.tail
  | write {keyword : Token} {value : Expr .expression} {ts rest : List Token} :
      keyword.kind = .inout → value.Read eof ts.tail rest →
        Read eof (.write keyword (ts.headD eof) value (rest.headD eof)) (keyword :: ts) rest.tail
  | done {ts : List Token} : Read eof .done ts ts
  | last {s : Stmt} {ts rest : List Token} : Read eof s ts rest → Read eof (.last s) ts rest
  | next {s : Stmt} {more : Body} {ts mid rest : List Token} :
      ts ≠ [] → Read eof s ts mid → Read eof more mid.tail rest → Read eof (.next s (mid.headD eof) more) ts rest

namespace Parse

/-! ## All trees are read so -/

/-- Expressions by induction along the recursion; what is gone on with was read from earlier tokens. -/
theorem read_expression (eof : Token) :
    (∀ ts, (expression eof ts).val.1.Read eof ts (expression eof ts).val.2) ∧
    (∀ left ts, ∀ {start}, left.Read eof start ts →
      (expressionTail eof left ts).val.1.Read eof start (expressionTail eof left ts).val.2) ∧
    (∀ ts, (term eof ts).val.1.Read eof ts (term eof ts).val.2) ∧
    (∀ left ts, ∀ {start}, left.Read eof start ts →
      (termTail eof left ts).val.1.Read eof start (termTail eof left ts).val.2) ∧
    (∀ ts, (relation eof ts).val.1.Read eof ts (relation eof ts).val.2) ∧
    (∀ ts, (factor eof ts).val.1.Read eof ts (factor eof ts).val.2) := by
  apply Parse.expression.mutual_induct eof
  · intro ts first ihTerm ihTail _
    rw [Parse.expression_val]
    exact ihTail (.term ihTerm)
  · intro left start hleft
    rw [expressionTail_stop (by decide)]
    exact hleft
  · intro left t rest hk right ihTerm ihTail _ start hleft
    rw [expressionTail_step hk]
    exact ihTail (.add hk hleft ihTerm)
  · intro left t rest hk start hleft
    have hstop : nextKind (t :: rest) ≠ .addOp := hk
    rw [expressionTail_stop hstop]
    exact hleft
  · intro ts first ihRelation ihTail _
    rw [Parse.term_val]
    exact ihTail (.relation ihRelation)
  · intro left start hleft
    rw [termTail_stop (by decide)]
    exact hleft
  · intro left t rest hk right ihRelation ihTail _ start hleft
    rw [termTail_step hk]
    exact ihTail (.mul hk hleft ihRelation)
  · intro left t rest hk start hleft
    have hstop : nextKind (t :: rest) ≠ .mulOp := hk
    rw [termTail_stop hstop]
    exact hleft
  · intro ts left hrest ihFactor
    have hval : (factor eof ts).val = ((factor eof ts).val.1, []) := Prod.ext rfl hrest
    rw [relation_stop hval (by decide)]
    rw [hval] at ihFactor
    exact .factor ihFactor
  · intro ts left t rest hrest hk ihLeft ihRight
    have hval : (factor eof ts).val = ((factor eof ts).val.1, t :: rest) := Prod.ext rfl hrest
    rw [relation_step hval hk]
    rw [hval] at ihLeft
    exact .compare hk ihLeft ihRight
  · intro ts left t rest hrest hk ihFactor
    have hval : (factor eof ts).val = ((factor eof ts).val.1, t :: rest) := Prod.ext rfl hrest
    have hstop : nextKind (t :: rest) ≠ .relOp := hk
    rw [relation_stop hval hstop]
    rw [hval] at ihFactor
    exact .factor ihFactor
  · rw [factor_missing (by simp [nextKind, Level.continuations, factorKinds])]
    exact .missing
  · intro t rest hk
    rw [factor_name hk]
    exact .name hk
  · intro t rest hk
    rw [factor_literal hk]
    exact .literal hk
  · intro t rest hk ih
    rw [factor_not hk]
    exact .negation hk ih
  · intro t rest hk ih
    rw [factor_lparen hk]
    exact .group hk ih
  · intro t rest h₁ h₂ h₃ h₄
    have hstop : nextKind (t :: rest) ∉ Level.factor.continuations := by
      simp only [nextKind, Level.continuations, factorKinds, List.mem_cons, List.not_mem_nil, or_false, not_or]
      exact ⟨h₁, h₂, h₃, h₄⟩
    rw [factor_missing hstop]
    exact .missing

/-- Statements and the insides of blocks by induction along the recursion. -/
theorem read_statement (eof : Token) :
    (∀ ts, (statement eof ts).val.1.Read eof ts (statement eof ts).val.2) ∧
    (∀ ts, (body eof ts).val.1.Read eof ts (body eof ts).val.2) := by
  have hexpression := (read_expression eof).1
  apply Parse.statement.mutual_induct eof
  · rw [statement_empty (by simp [nextKind, statementKinds])]
    exact .empty
  · intro t rest hk
    rw [statement_declare hk]
    exact .declare hk
  · intro t rest hk
    rw [statement_assign hk]
    exact .assign hk (hexpression _)
  · intro t rest hk condition ih _
    rw [statement_if hk]
    exact .ifThen hk (hexpression rest) ih
  · intro t rest hk ih
    rw [statement_begin hk]
    exact .block hk ih
  · intro t rest hk condition ih _
    rw [statement_while hk]
    exact .whileDo hk (hexpression rest) ih
  · intro t rest hk
    by_cases hread : t.value = "read"
    · rw [statement_read hk hread]
      exact .read hk
    · rw [statement_write hk hread]
      exact .write hk (hexpression rest.tail)
  · intro t rest h₁ h₂ h₃ h₄ h₅ h₆
    have hstop : nextKind (t :: rest) ∉ statementKinds := by
      simp only [nextKind, statementKinds, List.mem_cons, List.not_mem_nil, or_false, not_or]
      exact ⟨h₁, h₂, h₃, h₄, h₅, h₆⟩
    rw [statement_empty hstop]
    exact .empty
  · rw [body_done (.inr rfl)]
    exact .done
  · intro t rest hends
    have hstop : nextKind (t :: rest) = .end ∨ nextKind (t :: rest) = .eof := hends
    rw [body_done hstop]
    exact .done
  · intro t rest hstart s hend ih
    have hgo : ¬ (nextKind (t :: rest) = .end ∨ nextKind (t :: rest) = .eof) := hstart
    rw [body_last hgo rfl hend]
    exact .last ih
  · intro t rest hstart s hend ih ihRest _
    have hgo : ¬ (nextKind (t :: rest) = .end ∨ nextKind (t :: rest) = .eof) := hstart
    rw [body_more hgo hend]
    exact .next (List.cons_ne_nil t rest) ih ihRest

/-! ## Reading takes the next tokens one by one -/

/-- Some tokens are the next ones, with an end mark for each that is not there, and a rest is left. -/
def Consumes (eof : Token) : List Token → List Token → List Token → Prop
  | [], ts, rest => rest = ts
  | t :: found, ts, rest => t = ts.headD eof ∧ Consumes eof found ts.tail rest

variable {eof : Token}

theorem consumes_append {found more ts mid rest : List Token} (h : Consumes eof found ts mid)
    (h' : Consumes eof more mid rest) : Consumes eof (found ++ more) ts rest := by
  induction found generalizing ts with
  | nil =>
    cases h
    exact h'
  | cons t found ih => exact ⟨h.1, ih h.2⟩

theorem Consumes.next {t : Token} {found ts rest : List Token} (h : Consumes eof found ts rest) :
    Consumes eof (t :: found) (t :: ts) rest :=
  ⟨rfl, h⟩

/-- Whatever comes next, taken unseen. -/
theorem Consumes.behind {found ts rest : List Token} (h : Consumes eof found ts.tail rest) :
    Consumes eof (ts.headD eof :: found) ts rest :=
  ⟨rfl, h⟩

theorem consumes_head (ts : List Token) : Consumes eof [ts.headD eof] ts ts.tail := ⟨rfl, rfl⟩

/-- The tokens by their indices. -/
theorem Consumes.eq_range {found ts rest : List Token} (h : Consumes eof found ts rest) :
    found = (List.range' 0 found.length).map (fun i => ts.getD i eof) ∧ rest = ts.drop found.length := by
  induction found generalizing ts with
  | nil => exact ⟨rfl, h⟩
  | cons t found ih =>
    obtain ⟨hfound, hrest⟩ := ih h.2
    have hshift : List.range' 1 found.length = (List.range' 0 found.length).map (· + 1) := by
      rw [List.range'_eq_map_range, List.range'_eq_map_range]
      simp [Nat.add_comm]
    refine ⟨?_, ?_⟩
    · rw [List.length_cons, List.range'_succ, List.map_cons, hshift, List.map_map]
      have hhead : t = ts.getD 0 eof := by
        rw [h.1]
        cases ts <;> rfl
      have htail : (fun i => ts.getD i eof) ∘ (· + 1) = fun i => ts.tail.getD i eof := by
        funext i
        cases ts <;> rfl
      rw [htail, ← hhead, ← hfound]
    · rw [hrest]
      cases ts <;> simp

theorem Consumes.subset {found ts rest : List Token} (h : Consumes eof found ts rest) : rest ⊆ ts := by
  rw [h.eq_range.2]
  exact List.drop_subset _ _

theorem target_consumes (eof : Token) (ts : List Token) : Consumes eof (target ts).1.toList ts (target ts).2 := by
  cases ts with
  | nil => rfl
  | cons t rest => by_cases h : t.kind = .ident <;> simp [target, h, Consumes]

end Parse

theorem Expr.Read.consumes {eof : Token} {l : Level} {e : Expr l} {ts rest : List Token} (h : e.Read eof ts rest) :
    Consumes eof e.tokens ts rest := by
  induction h with
  | add _ _ _ ihl ihr | mul _ _ _ ihl ihr | compare _ _ _ ihl ihr => exact consumes_append ihl ihr.next
  | term _ ih | relation _ ih | factor _ ih => exact ih
  | missing => rfl
  | name | literal => exact ⟨rfl, rfl⟩
  | negation _ _ ih => exact ih.next
  | group _ _ ih => exact (consumes_append ih (consumes_head _)).next

theorem Code.Read.consumes {eof : Token} {x : Extent} {c : Code x} {ts rest : List Token} (h : c.Read eof ts rest) :
    Consumes eof c.tokens ts rest := by
  induction h with
  | empty | done => rfl
  | declare => exact (consumes_head _).next
  | assign _ hvalue => exact hvalue.consumes.behind.next
  | ifThen _ hcondition _ ih | whileDo _ hcondition _ ih =>
    exact (consumes_append hcondition.consumes ih.behind).next
  | block _ _ ih => exact (consumes_append ih (consumes_head _)).next
  | read => exact (consumes_append (target_consumes _ _) (consumes_head _)).behind.next
  | write _ hvalue => exact (consumes_append hvalue.consumes (consumes_head _)).behind.next
  | last _ ih => exact ih
  | next _ _ _ ihs ihr => exact consumes_append ihs ihr.behind

theorem Parse.program_consumes (eof : Token) (ts : List Token) :
    Consumes eof (program eof ts).1.tokens ts (program eof ts).2 := by
  by_cases hk : nextKind ts = .begin
  · cases ts with
    | nil => cases hk
    | cons t rest =>
      have ht : t.kind = .begin := hk
      rw [program_block ht]
      exact (consumes_append ((read_statement eof).2 rest).consumes
        (consumes_append (consumes_head _) (consumes_head _))).next
  · rw [program_bare hk]
    exact ⟨rfl, rfl⟩

/-! ## Literals are tokens of the source -/

/-- The literals of an expression. -/
def Expr.literals : {l : Level} → Expr l → List Token
  | _, .add left _ right => left.literals ++ right.literals
  | _, .term e => e.literals
  | _, .mul left _ right => left.literals ++ right.literals
  | _, .relation e => e.literals
  | _, .compare left _ right => left.literals ++ right.literals
  | _, .factor e => e.literals
  | _, .missing => []
  | _, .name _ => []
  | _, .literal tok => [tok]
  | _, .negation _ e => e.literals
  | _, .group _ e _ => e.literals

/-- The literals of a statement or of the inside of a block. -/
def Code.literals : {x : Extent} → Code x → List Token
  | _, .empty => []
  | _, .declare _ _ => []
  | _, .assign _ _ value => value.literals
  | _, .ifThen _ condition _ action => condition.literals ++ action.literals
  | _, .whileDo _ condition _ action => condition.literals ++ action.literals
  | _, .block _ inside _ => inside.literals
  | _, .read _ _ _ _ => []
  | _, .write _ _ value _ => value.literals
  | _, .done => []
  | _, .last s => s.literals
  | _, .next s _ rest => s.literals ++ rest.literals

def Program.literals : Program → List Token
  | .bare _ => []
  | .block _ inside _ _ => inside.literals

/-- Some tokens are among others, and are literals. -/
def Parse.Literals (found ts : List Token) : Prop := ∀ t ∈ found, t ∈ ts ∧ t.kind = .literal

namespace Parse.Literals

variable {found more ts mid : List Token}

theorem nil : Literals [] ts := List.forall_mem_nil _

theorem append (h : Literals found ts) (h' : Literals more ts) : Literals (found ++ more) ts :=
  List.forall_mem_append.2 ⟨h, h'⟩

theorem mono (h : Literals found mid) (hsub : mid ⊆ ts) : Literals found ts := fun t ht =>
  ⟨hsub (h t ht).1, (h t ht).2⟩

/-- Behind the token that was taken first. -/
theorem next {t : Token} (h : Literals found ts) : Literals found (t :: ts) := h.mono (List.subset_cons_self t ts)

/-- Behind a token that was taken unseen. -/
theorem behind (h : Literals found ts.tail) : Literals found ts := h.mono fun _ => List.mem_of_mem_tail

end Parse.Literals

theorem Expr.Read.literals {eof : Token} {l : Level} {e : Expr l} {ts rest : List Token} (h : e.Read eof ts rest) :
    Literals e.literals ts := by
  induction h with
  | add _ hleft _ ihl ihr | mul _ hleft _ ihl ihr | compare _ hleft _ ihl ihr =>
    exact ihl.append (ihr.next.mono hleft.consumes.subset)
  | term _ ih | relation _ ih | factor _ ih => exact ih
  | missing | name => exact .nil
  | @literal tok ts hk =>
    intro t ht
    obtain rfl := List.mem_singleton.1 ht
    exact ⟨List.mem_cons_self, hk⟩
  | negation _ _ ih | group _ _ ih => exact ih.next

theorem Code.Read.literals {eof : Token} {x : Extent} {c : Code x} {ts rest : List Token} (h : c.Read eof ts rest) :
    Literals c.literals ts := by
  induction h with
  | empty | declare | read | done => exact .nil
  | assign _ hvalue | write _ hvalue => exact hvalue.literals.behind.next
  | ifThen _ hcondition _ ih | whileDo _ hcondition _ ih =>
    exact (hcondition.literals.append (ih.behind.mono hcondition.consumes.subset)).next
  | block _ _ ih => exact ih.next
  | last _ ih => exact ih
  | next _ hs _ ihs ihr => exact ihs.append (ihr.behind.mono hs.consumes.subset)

/-- The literals of a program are tokens of its source, of the kind of literals. -/
theorem TokenSource.literals_parse (s : TokenSource) : Literals s.parse.1.literals s.tokens := by
  rw [TokenSource.parse]
  by_cases hk : nextKind s.tokens = .begin
  · cases hts : s.tokens with
    | nil => simp [hts, nextKind] at hk
    | cons t rest =>
      have ht : t.kind = .begin := by simpa [hts, nextKind] using hk
      rw [program_block ht]
      exact ((read_statement s.eof).2 rest).literals.next
  · rw [program_bare hk]
    exact .nil

end AlgolMips
