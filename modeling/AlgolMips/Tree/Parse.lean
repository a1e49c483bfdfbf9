import AlgolMips.Tree

/-!
# Parsing

A list of tokens is read into a tree and a rest. Reading never fails: a token of the wrong kind is taken in place of the
one that the grammar asks for, and behind the last token there is an end mark as often as it is asked for. No function
gives back more tokens than it was given, which is why reading ends.
-/

namespace AlgolMips

/-- Tokens in order, and the place that the end mark behind them reports. -/
structure TokenSource where
  tokens : List Token
  file : Int := 0
  line : Int := 0
  column : Int := 0

/-- The end mark: a token of kind `eof` without a text. -/
def TokenSource.eof (s : TokenSource) : Token := { file := s.file, line := s.line, column := s.column }

namespace Parse

/-- A tree and the tokens behind it, which are no more than there were. -/
abbrev Parsed (α : Type) (ts : List Token) := { p : α × List Token // p.2.length ≤ ts.length }

/-- The kind of the next token. -/
def nextKind : List Token → Kind
  | [] => .eof
  | t :: _ => t.kind

theorem length_tail_le (ts : List Token) : ts.tail.length ≤ ts.length := by
  simp

theorem length_tail_lt {ts rest : List Token} {t : Token} (h : ts.length ≤ (t :: rest).length) :
    ts.tail.length < (t :: rest).length := by
  simp only [List.length_cons, List.length_tail] at *
  omega

variable (eof : Token)

mutual

def expression (ts : List Token) : Parsed (Expr .expression) ts :=
  let first := term ts
  let all := expressionTail (.term first.val.1) first.val.2
  ⟨all.val, Nat.le_trans all.property first.property⟩
termination_by (ts.length, 6)
decreasing_by
  · exact Prod.Lex.right _ (by decide)
  · exact Prod.Lex.right' _ first.property (by decide)

/-- The operators and terms behind an expression. -/
def expressionTail (left : Expr .expression) (ts : List Token) : Parsed (Expr .expression) ts :=
  match ts with
  | [] => ⟨(left, []), Nat.le_refl _⟩
  | t :: rest =>
    if t.kind = .addOp then
      let right := term rest
      let all := expressionTail (.add left t right.val.1) right.val.2
      ⟨all.val, Nat.le_trans all.property (Nat.le_succ_of_le right.property)⟩
    else ⟨(left, t :: rest), Nat.le_refl _⟩
termination_by (ts.length, 5)
decreasing_by
  · exact Prod.Lex.left _ _ (Nat.lt_succ_self _)
  · exact Prod.Lex.left _ _ (Nat.lt_succ_of_le right.property)

def term (ts : List Token) : Parsed (Expr .term) ts :=
  let first := relation ts
  let all := termTail (.relation first.val.1) first.val.2
  ⟨all.val, Nat.le_trans all.property first.property⟩
termination_by (ts.length, 4)
decreasing_by
  · exact Prod.Lex.right _ (by decide)
  · exact Prod.Lex.right' _ first.property (by decide)

/-- The operators and relations behind a term. -/
def termTail (left : Expr .term) (ts : List Token) : Parsed (Expr .term) ts :=
  match ts with
  | [] => ⟨(left, []), Nat.le_refl _⟩
  | t :: rest =>
    if t.kind = .mulOp then
      let right := relation rest
      let all := termTail (.mul left t right.val.1) right.val.2
      ⟨all.val, Nat.le_trans all.property (Nat.le_succ_of_le right.property)⟩
    else ⟨(left, t :: rest), Nat.le_refl _⟩
termination_by (ts.length, 3)
decreasing_by
  · exact Prod.Lex.left _ _ (Nat.lt_succ_self _)
  · exact Prod.Lex.left _ _ (Nat.lt_succ_of_le right.property)

def relation (ts : List Token) : Parsed (Expr .relation) ts :=
  let left := factor ts
  match h : left.val.2 with
  | [] => ⟨(.factor left.val.1, []), Nat.zero_le _⟩
  | t :: rest =>
    if t.kind = .relOp then
      let right := factor rest
      ⟨(.compare left.val.1 t right.val.1, right.val.2), by
        have := left.property
        have := right.property
        simp_all
        omega⟩
    else ⟨(.factor left.val.1, t :: rest), h ▸ left.property⟩
termination_by (ts.length, 2)
decreasing_by
  · exact Prod.Lex.right _ (by decide)
  · have := left.property
    rw [h] at this
    exact Prod.Lex.left _ _ this

def factor (ts : List Token) : Parsed (Expr .factor) ts :=
  match ts with
  | [] => ⟨(.missing, []), Nat.le_refl _⟩
  | t :: rest =>
    match t.kind with
    | .ident => ⟨(.name t, rest), Nat.le_succ _⟩
    | .literal => ⟨(.literal t, rest), Nat.le_succ _⟩
    | .not =>
      let e := factor rest
      ⟨(.negation t e.val.1, e.val.2), Nat.le_succ_of_le e.property⟩
    | .lparen =>
      let e := expression rest
      ⟨(.group t e.val.1 (e.val.2.headD eof), e.val.2.tail),
        Nat.le_trans (length_tail_le _) (Nat.le_succ_of_le e.property)⟩
    | _ => ⟨(.missing, t :: rest), Nat.le_refl _⟩
termination_by (ts.length, 1)
decreasing_by
  · exact Prod.Lex.left _ _ (Nat.lt_succ_self _)
  · exact Prod.Lex.left _ _ (Nat.lt_succ_self _)

end

/-- An expression between the token in front of it and the token behind it, the second taken whatever it is. -/
def enclosed (ts : List Token) : Parsed (Expr .expression × Token) ts :=
  let e := expression eof ts
  ⟨((e.val.1, e.val.2.headD eof), e.val.2.tail), Nat.le_trans (length_tail_le _) e.property⟩

/-- A declaration behind its type keyword. -/
def declaration (type : Token) (ts : List Token) : Parsed Stmt ts :=
  ⟨(.declare type (ts.headD eof), ts.tail), length_tail_le ts⟩

/-- An assignment behind its target. -/
def assignment (target : Token) (ts : List Token) : Parsed Stmt ts :=
  let value := expression eof ts.tail
  ⟨(.assign target (ts.headD eof) value.val.1, value.val.2), Nat.le_trans value.property (length_tail_le ts)⟩

/-- The target of a `read`: an identifier, or nothing where there is none. -/
def target : List Token → Option Token × List Token
  | [] => (none, [])
  | t :: rest => if t.kind = .ident then (some t, rest) else (none, t :: rest)

theorem length_target_le (ts : List Token) : (target ts).2.length ≤ ts.length := by
  unfold target
  split
  · simp
  · split <;> simp

/-- An input or output statement behind its keyword. Only the keyword `read` asks for a variable. -/
def inout (keyword : Token) (ts : List Token) : Parsed Stmt ts :=
  if keyword.value = "read" then
    let found := target ts.tail
    ⟨(.read keyword (ts.headD eof) found.1 (found.2.headD eof), found.2.tail),
      Nat.le_trans (length_tail_le _) (Nat.le_trans (length_target_le _) (length_tail_le ts))⟩
  else
    let value := enclosed eof ts.tail
    ⟨(.write keyword (ts.headD eof) value.val.1.1 value.val.1.2, value.val.2),
      Nat.le_trans value.property (length_tail_le ts)⟩

mutual

def statement (ts : List Token) : Parsed Stmt ts :=
  match ts with
  | [] => ⟨(.empty, []), Nat.le_refl _⟩
  | t :: rest =>
    match t.kind with
    | .typeName =>
      let s := declaration eof t rest
      ⟨s.val, Nat.le_succ_of_le s.property⟩
    | .ident =>
      let s := assignment eof t rest
      ⟨s.val, Nat.le_succ_of_le s.property⟩
    | .if =>
      let condition := enclosed eof rest
      let action := statement condition.val.2
      ⟨(.ifThen t condition.val.1.1 condition.val.1.2 action.val.1, action.val.2),
        Nat.le_succ_of_le (Nat.le_trans action.property condition.property)⟩
    | .begin =>
      let inside := body rest
      ⟨(.block t inside.val.1 (inside.val.2.headD eof), inside.val.2.tail),
        Nat.le_succ_of_le (Nat.le_trans (length_tail_le _) inside.property)⟩
    | .while =>
      let condition := enclosed eof rest
      let action := statement condition.val.2
      ⟨(.whileDo t condition.val.1.1 condition.val.1.2 action.val.1, action.val.2),
        Nat.le_succ_of_le (Nat.le_trans action.property condition.property)⟩
    | .inout =>
      let s := inout eof t rest
      ⟨s.val, Nat.le_succ_of_le s.property⟩
    | _ => ⟨(.empty, t :: rest), Nat.le_refl _⟩
termination_by (ts.length, 1)
decreasing_by
  · exact Prod.Lex.left _ _ (Nat.lt_succ_of_le condition.property)
  · exact Prod.Lex.left _ _ (Nat.lt_succ_self _)
  · exact Prod.Lex.left _ _ (Nat.lt_succ_of_le condition.property)

/-- The inside of a block: it reaches up to an `end` or an end mark where a statement could start. -/
def body (ts : List Token) : Parsed Body ts :=
  match ts with
  | [] => ⟨(.done, []), Nat.le_refl _⟩
  | t :: rest =>
    if t.kind = .end ∨ t.kind = .eof then ⟨(.done, t :: rest), Nat.le_refl _⟩
    else
      let s := statement (t :: rest)
      if nextKind s.val.2 = .end then ⟨(.last s.val.1, s.val.2), s.property⟩
      else
        let more := body s.val.2.tail
        ⟨(.next s.val.1 (s.val.2.headD eof) more.val.1, more.val.2),
          Nat.le_trans more.property (Nat.le_trans (length_tail_le _) s.property)⟩
termination_by (ts.length, 2)
decreasing_by
  · exact Prod.Lex.right _ (by decide)
  · exact Prod.Lex.left _ _ (length_tail_lt s.property)

end

/-- A program and the tokens behind its final dot. -/
def program (ts : List Token) : Program × List Token :=
  match ts with
  | [] => (.bare eof, [])
  | t :: rest =>
    if t.kind = .begin then
      let inside := body eof rest
      let behind := inside.val.2.tail
      (.block t inside.val.1 (inside.val.2.headD eof) (behind.headD eof), behind.tail)
    else (.bare t, rest)

end Parse

/-- The program that a source spells, and the tokens behind it. -/
def TokenSource.parse (s : TokenSource) : Program × List Token := Parse.program s.eof s.tokens

end AlgolMips
