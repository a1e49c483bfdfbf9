import AlgolMips.Proofs.Acceptance
import AlgolMips.Proofs.Likeness
import AlgolMips.Proofs.Reading

/-!
# How much a lowering reads and leaves

Reading ends on every list of tokens, for no part of it gives back more tokens than it was given, and a part that is read
again and again takes a token each time. It does take end marks behind the last token, but only for tokens that
were there: a tree has at most three places for each token of the list and one more (`Parse.length_program`).

A walk leaves a bounded number of events for each place of its tree, so the events of a lowering are linear in the number
of tokens (`Program.atMost_lower`), and lines, productions and diagnostics are events. Tokens beyond the one behind the
program have no say in it (`lower_of_agreement`).
-/

namespace AlgolMips

open Gen Parse

/-! ## The size of what is read -/

theorem Expr.Read.length_le {eof : Token} {l : Level} {e : Expr l} {ts rest : List Token} (h : e.Read eof ts rest) :
    e.tokens.length + 3 * rest.length ≤ 3 * ts.length := by
  induction h with
  | add _ _ _ ihl ihr | mul _ _ _ ihl ihr | compare _ _ _ ihl ihr =>
    simp only [Expr.tokens, List.length_append, List.length_cons] at ihl ⊢
    omega
  | term _ ih | relation _ ih | factor _ ih => exact ih
  | missing => simp [Expr.tokens]
  | name | literal =>
    simp only [Expr.tokens, List.length_cons, List.length_nil]
    omega
  | negation _ _ ih =>
    simp only [Expr.tokens, List.length_cons]
    omega
  | group _ _ ih =>
    simp only [Expr.tokens, List.length_cons, List.length_append, List.length_nil, List.length_tail]
    omega

/-- The separator behind the last statement of a block may be an end mark that no token of the block accounts for. -/
def Extent.excess : Extent → List Token → Nat
  | .body, _ :: _ => 1
  | _, _ => 0

theorem Extent.excess_le (x : Extent) (ts : List Token) : x.excess ts ≤ 1 := by
  cases x <;> cases ts <;> simp [excess]

theorem Parse.length_target (ts : List Token) : (target ts).1.toList.length + (target ts).2.length = ts.length := by
  cases ts with
  | nil => rfl
  | cons t rest =>
    simp only [target]
    split
    · exact Nat.add_comm 1 _
    · exact Nat.zero_add _

theorem Code.Read.length_le {eof : Token} {x : Extent} {c : Code x} {ts rest : List Token} (h : c.Read eof ts rest) :
    c.tokens.length + 3 * rest.length ≤ 3 * ts.length + x.excess ts := by
  induction h with
  | empty | done => simp [Code.tokens]
  | declare =>
    simp only [Code.tokens, List.length_cons, List.length_nil, List.length_tail]
    omega
  | assign _ hvalue =>
    have hlength := hvalue.length_le
    simp only [Code.tokens, List.length_cons, List.length_tail] at hlength ⊢
    omega
  | ifThen _ hcondition _ ih | whileDo _ hcondition _ ih =>
    have hlength := hcondition.length_le
    simp only [Code.tokens, List.length_cons, List.length_append, List.length_tail, Extent.excess] at ih ⊢
    omega
  | @block _ _ ts _ _ _ ih =>
    have hexcess := Extent.body.excess_le ts
    simp only [Code.tokens, List.length_cons, List.length_append, List.length_nil, List.length_tail]
    omega
  | @read _ ts _ =>
    have hlength := length_target ts.tail
    simp only [Code.tokens, List.length_cons, List.length_append, List.length_nil, List.length_tail] at hlength ⊢
    omega
  | write _ hvalue =>
    have hlength := hvalue.length_le
    simp only [Code.tokens, List.length_cons, List.length_append, List.length_nil, List.length_tail] at hlength ⊢
    omega
  | last _ ih =>
    simp only [Code.tokens, Extent.excess] at ih ⊢
    omega
  | @next _ _ ts mid _ hne _ _ ihs ihr =>
    obtain ⟨t, more, rfl⟩ := List.exists_cons_of_ne_nil hne
    simp only [Code.tokens, List.length_append, List.length_cons, Extent.excess] at ihs ⊢
    -- behind the last token the block is at its end
    cases mid with
    | nil =>
      simp only [List.tail_nil, List.length_nil, Extent.excess] at ihs ihr
      omega
    | cons separator behind =>
      have hexcess := Extent.body.excess_le behind
      simp only [List.tail_cons, List.length_cons] at ihs ihr
      omega

/-- A program has at most three places for each token of the list that it is read from, and one more. -/
theorem Parse.length_program (eof : Token) (ts : List Token) :
    (program eof ts).1.tokens.length ≤ 3 * ts.length + 1 := by
  by_cases hk : nextKind ts = .begin
  · cases ts with
    | nil => cases hk
    | cons t rest =>
      have ht : t.kind = .begin := hk
      have hinside := ((read_statement eof).2 rest).length_le
      have hexcess := Extent.body.excess_le rest
      rw [program_block ht]
      simp only [Program.tokens, List.length_cons, List.length_append, List.length_nil]
      omega
  · rw [program_bare hk]
    simp [Program.tokens]

/-! ## The number of events -/

namespace Gen

variable {α β : Type} {a b : Nat}

/-- A walk leaves at most so many events. -/
def AtMost (n : Nat) (m : Gen α) : Prop := ∀ s, (m s).events.length ≤ n

theorem AtMost.bind {m : Gen α} {f : α → Gen β} (hm : AtMost a m) (hf : ∀ v, AtMost b (f v)) :
    AtMost (a + b) (m >>= f) := by
  intro s
  rw [events_bind, List.length_append]
  exact Nat.add_le_add (hm s) (hf _ _)

theorem AtMost.mono {m : Gen α} (hm : AtMost a m) (hab : a ≤ b) : AtMost b m :=
  fun s => Nat.le_trans (hm s) hab

/-- A step that leaves nothing. -/
theorem AtMost.skip {m : Gen α} {f : α → Gen β} (hm : AtMost 0 m) (hf : ∀ v, AtMost b (f v)) : AtMost b (m >>= f) :=
  (hm.bind hf).mono (Nat.le_of_eq (Nat.zero_add b))

theorem AtMost.ite {c : Prop} [Decidable c] {m m' : Gen α} (hm : AtMost a m) (hm' : AtMost a m') :
    AtMost a (if c then m else m') := by
  split
  · exact hm
  · exact hm'

theorem atMost_pure (v : α) : AtMost 0 (pure v : Gen α) := fun _ => Nat.le_refl 0

theorem atMost_tell (es : List Event) : AtMost es.length (tell es) :=
  fun s => Nat.le_of_eq (congrArg List.length (events_tell es s))

theorem atMost_emit {ls : List Mips.Line} (h : ls.length ≤ a) : AtMost a (emit ls) :=
  (atMost_tell (ls.map Event.line)).mono (by rwa [List.length_map])

theorem atMost_produce (r : Rule) : AtMost 1 (produce r) := atMost_tell _

theorem atMost_note (n : Note) : AtMost 1 (note n) := atMost_tell _

theorem atMost_report (tok : Token) (f : Fault) : AtMost 1 (report tok f) := atMost_tell _

theorem atMost_remark (tok : Token) (r : Remark) : AtMost 1 (remark tok r) := atMost_tell _

theorem atMost_expect (k : Kind) (tok : Token) : AtMost 1 (expect k tok) :=
  ((atMost_pure ()).mono (Nat.zero_le 1)).ite (atMost_report _ _)

theorem atMost_get : AtMost 0 get := fun _ => Nat.le_refl 0

theorem atMost_current : AtMost 0 current := fun _ => Nat.le_refl 0

theorem atMost_modify (f : GenState → GenState) : AtMost 0 (modify f) := fun _ => Nat.le_refl 0

theorem atMost_setCurrent (d : Operand) : AtMost 0 (setCurrent d) := atMost_modify _

theorem atMost_newTemp : AtMost 0 newTemp := fun _ => Nat.le_refl 0

theorem atMost_newLabel : AtMost 0 newLabel := fun _ => Nat.le_refl 0

theorem atMost_resolve (name : Text) : AtMost 0 (resolve name) := fun _ => Nat.le_refl 0

theorem atMost_declare (tok : Token) (ty : Ty) : AtMost 0 (declare tok ty) := by
  intro s
  unfold declare
  split <;> exact Nat.le_refl 0

/-! ### Expressions -/

theorem atMost_binary (remark : Text) (left right : Operand) (code : List Mips.Instr) (result : Ty) :
    AtMost (code.length + 4) (binary remark left right code result) := by
  unfold binary
  refine AtMost.mono ((atMost_emit (Nat.le_refl _)).bind fun _ => atMost_newTemp.skip fun _ =>
    (atMost_emit (Nat.le_refl 1)).bind fun _ => atMost_setCurrent _) ?_
  simp only [List.length_append, List.length_cons, List.length_nil, List.length_map]
  omega

theorem length_multiplicative (op : Text) : (multiplicative op).length ≤ 2 := by
  unfold multiplicative
  repeat' split
  all_goals decide

theorem length_relational (op : Text) : (relational op).length = 1 := by
  unfold relational
  repeat' split
  all_goals rfl

theorem atMost_add (op : Token) (left right : Operand) : AtMost 5 (add op left right) := by
  unfold add
  exact AtMost.ite (atMost_binary _ _ _ _ _) ((atMost_report _ _).mono (show 1 ≤ 5 by decide))

theorem atMost_mul (op : Token) (left right : Operand) : AtMost 6 (mul op left right) := by
  unfold mul
  have hlength := length_multiplicative op.value
  exact ((atMost_binary _ _ _ _ _).mono (by omega)).ite ((atMost_report _ _).mono (by decide))

theorem atMost_compare (op : Token) (left right : Operand) : AtMost 5 (Gen.compare op left right) := by
  unfold Gen.compare
  have hlength := length_relational op.value
  exact ((atMost_setCurrent _).mono (by decide)).ite
    (((atMost_report _ _).mono (by decide)).ite ((atMost_binary _ _ _ _ _).mono (by omega)))

theorem atMost_negate (op : Token) (d : Operand) : AtMost 4 (negate op d) := by
  unfold negate
  exact ((atMost_report _ _).mono (by decide)).ite (atMost_emit (Nat.le_refl 4))

theorem atMost_literal (lexeme : Text) : AtMost 3 (literal lexeme) := by
  unfold literal
  split
  · exact atMost_newLabel.skip fun _ => (atMost_emit (Nat.le_refl 3)).bind fun _ => atMost_setCurrent _
  · exact atMost_newTemp.skip fun _ => (atMost_emit (Nat.le_refl 3)).bind fun _ => atMost_setCurrent _

theorem atMost_reference (tok : Token) : AtMost 2 (reference tok) := by
  unfold reference
  refine AtMost.bind (a := 1) (b := 1) (atMost_produce _) fun _ => (atMost_resolve _).skip fun found => ?_
  cases found with
  | ok v => exact ((atMost_setCurrent _).skip fun _ => atMost_pure true).mono (Nat.zero_le 1)
  | error e => exact (atMost_report _ _).bind fun _ => atMost_pure false

end Gen

/-- The productions from a layer of expressions down to a factor. -/
def Level.depth : Level → Nat
  | .expression => 4
  | .term => 3
  | .relation => 2
  | .factor => 1

theorem Expr.atMost_lower {l : Level} (e : Expr l) : AtMost (8 * e.tokens.length + l.depth) e.lower := by
  induction e with
  | add left op right ihl ihr =>
    rw [Expr.lower]
    refine AtMost.mono (ihl.bind fun _ => atMost_current.skip fun _ => ihr.bind fun _ => atMost_current.skip fun _ =>
      atMost_add _ _ _) ?_
    simp only [Expr.tokens, List.length_append, List.length_cons, Level.depth]
    omega
  | term e ih =>
    rw [Expr.lower]
    refine AtMost.mono ((atMost_produce _).bind fun _ => ih) ?_
    simp only [Expr.tokens, Level.depth]
    omega
  | mul left op right ihl ihr =>
    rw [Expr.lower]
    refine AtMost.mono (ihl.bind fun _ => atMost_current.skip fun _ => ihr.bind fun _ => atMost_current.skip fun _ =>
      atMost_mul _ _ _) ?_
    simp only [Expr.tokens, List.length_append, List.length_cons, Level.depth]
    omega
  | relation e ih =>
    rw [Expr.lower]
    refine AtMost.mono ((atMost_produce _).bind fun _ => ih) ?_
    simp only [Expr.tokens, Level.depth]
    omega
  | compare left op right ihl ihr =>
    rw [Expr.lower]
    refine AtMost.mono ((atMost_produce _).bind fun _ => ihl.bind fun _ => atMost_current.skip fun _ => ihr.bind fun _ =>
      atMost_current.skip fun _ => atMost_compare _ _ _) ?_
    simp only [Expr.tokens, List.length_append, List.length_cons, Level.depth]
    omega
  | factor e ih =>
    rw [Expr.lower]
    refine AtMost.mono ((atMost_produce _).bind fun _ => ih) ?_
    simp only [Expr.tokens, Level.depth]
    omega
  | missing => exact atMost_produce _
  | name tok =>
    rw [Expr.lower]
    refine AtMost.mono ((atMost_produce _).bind fun _ => (atMost_reference tok).bind fun _ => atMost_pure _) ?_
    simp [Expr.tokens, Level.depth]
  | literal tok =>
    rw [Expr.lower]
    refine AtMost.mono ((atMost_produce _).bind fun _ => atMost_literal _) ?_
    simp [Expr.tokens, Level.depth]
  | negation op e ih =>
    rw [Expr.lower]
    refine AtMost.mono ((atMost_produce _).bind fun _ => ih.bind fun _ => atMost_current.skip fun _ => atMost_negate _ _) ?_
    simp only [Expr.tokens, List.length_cons, Level.depth]
    omega
  | group opening e closing ih =>
    rw [Expr.lower]
    refine AtMost.mono ((atMost_produce _).bind fun _ => ih.bind fun _ => atMost_expect _ _) ?_
    simp only [Expr.tokens, List.length_cons, List.length_append, List.length_nil, Level.depth]
    omega

/-! ### Statements -/

namespace Gen

variable {a b : Nat}

theorem atMost_enter (n : Note) : AtMost 2 (enter n) := (atMost_produce _).bind fun _ => atMost_note n

theorem atMost_declaration (type name : Token) : AtMost 4 (declaration type name) := by
  have hdeclare {k : Except NameError Variable → Gen Unit} (hok : ∀ v, AtMost 0 (k (.ok v)))
      (herror : ∀ e, AtMost 1 (k (.error e))) : AtMost 1 (declare name (Ty.ofKeyword type.value) >>= k) := by
    refine (atMost_declare _ _).skip fun outcome => ?_
    cases outcome with
    | ok v => exact (hok v).mono (by decide)
    | error e => exact herror e
  unfold declaration
  refine AtMost.bind (a := 1) (b := 3) (atMost_produce _) fun _ => ?_
  refine AtMost.bind (a := 1) (b := 2) (atMost_expect _ _) fun _ => ?_
  refine AtMost.ite (atMost_get.skip fun s => ?_) ((atMost_pure ()).mono (by decide))
  cases s.table.shadowed? name.value with
  | some previous =>
    exact (atMost_remark _ _).bind fun _ => hdeclare (fun _ => atMost_pure ()) fun _ => atMost_report _ _
  | none => exact (hdeclare (fun _ => atMost_pure ()) fun _ => atMost_report _ _).mono (by decide)

theorem atMost_storeIn (target : Token) (v : Variable) : AtMost 3 (storeIn target v) := by
  unfold storeIn
  exact atMost_current.skip fun _ => (atMost_emit (Nat.le_refl 3)).ite ((atMost_report _ _).mono (by decide))

theorem atMost_assignment {value : Gen Unit} (hvalue : AtMost a value) (target sign : Token) :
    AtMost (a + 7) (assignment target sign value) := by
  unfold assignment
  refine AtMost.mono ((atMost_produce _).bind fun _ => AtMost.skip (b := a + 6) (atMost_resolve _) fun found => ?_)
    (by omega)
  cases found with
  | ok v =>
    exact AtMost.mono ((atMost_reference _).bind fun _ => (atMost_expect _ _).bind fun _ => hvalue.bind fun _ =>
      atMost_storeIn _ _) (by omega)
  | error e =>
    exact AtMost.mono ((atMost_report _ _).bind fun _ => (atMost_expect _ _).bind fun _ => hvalue) (by omega)

theorem atMost_expectCondition (tok : Token) (g : Guarded) : AtMost 1 (expectCondition tok g) := by
  unfold expectCondition
  exact atMost_current.skip fun _ => ((atMost_pure ()).mono (by decide)).ite (atMost_report _ _)

theorem atMost_conditional {condition action : Gen Unit} (hcondition : AtMost a condition) (haction : AtMost b action)
    (opening middle : Token) : AtMost (a + b + 7) (conditional opening middle condition action) := by
  unfold conditional
  refine AtMost.mono ((atMost_produce _).bind fun _ => hcondition.bind fun _ => (atMost_expectCondition _ _).bind fun _ =>
    atMost_newLabel.skip fun _ => atMost_current.skip fun _ => (atMost_emit (Nat.le_refl 3)).bind fun _ =>
    (atMost_expect _ _).bind fun _ => haction.bind fun _ => atMost_emit (Nat.le_refl 1)) ?_
  omega

theorem atMost_loop {condition action : Gen Unit} (hcondition : AtMost a condition) (haction : AtMost b action)
    (opening middle : Token) : AtMost (a + b + 9) (loop opening middle condition action) := by
  unfold loop
  refine AtMost.mono ((atMost_produce _).bind fun _ => atMost_newLabel.skip fun _ => atMost_newLabel.skip fun _ =>
    (atMost_emit (Nat.le_refl 2)).bind fun _ => hcondition.bind fun _ => (atMost_expect _ _).bind fun _ =>
    (atMost_expectCondition _ _).bind fun _ => atMost_current.skip fun _ => (atMost_emit (Nat.le_refl 2)).bind fun _ =>
    haction.bind fun _ => atMost_emit (Nat.le_refl 2)) ?_
  omega

theorem atMost_block {inside : Gen Unit} (hinside : AtMost a inside) (closing : Token) :
    AtMost (a + 2) (block closing inside) := by
  unfold block
  refine AtMost.mono ((atMost_produce _).bind fun _ => (atMost_modify _).skip fun _ => hinside.bind fun _ =>
    (atMost_expect _ _).bind fun _ => atMost_modify _) ?_
  omega

theorem atMost_readCurrent (keyword : Token) : AtMost 5 (readCurrent keyword) := by
  unfold readCurrent
  refine atMost_current.skip fun d => AtMost.ite ?_ ((atMost_report _ _).mono (by decide))
  exact AtMost.bind (a := 1) (b := 4) (atMost_note _) fun _ => atMost_emit (Nat.le_refl 4)

theorem atMost_read (keyword opening : Token) (target : Option Token) (closing : Token) :
    AtMost 10 (read keyword opening target closing) := by
  unfold read
  refine AtMost.bind (a := 1) (b := 9) (atMost_produce _) fun _ => ?_
  refine AtMost.bind (a := 1) (b := 8) (atMost_expect _ _) fun _ => ?_
  cases target with
  | none => exact AtMost.mono ((atMost_produce _).bind fun _ => atMost_expect _ _) (by decide)
  | some tok =>
    refine AtMost.bind (a := 2) (b := 6) (atMost_reference tok) fun found => ?_
    cases found with
    | true => exact (atMost_readCurrent _).bind fun _ => atMost_expect _ _
    | false => exact AtMost.mono ((atMost_pure ()).skip fun _ => atMost_expect _ _) (by decide)

theorem length_printLines {statement : Text} {d : Operand} {ls : List Mips.Line}
    (h : printLines statement d = some ls) : ls.length = 5 := by
  unfold printLines at h
  split at h <;> cases h <;> rfl

theorem atMost_write {value : Gen Unit} (hvalue : AtMost a value) (keyword opening closing : Token) :
    AtMost (a + 13) (write keyword opening value closing) := by
  unfold write
  refine AtMost.mono ((atMost_produce _).bind fun _ => (atMost_expect _ _).bind fun _ => hvalue.bind fun _ =>
    (atMost_note _).bind fun _ => AtMost.skip (b := 10) atMost_current fun d => ?_) (by omega)
  cases h : printLines _ d with
  | some ls =>
    refine AtMost.bind (a := 9) (b := 1) (atMost_emit ?_) fun _ => atMost_expect _ _
    have hlength := length_printLines h
    split
    · rw [List.length_append, hlength]
      decide
    · rw [hlength]
      decide
  | none => exact AtMost.mono ((atMost_pure ()).skip fun _ => atMost_expect _ _) (by decide)

end Gen

/-- The events of a statement, or of the inside of a block. -/
theorem Code.atMost_lower {x : Extent} (c : Code x) : AtMost (8 * c.tokens.length + 1) c.lower := by
  induction c with
  | empty => exact atMost_produce _
  | declare type name =>
    rw [Code.lower]
    exact AtMost.mono ((atMost_enter _).bind fun _ => atMost_declaration _ _) (by simp [Code.tokens])
  | assign target sign value =>
    rw [Code.lower]
    refine AtMost.mono ((atMost_enter _).bind fun _ => atMost_assignment value.atMost_lower _ _) ?_
    simp only [Code.tokens, List.length_cons, Level.depth]
    omega
  | ifThen opening condition middle action ih =>
    rw [Code.lower]
    refine AtMost.mono ((atMost_enter _).bind fun _ => atMost_conditional condition.atMost_lower ih _ _) ?_
    simp only [Code.tokens, List.length_cons, List.length_append, Level.depth]
    omega
  | whileDo opening condition middle action ih =>
    rw [Code.lower]
    refine AtMost.mono ((atMost_enter _).bind fun _ => atMost_loop condition.atMost_lower ih _ _) ?_
    simp only [Code.tokens, List.length_cons, List.length_append, Level.depth]
    omega
  | block opening inside closing ih =>
    rw [Code.lower]
    refine AtMost.mono ((atMost_enter _).bind fun _ => atMost_block ih _) ?_
    simp only [Code.tokens, List.length_cons, List.length_append, List.length_nil]
    omega
  | read keyword opening target closing =>
    rw [Code.lower]
    refine AtMost.mono ((atMost_enter _).bind fun _ => atMost_read _ _ _ _) ?_
    simp only [Code.tokens, List.length_cons, List.length_append, List.length_nil]
    omega
  | write keyword opening value closing =>
    rw [Code.lower]
    refine AtMost.mono ((atMost_enter _).bind fun _ => atMost_write value.atMost_lower _ _ _) ?_
    simp only [Code.tokens, List.length_cons, List.length_append, List.length_nil, Level.depth]
    omega
  | done => exact (atMost_pure ()).mono (Nat.zero_le _)
  | last s ih => exact ih
  | next s separator rest ihs ihr =>
    rw [Code.lower]
    refine AtMost.mono (ihs.bind fun _ => (atMost_expect _ _).bind fun _ => ihr) ?_
    simp only [Code.tokens, List.length_append, List.length_cons]
    omega

/-- A program with its prolog and postlog. -/
theorem Program.atMost_lower (p : Program) (next : Token) : AtMost (8 * p.tokens.length + 30) (p.lower next) := by
  have hbody : AtMost (8 * p.tokens.length + 4) p.body := by
    cases p with
    | bare stop =>
      rw [Program.body]
      exact AtMost.mono ((atMost_produce _).bind fun _ => atMost_expect _ _) (by simp [Program.tokens])
    | block opening inside closing stop =>
      rw [Program.body]
      refine AtMost.mono ((atMost_block inside.atMost_lower _).bind fun _ => atMost_expect _ _) ?_
      simp only [Program.tokens, List.length_cons, List.length_append, List.length_nil]
      omega
  have hlast : AtMost 1 (if next.isEof then pure () else remark next .trailing) :=
    ((atMost_pure ()).mono (by decide)).ite (atMost_remark _ _)
  unfold Program.lower
  refine AtMost.mono ((atMost_produce _).bind fun _ => (atMost_note _).bind fun _ =>
    AtMost.bind (a := Mips.prolog.length) (atMost_emit (Nat.le_refl _)) fun _ => hbody.bind fun _ =>
    AtMost.bind (a := Mips.postlog.length) (atMost_emit (Nat.le_refl _)) fun _ => hlast) ?_
  have hprolog : Mips.prolog.length = 9 := rfl
  have hpostlog : Mips.postlog.length = 13 := rfl
  omega

/-! ## Tokens that have no say -/

@[simp] theorem Expr.map_id {l : Level} (e : Expr l) : e.map id = e := by
  induction e with
  | add left op right ihl ihr => simp [Expr.map, ihl, ihr]
  | term e ih => simp [Expr.map, ih]
  | mul left op right ihl ihr => simp [Expr.map, ihl, ihr]
  | relation e ih => simp [Expr.map, ih]
  | compare left op right ihl ihr => simp [Expr.map, ihl, ihr]
  | factor e ih => simp [Expr.map, ih]
  | missing => rfl
  | name tok => rfl
  | literal tok => rfl
  | negation op e ih => simp [Expr.map, ih]
  | group opening e closing ih => simp [Expr.map, ih]

@[simp] theorem Code.map_id {x : Extent} (c : Code x) : c.map id = c := by
  induction c with
  | empty => rfl
  | declare type name => rfl
  | assign target sign value => simp [Code.map]
  | ifThen opening condition middle action ih => simp [Code.map, ih]
  | whileDo opening condition middle action ih => simp [Code.map, ih]
  | block opening inside closing ih => simp [Code.map, ih]
  | read keyword opening target closing => simp [Code.map]
  | write keyword opening value closing => simp [Code.map]
  | done => rfl
  | last s ih => simp [Code.map, ih]
  | next s separator rest ihs ihr => simp [Code.map, ihs, ihr]

theorem Program.map_id (p : Program) : p.map id = p := by
  cases p with
  | bare stop => rfl
  | block opening inside closing stop => simp [Program.map]

/-- The number of tokens that are asked for: those of the program, end marks among them, and the one behind it. -/
def TokenSource.asked (s : TokenSource) : Nat := s.parse.1.tokens.length + 1

/-- A source with the same tokens as far as they are asked for is lowered in the same way. -/
theorem lower_of_agreement {s s' : TokenSource} (h : ∀ i < s.asked, s.token i = s'.token i) (wordSize : Int64) :
    (lower wordSize s').events = (lower wordSize s).events ∧ (lower wordSize s').state = (lower wordSize s).state ∧
      (lower wordSize s').exhausted = (lower wordSize s).exhausted := by
  have htelling : Telling id := ⟨fun h => congrArg Token.kind h, fun h _ => by rw [id, id] at h; rw [h]⟩
  obtain ⟨hprogram, hrest⟩ := TokenSource.parse_alikeTo (n := 0) htelling fun i hi => h i (Nat.lt_succ_of_le hi)
  rw [Program.map_id, Program.map_id] at hprogram
  have hnext : s.parse.2.headD s.eof = s'.parse.2.headD s'.eof := hrest.head
  have hkind : nextKind s.parse.2 = nextKind s'.parse.2 := hrest.nextKind_eq htelling rfl rfl
  refine ⟨?_, ?_, ?_⟩
  · simp only [lower, hprogram, hnext]
  · simp only [lower, hprogram, hnext]
  · exact congrArg (fun k => decide (k = Kind.eof)) hkind.symm

/-- The tokens that are asked for come from the source one after the other. -/
theorem TokenSource.tokens_asked (s : TokenSource) :
    s.parse.1.tokens ++ [s.parse.2.headD s.eof] = (List.range s.asked).map s.token := by
  have htaken := (consumes_append (program_consumes s.eof s.tokens) (consumes_head _)).eq_range.1
  rw [List.length_append, List.length_singleton, ← List.range_eq_range'] at htaken
  exact htaken

/-- Every list of tokens is lowered, whatever tokens it holds, and what is read and left is linear in its length. The
tokens that are asked for come from the source one after the other, and no other token has a say. -/
theorem lowering_linear (wordSize : Int64) (source : TokenSource) :
    let n := source.tokens.length
    let t := lower wordSize source
    source.asked ≤ 3 * n + 2 ∧
      t.derivation.length ≤ 24 * n + 38 ∧ t.diagnostics.length ≤ 24 * n + 38 ∧ t.lines.length ≤ 24 * n + 38 ∧
      source.parse.1.tokens ++ [t.rest.headD source.eof] = (List.range source.asked).map source.token ∧
      ∀ source', (∀ i < source.asked, source.token i = source'.token i) →
        (lower wordSize source').events = t.events ∧ (lower wordSize source').state = t.state ∧
          (lower wordSize source').exhausted = t.exhausted := by
  intro n t
  have hread : source.parse.1.tokens.length ≤ 3 * n + 1 := length_program source.eof source.tokens
  have hevents : t.events.length ≤ 24 * n + 38 := by
    have hleft := source.parse.1.atMost_lower (source.parse.2.headD source.eof) { frame := { wordSize } }
    exact Nat.le_trans hleft (by omega)
  refine ⟨Nat.succ_le_succ hread, ?_, ?_, ?_, source.tokens_asked, fun source' h => lower_of_agreement h wordSize⟩
  · rw [Lowering.derivation, List.length_map]
    exact Nat.le_trans (List.length_filterMap_le _ _) hevents
  · exact Nat.le_trans (List.length_filterMap_le _ _) hevents
  · exact Nat.le_trans (List.length_filterMap_le _ _) hevents

/-- A program that breaks off where its block begins. -/
def begun : TokenSource := { tokens := [.plain .begin "begin"] }

theorem parse_begun : begun.parse = (.block (.plain .begin "begin") .done {} {}, []) := by
  have hprogram : begun.parse = _ := @program_block {} (.plain .begin "begin") [] rfl
  rw [hprogram, body_done (.inr rfl)]
  rfl

/-- Three end marks are asked for behind the only token, and what stands behind them is not seen. -/
theorem begun_asked :
    let source : TokenSource := { tokens := [.plain .begin "begin", {}, {}, {}, .plain .ident "x"] }
    begun.asked = 4 ∧ (lower 4 source).events = (lower 4 begun).events ∧
      (lower 4 begun).diagnostics.length = 2 ∧ (lower 4 source).exhausted := by
  intro source
  have hasked : begun.asked = 4 := by
    rw [TokenSource.asked, parse_begun]
    rfl
  obtain ⟨-, -, -, -, -, hsame⟩ := lowering_linear 4 begun
  obtain ⟨hevents, -, hexhausted⟩ := hsame source fun i hi => by
    rw [hasked] at hi
    match i, hi with
    | 0, _ | 1, _ | 2, _ | 3, _ => rfl
  refine ⟨hasked, hevents, ?_, ?_⟩
  · rw [lower, parse_begun]
    decide +kernel
  · rw [hexhausted, lower, parse_begun]
    rfl

end AlgolMips
