import AlgolMips.Proofs.Acceptance
import AlgolMips.Proofs.Reading

/-!
# Where diagnostics stand

A diagnostic is a cause and a token. Each cause is found in one place of the grammar, at a token of one kind: a name that
is wrong at an identifier, operands that do not go together at their operator, and so on. `Diagnostic.Apt` is this table,
with what the cause says about the token and the types. All diagnostics of a lowering are apt, however the tokens go wrong
(`apt_lower`): the statements and operators of a tree are read from tokens of their kinds, and the tokens that may be of any
kind are those that a kind is asked for.

So the cause of a diagnostic can be told from its class and its token: a type mismatch at a multiplicative operator comes
from a term (`Diagnostic.Apt.mulOp_iff`).
-/

namespace AlgolMips

open Gen

/-- A diagnostic stands at a token of the kind that its cause is found at, and the cause says what is so. -/
def Diagnostic.Apt (d : Diagnostic) : Prop :=
  match d.fault with
  | .expected k found => found = d.token ∧ d.token.kind ≠ k
  | .name _ => d.token.kind = .ident
  | .assignment value target => d.token.kind = .ident ∧ ¬ target.ty.assignable value
  | .condition .conditional found => d.token.kind = .if ∧ ¬ found.isCondition
  | .condition .loop found => d.token.kind = .while ∧ ¬ found.isCondition
  | .addition op left right => d.token.kind = .addOp ∧ op = d.token.value ∧ ¬ left.combines right
  | .multiplication op left right => d.token.kind = .mulOp ∧ op = d.token.value ∧ ¬ left.combines right
  | .comparison left op => d.token.kind = .relOp ∧ op = d.token.value ∧ left = .string
  | .negation _ => d.token.kind = .not
  | .reading _ => d.token.kind = .inout

/-- Of all causes only one is a type mismatch at a multiplicative operator. -/
theorem Diagnostic.Apt.mulOp_iff {d : Diagnostic} (h : d.Apt) :
    (d.fault.kind = .typeMismatch ∧ d.token.kind = .mulOp) ↔
      ∃ op left right, d.fault = .multiplication op left right := by
  obtain ⟨tok, f⟩ := d
  constructor
  · rintro ⟨hclass, hkind : tok.kind = .mulOp⟩
    unfold Apt at h
    cases f with
    | multiplication op left right => exact ⟨op, left, right, rfl⟩
    | expected => cases hclass
    | condition g found => cases g <;> exact absurd (hkind.symm.trans h.1) (by decide)
    | name | negation | reading => exact absurd (hkind.symm.trans h) (by decide)
    | assignment | addition | comparison => exact absurd (hkind.symm.trans h.1) (by decide)
  · rintro ⟨op, left, right, rfl : f = _⟩
    exact ⟨rfl, h.1⟩

/-! ## Walks -/

namespace Gen

variable {α β : Type}

/-- A walk leaves apt diagnostics only. -/
def Apt (m : Gen α) : Prop := ∀ s d, Event.fault d ∈ (m s).events → d.Apt

theorem Apt.bind {m : Gen α} {f : α → Gen β} (hm : Apt m) (hf : ∀ a, Apt (f a)) : Apt (m >>= f) := by
  intro s d hd
  rw [events_bind, List.mem_append] at hd
  exact hd.elim (hm s d) (hf _ _ d)

/-- A walk that leaves nothing. -/
theorem apt_silent {m : Gen α} (h : ∀ s, (m s).events = []) : Apt m := by
  intro s d hd
  rw [h s] at hd
  cases hd

theorem apt_tell {es : List Event} (h : ∀ d, Event.fault d ∈ es → d.Apt) : Apt (tell es) := by
  intro s d hd
  rw [events_tell] at hd
  exact h d hd

theorem apt_pure (a : α) : Apt (pure a : Gen α) := apt_silent fun _ => rfl

theorem apt_emit (ls : List Mips.Line) : Apt (emit ls) := apt_tell (by simp)

theorem apt_produce (r : Rule) : Apt (produce r) := apt_tell (by simp)

theorem apt_note (n : Note) : Apt (note n) := apt_tell (by simp)

theorem apt_remark (tok : Token) (r : Remark) : Apt (remark tok r) := apt_tell (by simp)

theorem apt_report {tok : Token} {f : Fault} (h : Diagnostic.Apt ⟨tok, f⟩) : Apt (report tok f) := by
  refine apt_tell fun d hd => ?_
  cases List.mem_singleton.1 hd
  exact h

theorem apt_report_name {tok : Token} (htok : tok.kind = .ident) (e : NameError) : Apt (report tok (.name e)) :=
  apt_report htok

theorem apt_expect (k : Kind) (tok : Token) : Apt (expect k tok) := by
  unfold expect
  split
  · exact apt_pure ()
  · next hk => exact apt_report ⟨rfl, hk⟩

theorem apt_current : Apt current := apt_silent fun _ => rfl

theorem apt_setCurrent (d : Operand) : Apt (setCurrent d) := apt_silent fun _ => rfl

theorem apt_newTemp : Apt newTemp := apt_silent fun _ => rfl

theorem apt_newLabel : Apt newLabel := apt_silent fun _ => rfl

theorem apt_resolve (name : Text) : Apt (resolve name) := apt_silent fun _ => rfl

theorem apt_declare (tok : Token) (ty : Ty) : Apt (declare tok ty) := by
  refine apt_silent fun s => ?_
  unfold declare
  split <;> rfl

theorem apt_binary (remark : Text) (left right : Operand) (code : List Mips.Instr) (result : Ty) :
    Apt (binary remark left right code result) :=
  (apt_emit _).bind fun _ => apt_newTemp.bind fun _ => (apt_emit _).bind fun _ => apt_setCurrent _

theorem apt_add {op : Token} (hop : op.kind = .addOp) (left right : Operand) : Apt (add op left right) := by
  unfold add
  split
  · exact apt_binary _ _ _ _ _
  · next hcombines => exact apt_report ⟨hop, rfl, hcombines⟩

theorem apt_mul {op : Token} (hop : op.kind = .mulOp) (left right : Operand) : Apt (mul op left right) := by
  unfold mul
  split
  · exact apt_binary _ _ _ _ _
  · next hcombines => exact apt_report ⟨hop, rfl, hcombines⟩

theorem apt_compare {op : Token} (hop : op.kind = .relOp) (left right : Operand) : Apt (Gen.compare op left right) := by
  unfold Gen.compare
  split
  · exact apt_setCurrent _
  · split
    · next hstring => exact apt_report ⟨hop, rfl, hstring⟩
    · exact apt_binary _ _ _ _ _

theorem apt_negate {op : Token} (hop : op.kind = .not) (d : Operand) : Apt (negate op d) := by
  unfold negate
  split
  · exact apt_report hop
  · exact apt_emit _

theorem apt_literal (lexeme : Text) : Apt (literal lexeme) := by
  unfold literal
  split
  · exact apt_newLabel.bind fun _ => (apt_emit _).bind fun _ => apt_setCurrent _
  · exact apt_newTemp.bind fun _ => (apt_emit _).bind fun _ => apt_setCurrent _

theorem apt_reference {tok : Token} (htok : tok.kind = .ident) : Apt (reference tok) := by
  unfold reference
  refine (apt_produce _).bind fun _ => (apt_resolve _).bind fun found => ?_
  cases found with
  | ok v => exact (apt_setCurrent _).bind fun _ => apt_pure true
  | error e => exact (apt_report_name htok e).bind fun _ => apt_pure false

theorem apt_enter (n : Note) : Apt (enter n) := (apt_produce _).bind fun _ => apt_note n

theorem apt_declaration (type name : Token) : Apt (declaration type name) := by
  unfold declaration
  refine (apt_produce _).bind fun _ => (apt_expect _ _).bind fun _ => ?_
  split
  · next hname =>
    have hdeclare {k : Except NameError Variable → Gen Unit} (hok : ∀ v, Apt (k (.ok v)))
        (herror : ∀ e, Apt (k (.error e))) : Apt (declare name (Ty.ofKeyword type.value) >>= k) := by
      refine (apt_declare _ _).bind fun outcome => ?_
      cases outcome with
      | ok v => exact hok v
      | error e => exact herror e
    refine (apt_silent fun _ => rfl : Apt get).bind fun s => ?_
    cases s.table.shadowed? name.value with
    | some previous => exact (apt_remark _ _).bind fun _ => hdeclare (fun _ => apt_pure ()) (apt_report_name hname)
    | none => exact hdeclare (fun _ => apt_pure ()) (apt_report_name hname)
  · exact apt_pure ()

theorem apt_storeIn {target : Token} (htarget : target.kind = .ident) (v : Variable) : Apt (storeIn target v) := by
  unfold storeIn
  refine apt_current.bind fun value => ?_
  split
  · exact apt_emit _
  · next hassignable => exact apt_report ⟨htarget, hassignable⟩

theorem apt_assignment {target : Token} (htarget : target.kind = .ident) {value : Gen Unit} (hvalue : Apt value)
    (sign : Token) : Apt (assignment target sign value) := by
  unfold assignment
  refine (apt_produce _).bind fun _ => (apt_resolve _).bind fun found => ?_
  cases found with
  | ok v =>
    exact (apt_reference htarget).bind fun _ => (apt_expect _ _).bind fun _ => hvalue.bind fun _ => apt_storeIn htarget v
  | error e => exact (apt_report_name htarget e).bind fun _ => (apt_expect _ _).bind fun _ => hvalue

theorem apt_expectCondition {tok : Token} {g : Guarded}
    (h : ∀ found : Ty, ¬ found.isCondition → Diagnostic.Apt ⟨tok, .condition g found⟩) : Apt (expectCondition tok g) := by
  unfold expectCondition
  refine apt_current.bind fun d => ?_
  split
  · exact apt_pure ()
  · next hfound => exact apt_report (h _ hfound)

theorem apt_conditional {opening : Token} (hopening : opening.kind = .if) {condition action : Gen Unit}
    (hcondition : Apt condition) (haction : Apt action) (middle : Token) :
    Apt (conditional opening middle condition action) := by
  unfold conditional
  have hexpected : Apt (expectCondition opening .conditional) := apt_expectCondition fun _ hfound => ⟨hopening, hfound⟩
  exact (apt_produce _).bind fun _ => hcondition.bind fun _ => hexpected.bind fun _ => apt_newLabel.bind fun _ =>
    apt_current.bind fun _ => (apt_emit _).bind fun _ => (apt_expect _ _).bind fun _ => haction.bind fun _ => apt_emit _

theorem apt_loop {opening : Token} (hopening : opening.kind = .while) {condition action : Gen Unit}
    (hcondition : Apt condition) (haction : Apt action) (middle : Token) :
    Apt (loop opening middle condition action) := by
  unfold loop
  have hexpected : Apt (expectCondition opening .loop) := apt_expectCondition fun _ hfound => ⟨hopening, hfound⟩
  exact (apt_produce _).bind fun _ => apt_newLabel.bind fun _ => apt_newLabel.bind fun _ => (apt_emit _).bind fun _ =>
    hcondition.bind fun _ => (apt_expect _ _).bind fun _ => hexpected.bind fun _ => apt_current.bind fun _ =>
    (apt_emit _).bind fun _ => haction.bind fun _ => apt_emit _

theorem apt_block {inside : Gen Unit} (hinside : Apt inside) (closing : Token) : Apt (block closing inside) := by
  unfold block
  exact (apt_produce _).bind fun _ => (apt_silent fun _ => rfl : Apt enterScope).bind fun _ => hinside.bind fun _ =>
    (apt_expect _ _).bind fun _ => apt_silent fun _ => rfl

theorem apt_readCurrent {keyword : Token} (hkeyword : keyword.kind = .inout) : Apt (readCurrent keyword) := by
  unfold readCurrent
  refine apt_current.bind fun d => ?_
  split
  · exact (apt_note _).bind fun _ => apt_emit _
  · exact apt_report hkeyword

theorem apt_read {keyword : Token} (hkeyword : keyword.kind = .inout) {target : Option Token}
    (htarget : ∀ tok ∈ target, tok.kind = .ident) (opening closing : Token) :
    Apt (read keyword opening target closing) := by
  unfold read
  refine (apt_produce _).bind fun _ => (apt_expect _ _).bind fun _ => ?_
  cases target with
  | none => exact (apt_produce _).bind fun _ => apt_expect _ _
  | some tok =>
    refine (apt_reference (htarget tok rfl)).bind fun found => ?_
    cases found with
    | true => exact (apt_readCurrent hkeyword).bind fun _ => apt_expect _ _
    | false => exact (apt_pure ()).bind fun _ => apt_expect _ _

theorem apt_write {value : Gen Unit} (hvalue : Apt value) (keyword opening closing : Token) :
    Apt (write keyword opening value closing) := by
  unfold write
  refine (apt_produce _).bind fun _ => (apt_expect _ _).bind fun _ => hvalue.bind fun _ => (apt_note _).bind fun _ =>
    apt_current.bind fun d => ?_
  cases printLines _ d with
  | some ls => exact (apt_emit _).bind fun _ => apt_expect _ _
  | none => exact (apt_pure ()).bind fun _ => apt_expect _ _

end Gen

/-! ## Trees -/

/-- Only identifiers are taken as the targets of `read`. -/
theorem Parse.kind_target {ts : List Token} {tok : Token} (h : tok ∈ (target ts).1) : tok.kind = .ident := by
  unfold target at h
  split at h
  · cases h
  · split at h
    · next hk =>
      cases h
      exact hk
    · cases h

theorem Expr.Read.apt_lower {eof : Token} {l : Level} {e : Expr l} {ts rest : List Token} (h : e.Read eof ts rest) :
    Gen.Apt e.lower := by
  induction h with
  | add hop _ _ ihl ihr =>
    exact ihl.bind fun _ => apt_current.bind fun _ => ihr.bind fun _ => apt_current.bind fun _ => apt_add hop _ _
  | mul hop _ _ ihl ihr =>
    exact ihl.bind fun _ => apt_current.bind fun _ => ihr.bind fun _ => apt_current.bind fun _ => apt_mul hop _ _
  | compare hop _ _ ihl ihr =>
    exact (apt_produce _).bind fun _ => ihl.bind fun _ => apt_current.bind fun _ => ihr.bind fun _ =>
      apt_current.bind fun _ => apt_compare hop _ _
  | term _ ih | relation _ ih | factor _ ih => exact (apt_produce _).bind fun _ => ih
  | missing => exact apt_produce _
  | name htok => exact (apt_produce _).bind fun _ => (apt_reference htok).bind fun _ => apt_pure _
  | literal _ => exact (apt_produce _).bind fun _ => apt_literal _
  | negation hop _ ih =>
    exact (apt_produce _).bind fun _ => ih.bind fun _ => apt_current.bind fun _ => apt_negate hop _
  | group _ _ ih => exact (apt_produce _).bind fun _ => ih.bind fun _ => apt_expect _ _

theorem Code.Read.apt_lower {eof : Token} {x : Extent} {c : Code x} {ts rest : List Token} (h : c.Read eof ts rest) :
    Gen.Apt c.lower := by
  induction h with
  | empty => exact apt_produce _
  | declare _ => exact (apt_enter _).bind fun _ => apt_declaration _ _
  | assign htarget hvalue => exact (apt_enter _).bind fun _ => apt_assignment htarget hvalue.apt_lower _
  | ifThen hopening hcondition _ ih =>
    exact (apt_enter _).bind fun _ => apt_conditional hopening hcondition.apt_lower ih _
  | whileDo hopening hcondition _ ih => exact (apt_enter _).bind fun _ => apt_loop hopening hcondition.apt_lower ih _
  | block _ _ ih => exact (apt_enter _).bind fun _ => apt_block ih _
  | read hkeyword => exact (apt_enter _).bind fun _ => apt_read hkeyword (fun _ => Parse.kind_target) _ _
  | write _ hvalue => exact (apt_enter _).bind fun _ => apt_write hvalue.apt_lower _ _ _
  | done => exact apt_pure _
  | last _ ih => exact ih
  | next _ _ _ ihs ihr => exact ihs.bind fun _ => (apt_expect _ _).bind fun _ => ihr

theorem TokenSource.apt_body (source : TokenSource) : Gen.Apt source.parse.1.body := by
  have hbare (stop : Token) : Gen.Apt (Program.bare stop).body := (apt_produce _).bind fun _ => apt_expect _ _
  unfold parse Parse.program
  split
  · exact hbare _
  · split
    · exact (apt_block ((Parse.read_statement _).2 _).apt_lower _).bind fun _ => apt_expect _ _
    · exact hbare _

/-- All diagnostics of a lowering are apt. -/
theorem apt_lower (wordSize : Int64) (source : TokenSource) : ∀ d ∈ (lower wordSize source).diagnostics, d.Apt := by
  have hlower (next : Token) : Gen.Apt (source.parse.1.lower next) := by
    refine (apt_produce _).bind fun _ => (apt_note _).bind fun _ => (apt_emit _).bind fun _ =>
      source.apt_body.bind fun _ => (apt_emit _).bind fun _ => ?_
    split
    · exact apt_pure ()
    · exact apt_remark _ _
  exact fun d hd => hlower _ _ d (mem_diagnostics_lower.1 hd)

end AlgolMips
