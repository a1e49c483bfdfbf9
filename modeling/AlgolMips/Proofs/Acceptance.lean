import AlgolMips.Lowering
import AlgolMips.Proofs.Parsing
import AlgolMips.Proofs.Walk

/-!
# Which programs are accepted

Lowering finds a token of the wrong kind exactly where the tree has one in a checked place, whatever the names and types
of the program (`Program.clear_syntactic_iff`). So the token lists without a syntactic fault, and without tokens behind
the program, are those that the accepted grammar derives.

The accepted grammar derives more than the documented one. A factor or the target of a `read` that is left out is no
fault: a missing factor keeps the operand from before, and a `read` without a target is dropped. What is accepted
without any diagnostic is documented exactly when nothing is missing from its tree.
-/

namespace AlgolMips

open Gen Parse

/-- A fault about the kind of a token. -/
def Fault.Syntactic (f : Fault) : Prop := f.kind = .syntactic

@[simp] theorem Fault.syntactic_expected (k : Kind) (tok : Token) : (Fault.expected k tok).Syntactic := rfl

namespace Gen

theorem clear_syntactic_expect (k : Kind) (tok : Token) (s : GenState) :
    Clear Fault.Syntactic (expect k tok) s ↔ tok.kind = k := by
  simp [clear_expect]

@[simp] theorem clear_syntactic_add (op : Token) (left right : Operand) (s : GenState) :
    Clear Fault.Syntactic (add op left right) s := (clear_add ..).2 (.inr nofun)

@[simp] theorem clear_syntactic_mul (op : Token) (left right : Operand) (s : GenState) :
    Clear Fault.Syntactic (mul op left right) s := (clear_mul ..).2 (.inr nofun)

@[simp] theorem clear_syntactic_compare (op : Token) (left right : Operand) (s : GenState) :
    Clear Fault.Syntactic (Gen.compare op left right) s := (clear_compare ..).2 (.inr (.inr nofun))

@[simp] theorem clear_syntactic_negate (op : Token) (d : Operand) (s : GenState) :
    Clear Fault.Syntactic (negate op d) s := (clear_negate ..).2 (.inr nofun)

theorem name_not_syntactic (e : NameError) : ¬ (Fault.name e).Syntactic := by
  cases e <;> nofun

@[simp] theorem clear_syntactic_reference (tok : Token) (s : GenState) :
    Clear Fault.Syntactic (reference tok) s := (clear_reference ..).2 fun e _ => name_not_syntactic e

@[simp] theorem clear_syntactic_storeIn (target : Token) (v : Variable) (s : GenState) :
    Clear Fault.Syntactic (storeIn target v) s := (clear_storeIn ..).2 (.inr nofun)

@[simp] theorem clear_syntactic_expectCondition (tok : Token) (g : Guarded) (s : GenState) :
    Clear Fault.Syntactic (expectCondition tok g) s := (clear_expectCondition ..).2 (.inr nofun)

@[simp] theorem clear_syntactic_readCurrent (keyword : Token) (s : GenState) :
    Clear Fault.Syntactic (readCurrent keyword) s := (clear_readCurrent ..).2 (.inr nofun)

end Gen

/-! ## The checked places of a valid tree are right -/

theorem Expr.checked_of_valid {l : Level} (e : Expr l) (h : e.Valid) : e.Checked := by
  induction e with
  | add left op right ihl ihr => exact ⟨ihl h.1, ihr h.2.2⟩
  | term e ih => exact ih h
  | mul left op right ihl ihr => exact ⟨ihl h.1, ihr h.2.2⟩
  | relation e ih => exact ih h
  | compare left op right ihl ihr => exact ⟨ihl h.1, ihr h.2.2⟩
  | factor e ih => exact ih h
  | missing => trivial
  | name tok => trivial
  | literal tok => trivial
  | negation op e ih => exact ih h.2
  | group opening e closing ih => exact ⟨ih h.2.1, h.2.2⟩

theorem Code.checked_of_valid {x : Extent} (c : Code x) (h : c.Valid) : c.Checked := by
  induction c with
  | empty => trivial
  | declare type name => exact h.2
  | assign target sign value => exact ⟨h.2.1, value.checked_of_valid h.2.2⟩
  | ifThen opening condition middle action ih =>
    exact ⟨condition.checked_of_valid h.2.1, h.2.2.1, ih h.2.2.2⟩
  | whileDo opening condition middle action ih =>
    exact ⟨condition.checked_of_valid h.2.1, h.2.2.1, ih h.2.2.2⟩
  | block opening inside closing ih => exact ⟨ih h.2.1, h.2.2⟩
  | read keyword opening target closing => exact ⟨h.2.2.1, h.2.2.2.2⟩
  | write keyword opening value closing => exact ⟨h.2.2.1, value.checked_of_valid h.2.2.2.1, h.2.2.2.2⟩
  | done => trivial
  | last s ih => exact ih h.1
  | next s separator rest ihs ihr => exact ⟨ihs h.1, h.2.1, ihr h.2.2⟩

theorem Program.checked_of_valid (p : Program) (h : p.Valid) : p.Checked := by
  cases p with
  | bare stop => exact h
  | block opening inside closing stop => exact ⟨inside.checked_of_valid h.2.1, h.2.2⟩

/-! ## Syntactic faults are tokens of a wrong kind in a checked place -/

theorem Expr.clear_syntactic_iff {l : Level} (e : Expr l) (s : GenState) :
    Clear Fault.Syntactic e.lower s ↔ e.Checked := by
  induction e generalizing s with
  | add left op right ihl ihr => simp [Expr.lower, Expr.Checked, ihl, ihr]
  | term e ih => simp [Expr.lower, Expr.Checked, ih]
  | mul left op right ihl ihr => simp [Expr.lower, Expr.Checked, ihl, ihr]
  | relation e ih => simp [Expr.lower, Expr.Checked, ih]
  | compare left op right ihl ihr => simp [Expr.lower, Expr.Checked, ihl, ihr]
  | factor e ih => simp [Expr.lower, Expr.Checked, ih]
  | missing => simp [Expr.lower, Expr.Checked]
  | name tok => simp [Expr.lower, Expr.Checked]
  | literal tok => simp [Expr.lower, Expr.Checked]
  | negation op e ih => simp [Expr.lower, Expr.Checked, ih]
  | group opening e closing ih => simp [Expr.lower, Expr.Checked, ih, clear_syntactic_expect]

theorem Gen.clear_syntactic_declaration (type name : Token) (s : GenState) :
    Clear Fault.Syntactic (declaration type name) s ↔ name.kind = .ident := by
  rw [clear_declaration]
  constructor
  · rintro ⟨h | h, _⟩
    · exact h
    · exact absurd rfl h
  · exact fun h => ⟨.inl h, fun _ e _ => name_not_syntactic e⟩

theorem Gen.clear_syntactic_assignment (target sign : Token) (value : Gen Unit) (q : Prop)
    (hv : ∀ s, Clear Fault.Syntactic value s ↔ q) (s : GenState) :
    Clear Fault.Syntactic (assignment target sign value) s ↔ sign.kind = .assign ∧ q := by
  simp only [assignment, clear_bind, clear_produce, true_and, clear_resolve]
  split
  · simp [clear_syntactic_expect, hv, name_not_syntactic]
  · simp [clear_syntactic_expect, hv]

theorem Gen.clear_syntactic_read (keyword opening : Token) (target : Option Token) (closing : Token) (s : GenState) :
    Clear Fault.Syntactic (read keyword opening target closing) s ↔
      opening.kind = .lparen ∧ closing.kind = .rparen := by
  cases target with
  | none => simp [read, clear_syntactic_expect]
  | some tok =>
    simp only [read, clear_bind, clear_produce, true_and, clear_syntactic_expect, clear_syntactic_reference]
    split <;> simp [clear_syntactic_expect]

theorem Gen.clear_syntactic_write (keyword opening : Token) (value : Gen Unit) (closing : Token) (q : Prop)
    (hv : ∀ s, Clear Fault.Syntactic value s ↔ q) (s : GenState) :
    Clear Fault.Syntactic (write keyword opening value closing) s ↔
      opening.kind = .lparen ∧ q ∧ closing.kind = .rparen := by
  simp only [write, clear_bind, clear_produce, true_and, clear_syntactic_expect, hv, clear_note, clear_current]
  split <;> simp [clear_syntactic_expect]

theorem Code.clear_syntactic_iff {x : Extent} (c : Code x) (s : GenState) :
    Clear Fault.Syntactic c.lower s ↔ c.Checked := by
  induction c generalizing s with
  | empty => simp [Code.lower, Code.Checked]
  | declare type name => simp [Code.lower, Code.Checked, clear_syntactic_declaration]
  | assign target sign value =>
    simp [Code.lower, Code.Checked, clear_syntactic_assignment _ _ _ _ value.clear_syntactic_iff]
  | ifThen opening condition middle action ih =>
    simp [Code.lower, Code.Checked, conditional, condition.clear_syntactic_iff, clear_syntactic_expect, ih]
  | whileDo opening condition middle action ih =>
    simp [Code.lower, Code.Checked, loop, condition.clear_syntactic_iff, clear_syntactic_expect, ih]
  | block opening inside closing ih => simp [Code.lower, Code.Checked, Gen.block, clear_syntactic_expect, ih]
  | read keyword opening target closing => simp [Code.lower, Code.Checked, clear_syntactic_read]
  | write keyword opening value closing =>
    simp [Code.lower, Code.Checked, clear_syntactic_write _ _ _ _ _ value.clear_syntactic_iff]
  | done => simp [Code.lower, Code.Checked]
  | last s ih => simp [Code.lower, Code.Checked, ih]
  | next s separator rest ihs ihr => simp [Code.lower, Code.Checked, clear_syntactic_expect, ihs, ihr]

theorem Program.clear_syntactic_iff (p : Program) (next : Token) (s : GenState) :
    Clear Fault.Syntactic (p.lower next) s ↔ p.Checked := by
  have hlast : ∀ s, Clear Fault.Syntactic (if next.isEof then pure () else remark next .trailing) s := by
    intro s
    split
    · exact clear_pure _ _
    · exact clear_remark _ _ _
  cases p with
  | bare stop => simp [Program.lower, Program.body, Program.Checked, clear_syntactic_expect, hlast]
  | block opening inside closing stop =>
    simp [Program.lower, Program.body, Program.Checked, Gen.block, clear_syntactic_expect,
      inside.clear_syntactic_iff, hlast, and_assoc]

/-! ## Accepted programs -/

/-- The outcome of a lowering is that of the walk over the program that was read. -/
theorem mem_diagnostics_lower {wordSize : Int64} {source : TokenSource} {d : Diagnostic} :
    d ∈ (lower wordSize source).diagnostics ↔
      Event.fault d ∈ (source.parse.1.lower (source.parse.2.headD source.eof) { frame := { wordSize } }).events := by
  simp only [Lowering.diagnostics, lower, List.mem_filterMap]
  constructor
  · rintro ⟨e, he, hd⟩
    cases e <;> simp_all [Event.fault?]
  · exact fun h => ⟨_, h, rfl⟩

/-- No fault of a sort is left by a lowering. -/
theorem clear_lower_iff (p : Fault → Prop) (wordSize : Int64) (source : TokenSource) :
    (∀ d ∈ (lower wordSize source).diagnostics, ¬ p d.fault) ↔
      Clear p (source.parse.1.lower (source.parse.2.headD source.eof)) { frame := { wordSize } } := by
  simp only [mem_diagnostics_lower, Clear]

/-- A list of tokens that holds no end mark is read to its end exactly when nothing is left. -/
theorem exhausted_iff {wordSize : Int64} {source : TokenSource}
    (h : ∀ t ∈ source.parse.2, t.kind ≠ .eof) : (lower wordSize source).exhausted ↔ source.parse.2 = [] := by
  have hrest : (lower wordSize source).rest = source.parse.2 := rfl
  simp only [Lowering.exhausted, hrest, decide_eq_true_eq]
  cases hp : source.parse.2 with
  | nil => simp [nextKind]
  | cons t rest =>
    have ht : t.kind ≠ .eof := h t (by simp [hp])
    simp [nextKind, ht]

/-- A program that is read without a checked token of a wrong kind, up to the end, is spelled by the whole list; and
every list that spells a valid program is read so. -/
theorem checked_and_exhausted_iff {tokens : List Token} (hEof : ∀ t ∈ tokens, t.kind ≠ .eof) (wordSize : Int64) :
    (TokenSource.parse { tokens }).1.Checked ∧ (lower wordSize { tokens }).exhausted ↔
      ∃ p : Program, p.Valid ∧ p.tokens = tokens ∧ TokenSource.parse { tokens } = (p, []) := by
  constructor
  · rintro ⟨hc, hex⟩
    obtain ⟨hv, ht⟩ := program_spelled rfl tokens hc
    have hkinds : ∀ t ∈ (TokenSource.parse { tokens }).2, t.kind ≠ .eof := by
      intro t hmem
      refine hEof t ?_
      rw [← ht]
      exact List.mem_append_right _ hmem
    have hrest := (exhausted_iff hkinds).1 hex
    refine ⟨_, hv, ?_, Prod.ext rfl hrest⟩
    have hnil : (program (TokenSource.eof { tokens }) tokens).2 = [] := hrest
    rw [hnil, List.append_nil] at ht
    exact ht
  · rintro ⟨p, hv, _, hparse⟩
    rw [hparse]
    refine ⟨p.checked_of_valid hv, ?_⟩
    rw [exhausted_iff (by simp [hparse]), hparse]

/-- Exactly the lists that the accepted grammar derives are lowered without a syntactic fault and up to their end. The
names and the types of a program have no say in it. -/
theorem accepted_iff_derives (settings : Settings) (tokens : List Token) (hEof : ∀ t ∈ tokens, t.kind ≠ .eof) :
    (∀ d ∈ (lower settings.wordSize { tokens }).diagnostics, d.fault.kind ≠ .syntactic) ∧
        (lower settings.wordSize { tokens }).exhausted ↔
      Derives .accepted .program tokens := by
  have hclear : (∀ d ∈ (lower settings.wordSize { tokens }).diagnostics, d.fault.kind ≠ .syntactic) ↔
      (TokenSource.parse { tokens }).1.Checked :=
    (clear_lower_iff Fault.Syntactic settings.wordSize { tokens }).trans (Program.clear_syntactic_iff ..)
  rw [hclear, checked_and_exhausted_iff hEof, derives_iff_spelled]
  constructor
  · rintro ⟨p, hv, ht, _⟩
    exact ⟨p, hv, nofun, ht⟩
  · rintro ⟨p, hv, _, rfl⟩
    exact ⟨p, hv, rfl, program_tokens p hv⟩

/-- A token that stands nowhere. -/
def Token.plain (kind : Kind) (value : Text) : Token := { kind, value }

/-- A program that assigns a product to a variable. -/
def productProgram (right : Expr .factor) : Program :=
  .block (.plain .begin "begin")
    (.next (.declare (.plain .typeName "integer") (.plain .ident "x")) (.plain .semi ";")
      (.last (.assign (.plain .ident "x") (.plain .assign ":=")
        (.term (.mul (.relation (.factor (.literal (.plain .literal "2")))) (.plain .mulOp "*") (.factor right))))))
    (.plain .end "end") (.plain .dot ".")

theorem productProgram_valid {right : Expr .factor} (h : right.Valid) : (productProgram right).Valid :=
  ⟨rfl, ⟨⟨rfl, rfl⟩, rfl, ⟨rfl, rfl, rfl, rfl, h⟩, nofun⟩, rfl, rfl⟩

/-- The product without its right operand is accepted. -/
theorem accepted_without_operand :
    (∀ t ∈ (productProgram .missing).tokens, t.kind ≠ .eof) ∧
      (∀ d ∈ (lower 4 { tokens := (productProgram .missing).tokens }).diagnostics, d.fault.kind ≠ .syntactic) ∧
      (lower 4 { tokens := (productProgram .missing).tokens }).exhausted := by
  have hEof : ∀ t ∈ (productProgram .missing).tokens, t.kind ≠ .eof := by decide
  exact ⟨hEof, (accepted_iff_derives {} _ hEof).2
    ((productProgram .missing).derives (productProgram_valid trivial) nofun)⟩

/-! ## Documented programs -/

/-- A list is derived by the documented grammar exactly when it is read as a valid program without a gap. -/
theorem documented_iff_of_parse {tokens : List Token} {p : Program} (hv : p.Valid) (ht : p.tokens = tokens) :
    Derives .documented .program tokens ↔ p.Complete := by
  rw [derives_iff_spelled]
  constructor
  · rintro ⟨q, hq, hcomplete, hspell⟩
    have hp := @program_tokens {} p hv
    have hq' := @program_tokens {} q hq
    rw [ht] at hp
    rw [hspell, hp] at hq'
    have hpq : p = q := congrArg Prod.fst hq'
    rw [hpq]
    exact hcomplete rfl
  · exact fun h => ⟨p, hv, fun _ => h, ht⟩

/-- A list that is lowered to its end without any diagnostic is derived by the accepted grammar, and by the documented
one exactly when no factor and no target of a `read` is missing from the program that was read. -/
theorem silent_documented_iff_complete (settings : Settings) (tokens : List Token)
    (hEof : ∀ t ∈ tokens, t.kind ≠ .eof)
    (hSilent : (lower settings.wordSize { tokens }).succeeded settings ∧
      (lower settings.wordSize { tokens }).diagnostics = [] ∧ (lower settings.wordSize { tokens }).exhausted) :
    Derives .accepted .program tokens ∧
      (Derives .documented .program tokens ↔ (TokenSource.parse { tokens }).1.Complete) := by
  obtain ⟨_, hnone, hex⟩ := hSilent
  have hclear : Clear Fault.Syntactic _ _ := (clear_lower_iff Fault.Syntactic settings.wordSize { tokens }).1 (by
    rw [hnone]
    exact fun d hd => absurd hd List.not_mem_nil)
  have hchecked := (Program.clear_syntactic_iff ..).1 hclear
  obtain ⟨p, hv, ht, hparse⟩ := (checked_and_exhausted_iff hEof settings.wordSize).1 ⟨hchecked, hex⟩
  refine ⟨derives_iff_spelled.2 ⟨p, hv, nofun, ht⟩, ?_⟩
  rw [hparse]
  exact documented_iff_of_parse hv ht

/-- What is left of a program that spells its tokens. -/
theorem lower_tokens {p : Program} (hv : p.Valid) (wordSize : Int64) :
    lower wordSize { tokens := p.tokens } =
      { events := (p.lower {} { frame := { wordSize } }).events
        state := (p.lower {} { frame := { wordSize } }).state
        rest := [] } := by
  have hparse : TokenSource.parse { tokens := p.tokens } = (p, []) := program_tokens p hv
  simp only [lower, hparse]
  rfl

/-- The product with both operands is documented. -/
theorem documented_with_operand :
    (lower 4 { tokens := (productProgram (.literal (.plain .literal "3"))).tokens }).diagnostics = [] ∧
      Derives .documented .program (productProgram (.literal (.plain .literal "3"))).tokens := by
  have hv : (productProgram (.literal (.plain .literal "3"))).Valid := productProgram_valid rfl
  have hnone : (lower 4 { tokens := (productProgram (.literal (.plain .literal "3"))).tokens }).diagnostics = [] := by
    rw [lower_tokens hv]
    decide +kernel
  have hex : (lower 4 { tokens := (productProgram (.literal (.plain .literal "3"))).tokens }).exhausted := by
    rw [lower_tokens hv]
    rfl
  refine ⟨hnone, (silent_documented_iff_complete {} _ (by decide) ⟨?_, hnone, hex⟩).2.2 ?_⟩
  · rw [Lowering.succeeded, hnone]
    rfl
  · rw [show TokenSource.parse { tokens := (productProgram (.literal (.plain .literal "3"))).tokens } = (_, []) from
      program_tokens _ hv]
    exact ⟨trivial, trivial, trivial⟩

/-- The product without its right operand is lowered without any diagnostic, and the documented grammar does not derive
it. The left operand is multiplied by itself. -/
theorem silent_without_operand :
    (∀ t ∈ (productProgram .missing).tokens, t.kind ≠ .eof) ∧
      (lower 4 { tokens := (productProgram .missing).tokens }).succeeded {} ∧
      (lower 4 { tokens := (productProgram .missing).tokens }).diagnostics = [] ∧
      (lower 4 { tokens := (productProgram .missing).tokens }).exhausted ∧
      ¬ Derives .documented .program (productProgram .missing).tokens := by
  have hv : (productProgram .missing).Valid := productProgram_valid trivial
  rw [lower_tokens hv]
  refine ⟨by decide, by decide +kernel, by decide +kernel, rfl, fun h => ?_⟩
  exact ((documented_iff_of_parse hv rfl).1 h).2.2

end AlgolMips
