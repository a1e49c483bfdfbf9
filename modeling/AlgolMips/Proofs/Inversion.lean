import AlgolMips.Proofs.Valuation
import Mathlib.Algebra.Ring.Parity

/-!
# Inverted conditions

`!` turns every bit of a number. An inverted truth value is therefore never zero, whatever it was before, and the branch
of a conditional, which asks for zero, takes it for true. Turned twice, the value is itself again. So a conditional
decides as it should, or for its action, by whether the number of `!` in front of the condition is even or odd
(`negation_inverts_bits`).
-/

namespace AlgolMips

open Gen Mips

/-! ## Conditionals -/

/-- The lines `test` decide about the lines `body` behind them: the machine passes all of `test`, and is then at the
first line of `body` or behind the last. -/
structure Mips.Decides (o : Overflow) (code : List Line) (pc : Nat) (d : Data) (test body : List Line) (taken : Prop) :
    Prop where
  stands : CodeAt code (pc + test.length) body
  enters : taken → ∃ d', Passes o code pc test.length d (pc + test.length) d'
  skips : ¬ taken → ∃ d', Passes o code pc test.length d (pc + test.length + body.length) d'

variable {o : Overflow} {code : List Line} {s : GenState}

/-- The lines that decide about an action: those of the condition, and a branch that is taken if it is zero. -/
def Expr.testLines (e : Expr .expression) (s : GenState) : List Line :=
  e.lower.lines s ++ [.comment "if statement", .instr (.load .t0 (e.lower s).state.current.place.offset),
    .instr (.branchIfZero .t0 (.generated (e.lower s).state.labels))]

/-- The state in which the action behind a condition is lowered. -/
def Expr.tested (e : Expr .expression) (s : GenState) : GenState :=
  { (e.lower s).state with labels := (e.lower s).state.labels + 1 }

theorem lines_ifThen (opening middle : Token) (e : Expr .expression) (action : Stmt) (s : GenState) :
    (Code.ifThen opening e middle action).lower.lines s =
      e.testLines s ++ (action.lower.lines (e.tested s) ++ [.label (.generated (e.lower s).state.labels)]) := by
  simp [Code.lower, lines_conditional, Expr.testLines, Expr.tested]

/-- The code of an expression leads from the data `d` to `d'`, with a number in the slot of its operand. -/
structure Expr.Leaves (o : Overflow) (code : List Line) (s : GenState) {l : Level} (e : Expr l) (d d' : Data) (w : Word) :
    Prop where
  run : runLines o code (e.lower.lines s) d = some d'
  base : d'.get .fp = .base
  slot : d'.frame (e.lower s).state.current.place.offset = .number w

/-- Wherever `if e then S` stands, the machine goes from the test to `S` or behind `S`, by whether `taken` holds. -/
def Expr.Guards (o : Overflow) (code : List Line) (s : GenState) (e : Expr .expression) (d : Data) (taken : Prop) : Prop :=
  ∀ opening middle action pc, CodeAt code pc ((Code.ifThen opening e middle action).lower.lines s) →
    Decides o code pc d (e.testLines s) (action.lower.lines (e.tested s)) taken

/-- A conditional is decided by what the condition leaves: the action runs exactly if this is not zero. -/
theorem Expr.Leaves.guards {e : Expr .expression} {d d' : Data} {w : Word} (h : e.Leaves o code s d d' w)
    (hcode : Unambiguous code) : e.Guards o code s d (w ≠ 0) := by
  intro opening middle action pc hat
  rw [lines_ifThen] at hat
  let skip := Label.generated (e.lower s).state.labels
  let loads : List Line := [.comment "if statement", .instr (.load .t0 (e.lower s).state.current.place.offset)]
  have htest : e.testLines s = (e.lower.lines s ++ loads) ++ [.instr (.branchIfZero .t0 skip)] := by
    simp [testLines, loads, skip]
  have hload : runLines o code (e.lower.lines s ++ loads) d = some (d'.set .t0 (.number w)) := by
    simp [loads, h.run, Line.run, Instr.exec, h.base, h.slot]
  have hnumber : (d'.set .t0 (.number w)).get .t0 = .number w := by simp
  have hlength : (e.testLines s).length = (e.lower.lines s ++ loads).length + 1 := by rw [htest, List.length_append]; rfl
  have hguard := hat.left
  rw [htest] at hguard
  have hbranch := step_branchIfZero (o := o) hguard.right.head hnumber (target?_of_codeAt hcode hat.right.right.head)
  have hpassed := (hguard.left.passes hload).step hbranch
  refine ⟨hat.right.left, fun hw => ⟨d'.set .t0 (.number w), ?_⟩, fun hw => ⟨d'.set .t0 (.number w), ?_⟩⟩
  · rwa [if_neg hw, Nat.add_assoc, ← hlength] at hpassed
  · rwa [if_pos (not_not.1 hw), ← hlength] at hpassed

theorem Expr.Leaves.negation {f : Expr .factor} {d d' : Data} {w : Word} (h : f.Leaves o code s d d' w) (op : Token)
    (ht : HasType s.table.env f .logical) : (Expr.negation op f).Leaves o code s d
      ((d'.set .t0 (.number (~~~w))).put (f.lower s).state.current.place.offset (.number (~~~w))) (~~~w) where
  run := run_negation op ht (by decide) h.run h.base h.slot
  base := by simpa using h.base
  slot := by simp [Expr.lower]

theorem Expr.Leaves.wrapped {k l : Level} {e : Expr k} {inner : Expr l} {d d' : Data} {w : Word}
    (h : inner.Leaves o code s d d' w) (hw : e.Wraps inner) : e.Leaves o code s d d' w where
  run := by rw [hw.lines]; exact h.run
  base := h.base
  slot := by rw [hw.state]; exact h.slot

/-! ## Conditions -/

/-- Literals of truth values, variables that hold one, and plain comparisons, in parentheses and behind `!`. -/
inductive Expr.Condition (Γ : Env) (m : Memory) : {l : Level} → Expr l → Prop where
  | literal {tok : Token} (h : Ty.ofLiteral tok.value = .logical) : Condition Γ m (.literal tok)
  | name {tok : Token} {d : Binding} {b : Bool} (hd : Γ.find? tok.value = some d) (hty : d.ty = .logical)
      (hm : m d.cell = .number (truth b)) : Condition Γ m (.name tok)
  | compare {left right : Expr .factor} {op : Token} (ht : HasType Γ (.compare left op right) .logical)
      (hp : (Expr.compare left op right).Plain Γ) : Condition Γ m (.compare left op right)
  | negation {op : Token} {e : Expr .factor} (h : Condition Γ m e) : Condition Γ m (.negation op e)
  | wrapped {k l : Level} {e : Expr k} {inner : Expr l} (hw : e.Wraps inner) (h : Condition Γ m inner) :
      Condition Γ m e

/-- How often `!` stands in front of what a condition tests. -/
def Expr.inversions : {l : Level} → Expr l → Nat
  | _, .negation _ e => e.inversions + 1
  | _, .group _ e _ => e.inversions
  | _, .term e => e.inversions
  | _, .relation e => e.inversions
  | _, .factor e => e.inversions
  | _, _ => 0

theorem Expr.Wraps.inversions {k l : Level} {e : Expr k} {inner : Expr l} (h : e.Wraps inner) :
    e.inversions = inner.inversions := by
  cases h <;> rfl

/-- What is written can be read. -/
theorem Standing.read_write {x : Standing} {m : Memory} {a : Word} (h : x.read m = some a) (w : Word) :
    (x.write m w).1.read (x.write m w).2 = some w := by
  cases x with
  | cell c => simp [write, read, Content.number?]
  | own => rfl
  | label => cases h

theorem Expr.act_negation (op : Token) {e : Expr .factor} {Γ : Env} {m m' : Memory} {x : Standing} {w : Word}
    (hact : e.act o Γ m = some (x, m')) (hread : x.read m' = some w) :
    (Expr.negation op e).act o Γ m = some ((x.write m' (~~~w)).1, (x.write m' (~~~w)).2) := by
  simp [Expr.act, hact, hread]

theorem decide_truth_eq_zero (b : Bool) : decide (truth b = 0) = !b := by
  cases b <;> decide

/-- With all its bits turned, a truth value is not zero. -/
theorem not_truth_ne_zero (b : Bool) : ~~~truth b ≠ 0 := by
  cases b <;> decide

theorem comparison_eq_truth (op : Text) (a b : Word) : ∃ c, comparison op a b = truth c := by
  unfold comparison
  split
  · exact ⟨_, rfl⟩
  · split
    · exact ⟨_, rfl⟩
    · split <;> exact ⟨_, rfl⟩

theorem Expr.eval_compare {left right : Expr .factor} {op : Token} {Γ : Env} {store : Cell → Value} {v : Value}
    (h : (Expr.compare left op right).eval o Γ store = some v) : ∃ b, v = .number (truth b) := by
  obtain ⟨_, -, hrest⟩ := Option.bind_eq_some_iff.1 h
  obtain ⟨_, -, hcombine⟩ := Option.bind_eq_some_iff.1 hrest
  obtain ⟨a, c, w, -, -, hw, rfl⟩ := Value.combine_eq_some hcombine
  obtain ⟨b, hb⟩ := comparison_eq_truth op.value a c
  exact ⟨b, by rw [← hb, ← Option.some.inj hw]⟩

namespace Expr.Condition

variable {Γ : Env} {m : Memory} {l : Level} {e : Expr l}

theorem hasType (h : e.Condition Γ m) : HasType Γ e .logical := by
  induction h with
  | literal h => exact h ▸ .literal
  | name hd hty => exact hty ▸ .name hd
  | compare ht => exact ht
  | negation _ ih => exact .negation ih (by decide)
  | wrapped hw _ ih => exact hw.hasType ih

/-- The value of a condition is a truth value. What its code computes is this value if there is an even number of
inversions, and otherwise the opposite with all bits turned. -/
theorem act_eq (h : e.Condition Γ m) {v : Value} (hv : e.eval o Γ m.store = some v) :
    ∃ b x m', v = .number (truth b) ∧ e.act o Γ m = some (x, m') ∧
      x.read m' = some (if Odd e.inversions then ~~~truth !b else truth b) := by
  induction h generalizing v with
  | @literal tok h =>
    have hlit : literalValue? tok.value = some (.number (truth (tok.value = "true"))) := by simp [literalValue?, h]
    cases hlit.symm.trans hv
    exact ⟨_, _, m, rfl, by simp [act, hlit]; rfl, rfl⟩
  | @name tok d b hd hty hm =>
    have hstore : m.store d.cell = .number (truth b) := Memory.number?_eq_some_iff.1 (by rw [hm]; rfl)
    have hvalue : (Expr.name tok).eval o Γ m.store = some (.number (truth b)) := by
      simp [eval, hd, hstore, hty, Value.fits]
    cases hvalue.symm.trans hv
    exact ⟨b, .cell d.cell, m, rfl, by simp [act, hd], by simp [Standing.read, hm, Content.number?, inversions]⟩
  | @compare left right op ht hp =>
    obtain ⟨b, rfl⟩ := eval_compare hv
    obtain ⟨x, hact, hread⟩ := (ht.regular hp).act_eq hv
    exact ⟨b, x, m, rfl, hact, hread _ rfl⟩
  | @negation op e h ih =>
    obtain ⟨_, hinner, hresult⟩ := Option.bind_eq_some_iff.1 hv
    obtain ⟨b, x, m', rfl, hact, hread⟩ := ih hinner
    cases hresult
    refine ⟨!b, _, _, by rw [decide_truth_eq_zero], act_negation op hact hread, ?_⟩
    rw [Standing.read_write hread, inversions]
    by_cases hodd : Odd e.inversions <;> simp [hodd, Nat.odd_add_one]
  | wrapped hw _ ih =>
    rw [hw.eval] at hv
    rw [hw.act, hw.inversions]
    exact ih hv

theorem exists_eval_iff (h : e.Condition Γ m) :
    (∃ w, e.eval o Γ m.store = some (.number w)) ↔ e.Defined o Γ m.store := by
  induction h with
  | literal h => exact iff_of_true ⟨_, by simp [eval, literalValue?, h]; rfl⟩ trivial
  | name => exact Iff.rfl
  | compare ht hp => exact (ht.regular hp).exists_eval_iff (by decide)
  | negation _ ih =>
    rw [Defined, ← ih]
    constructor
    · rintro ⟨w, hw⟩
      obtain ⟨v, hv, hresult⟩ := Option.bind_eq_some_iff.1 hw
      cases v with
      | number z => exact ⟨z, hv⟩
      | text t => cases hresult
    · rintro ⟨w, hw⟩
      exact ⟨truth (w = 0), by simp [eval, hw]⟩
  | wrapped hw _ ih => rw [hw.eval, hw.defined_iff, ih]

/-- A condition has a value exactly where it is defined. -/
theorem isSome_eval_iff (h : e.Condition Γ m) : (e.eval o Γ m.store).isSome ↔ e.Defined o Γ m.store := by
  rw [← h.exists_eval_iff, Option.isSome_iff_exists]
  refine ⟨fun ⟨v, hv⟩ => ?_, fun ⟨w, hw⟩ => ⟨_, hw⟩⟩
  obtain ⟨b, -, -, rfl, -⟩ := h.act_eq hv
  exact ⟨_, hv⟩

/-- Whether the action behind a condition runs. -/
theorem guards {e : Expr .expression} (h : e.Condition s.table.env m) (hcode : Unambiguous code) {n : Nat}
    (ht : Tally s.frame s.table n) (hbound : n + e.slotCount s.table.env < 2 ^ 32) {d : Data} (hd : Loaded s.table m d)
    {v : Value} (hv : e.eval o s.table.env m.store = some v) :
    ∃ b, v = .number (truth b) ∧ e.Guards o code s d (b = true ∨ Odd e.inversions) := by
  obtain ⟨b, x, m', rfl, hact, hread⟩ := h.act_eq hv
  have hacts : Acts o code s.table (e.lower.lines s) _ _ _ _ x _ := h.hasType.acting rfl ht hbound hact
  obtain ⟨d', hrun, htouches, hd', hat⟩ := hacts d hd
  obtain ⟨z, hplace, hz⟩ := hat.read hd' hread
  have hleaves : e.Leaves o code s d d' _ := ⟨hrun, hd'.base, by rw [hplace]; exact hz⟩
  refine ⟨b, rfl, ?_⟩
  have htaken : (if Odd e.inversions then ~~~truth !b else truth b) ≠ 0 ↔ b = true ∨ Odd e.inversions := by
    by_cases hodd : Odd e.inversions
    · simpa [hodd] using not_truth_ne_zero !b
    · cases b <;> simp [hodd, truth]
  rw [← htaken]
  exact hleaves.guards hcode

end Expr.Condition

/-! ## Inversions -/

/-- What is left of the input and the output, once the machine has stopped. -/
def Mips.Machine.result? : Machine → Option (List Word × Text)
  | .running _ _ => none
  | .stopped d => some (d.input, d.output)

theorem Mips.prints_of_steps (n : Nat) {pc : Nat} {d : Data} {rest : List Word} {output : Text}
    (hmain : target? code .main = some pc)
    (h : (steps o code n (.running pc d)).bind Machine.result? = some (rest, output)) :
    Prints o code d rest output := by
  obtain ⟨m, hsteps, hresult⟩ := Option.bind_eq_some_iff.1 h
  cases m with
  | running => cases hresult
  | stopped d' =>
    cases hresult
    exact ⟨pc, d', hmain, reaches_of_steps hsteps, rfl, rfl⟩

/-- `!` turns every bit of what its operand leaves, in the place of the operand. Of a truth value this makes a number that
is not zero, so that `if !f then S` always runs `S`. In general, if the value of a condition is true or the number of
inversions odd, and only then, the action runs. -/
theorem negation_inverts_bits (o : Overflow) (code : List Line) (hcode : Unambiguous code) (s : GenState) (d : Data) :
    (∀ (op : Token) (f : Expr .factor), HasType s.table.env f .logical → ∀ d' w, f.Leaves o code s d d' w →
      let place := (f.lower s).state.current.place
      ((Expr.negation op f).lower s).state.current = (f.lower s).state.current ∧
      (Expr.negation op f).Leaves o code s d ((d'.set .t0 (.number (~~~w))).put place.offset (.number (~~~w))) (~~~w) ∧
      ∀ b, w = truth b → ~~~w = (if b then -2 else -1) ∧
        Expr.Guards o code s (.term (.relation (.factor (.negation op f)))) d True) ∧
    ∀ (calls : List Call) (e : Expr .expression),
      let m := s.table.contents d.frame
      s.session = (Session.fresh 4).run calls → d.get .fp = .base → e.Condition s.table.env m →
      ((Session.fresh 4).slots calls).length + e.slotCount s.table.env < 2 ^ 32 →
      ((e.eval o s.table.env m.store).isSome ↔ e.Defined o s.table.env m.store) ∧
      ∀ v, e.eval o s.table.env m.store = some v →
        ∃ b, v = .number (truth b) ∧ e.Guards o code s d (b = true ∨ Odd e.inversions) := by
  refine ⟨fun op f ht d' w hf => ?_, fun calls e hs hbase he hfew => ⟨he.isSome_eval_iff, fun v hv => ?_⟩⟩
  · have hinverted := hf.negation op ht
    refine ⟨by simp [Expr.lower], hinverted, fun b hb => ⟨by rw [hb]; cases b <;> decide, ?_⟩⟩
    have hleaves := ((hinverted.wrapped .factor).wrapped .relation).wrapped .term
    have htaken : (~~~w ≠ 0) = True := eq_true (hb ▸ not_truth_ne_zero b)
    exact htaken ▸ hleaves.guards hcode
  · have htally := Session.tally_fresh calls (by omega)
    rw [← hs] at htally
    exact he.guards hcode htally hfew (htally.loaded hbase) hv

/-- `write("no")` -/
def writeNo : Stmt :=
  .write (.plain .inout "write") (.plain .lparen "(") (.term (.relation (.factor (.literal (.plain .literal "\"no\"")))))
    (.plain .rparen ")")

/-- A program that writes a text under a condition. -/
def guardedProgram (condition : Expr .expression) : Program :=
  .block (.plain .begin "begin") (.last (.ifThen (.plain .if "if") condition (.plain .then "then") writeNo))
    (.plain .end "end") (.plain .dot ".")

theorem lines_guardedProgram (condition : Expr .expression) :
    (guardedProgram condition).body.lines .start =
      (Code.ifThen (.plain .if "if") condition (.plain .then "then") writeNo).lower.lines
        { GenState.start with table := GenState.start.table.enter } := by
  rw [guardedProgram, Program.lines_body_block]
  rfl

/-- `!!(2 < 1)` -/
def twiceInverted : Expr .expression :=
  .term (.relation (.factor (.negation (.plain .not "!") (.negation (.plain .not "!")
    (.group (.plain .lparen "(") (.term (.relation (.compare (.literal (.plain .literal "2")) (.plain .relOp "<")
      (.literal (.plain .literal "1"))))) (.plain .rparen ")"))))))

/-- What is inverted twice decides as before: nothing is written if two is not less than one. -/
theorem twiceInverted_skips :
    let s : GenState := { GenState.start with table := GenState.start.table.enter }
    let d : Data := .start (fun _ => .base) 0 0 (fun _ => 0) []
    twiceInverted.eval .traps s.table.env (s.table.contents d.frame).store = some (.number 0) ∧
      Decides .traps (guardedProgram twiceInverted).code prolog.length d (twiceInverted.testLines s)
        (writeNo.lower.lines (twiceInverted.tested s)) False := by
  intro s d
  have hvalue : twiceInverted.eval .traps s.table.env (s.table.contents d.frame).store = some (.number 0) := by
    decide +kernel
  have hless : Expr.Condition s.table.env (s.table.contents d.frame)
      (.compare (.literal (.plain .literal "2")) (.plain .relOp "<") (.literal (.plain .literal "1"))) :=
    .compare (.comparison .literal (by decide) .literal)
      ⟨⟨by decide +kernel, by decide +kernel⟩, ⟨by decide +kernel, by decide +kernel⟩, .literal⟩
  have hcondition : twiceInverted.Condition s.table.env (s.table.contents d.frame) :=
    .wrapped .term (.wrapped .relation (.wrapped .factor (.negation (.negation (.wrapped .group
      (.wrapped .term (.wrapped .relation hless)))))))
  obtain ⟨b, hb, hguards⟩ := ((negation_inverts_bits .traps _ (guardedProgram twiceInverted).unambiguous_code s d).2
    [.enter] twiceInverted rfl rfl hcondition (by decide +kernel)).2 _ hvalue
  have htaken : (b = true ∨ Odd twiceInverted.inversions) = False := by
    cases b
    · simp [twiceInverted, Expr.inversions]
    · cases hb
  have hat := CodeAt.of_append prolog ((guardedProgram twiceInverted).body.lines .start) postlog
  rw [lines_guardedProgram] at hat
  rw [htaken] at hguards
  exact ⟨hvalue, hguards _ _ _ _ hat⟩

/-- `!true` -/
def invertedTruth : Expr .expression :=
  .term (.relation (.factor (.negation (.plain .not "!") (.literal (.plain .literal "true")))))

/-- `!true` is false, and a run of the program writes nothing. But the code does. -/
theorem invertedTruth_writes :
    let p := guardedProgram invertedTruth
    let d : Data := .start (fun _ => .base) 0 0 (fun _ => 0) []
    p.Valid ∧ (lower 4 { tokens := p.tokens }).diagnostics = [] ∧
      (∀ o Γ store, invertedTruth.eval o Γ store = some (.number (truth false))) ∧
      (∀ o w, p.Runs o w w) ∧
      Prints .traps (lower 4 { tokens := p.tokens }).lines d [] "Program Start\nnoProgram End\n" := by
  intro p d
  have hwrite : Text.ofString "write" ≠ "read" := by decide
  have hv : p.Valid := by
    simp [p, guardedProgram, invertedTruth, writeNo, Program.Valid, Code.Valid, Expr.Valid, Token.plain, hwrite]
  have hvalue : ∀ o Γ store, invertedTruth.eval o Γ store = some (.number (truth false)) := by
    intro o Γ store
    have hlit : literalValue? "true" = some (.number 1) := by decide +kernel
    simp [invertedTruth, Expr.eval, Token.plain, hlit, truth]
  refine ⟨hv, by rw [lower_tokens hv]; decide +kernel, hvalue, fun o w => .last (.ifFalse (hvalue _ _ _)), ?_⟩
  rw [lines_lower hv]
  have hmain : target? p.code .main = some 3 := by decide +kernel
  exact prints_of_steps 32 hmain (by decide +kernel)

end AlgolMips
