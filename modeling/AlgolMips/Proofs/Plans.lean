import AlgolMips.Proofs.Acceptance
import AlgolMips.Proofs.Drawing
import AlgolMips.Proofs.Likeness
import AlgolMips.Proofs.Reading

/-!
# Plans

A fault never changes how a program is gone through. Lowering goes by a plan of steps: a token is passed whose kind was
looked at before, or taken whatever it is where the grammar asks for a kind, a name is declared, a scope is entered or
left. Every token step takes one token, the next one, so a plan speaks of tokens by their indices. The syntactic faults of
a lowering are the tokens of a wrong kind that its plan takes, in order, and its scopes are entered and left where the
plan says (`Lowering.GoesByPlan`).

The plan of a source depends on the kinds of its tokens, and on which of its input and output keywords are `read`. Names,
types and literals have no say in it (`TokenSource.plan_eq`).
-/

namespace AlgolMips

open Gen Mips Parse

/-! ## Plans -/

/-- A step through a program. Tokens are given as such, or by their indices. -/
inductive Step (α : Type) where
  /-- A token is taken whose kind was looked at before. -/
  | pass (found : α)
  /-- A token is taken in place of one of a kind, whatever it is. -/
  | take (expected : Kind) (found : α)
  /-- An identifier is taken in place of one and bound. -/
  | declare (name : α)
  | enter
  | leave

namespace Step

variable {α β : Type}

def map (f : α → β) : Step α → Step β
  | pass found => pass (f found)
  | take k found => take k (f found)
  | declare name => declare (f name)
  | enter => enter
  | leave => leave

/-- The token that a step takes. -/
def found? : Step α → Option α
  | pass found => some found
  | take _ found => some found
  | declare name => some name
  | enter => none
  | leave => none

/-- Whether a step can be told from what a lowering leaves and does: all but tokens of the right kinds. -/
def shows : Step Token → Bool
  | pass _ => false
  | take k found => found.kind ≠ k
  | _ => true

/-- The diagnostic that a step leaves. -/
def fault? : Step Token → Option Diagnostic
  | take k found => if found.kind = k then none else some ⟨found, .expected k found⟩
  | _ => none

/-- Steps with their tokens counted from a number on. -/
def number : Nat → List (Step α) → List (Step Nat)
  | _, [] => []
  | n, pass _ :: rest => pass n :: number (n + 1) rest
  | n, take k _ :: rest => take k n :: number (n + 1) rest
  | n, declare _ :: rest => declare n :: number (n + 1) rest
  | n, enter :: rest => enter :: number n rest
  | n, leave :: rest => leave :: number n rest

theorem number_map (f : α → β) (n : Nat) (steps : List (Step α)) : number n (steps.map (map f)) = number n steps := by
  induction steps generalizing n with
  | nil => rfl
  | cons step rest ih => cases step <;> simp only [List.map_cons, map, number, ih]

/-- The tokens of numbered steps are counted without a gap. -/
theorem found_number (n : Nat) (steps : List (Step α)) :
    (number n steps).filterMap found? = List.range' n (steps.filterMap found?).length := by
  induction steps generalizing n with
  | nil => rfl
  | cons step rest ih => cases step <;> simp [number, found?, ih, List.range'_succ, List.filterMap_cons]

/-- Steps that take the tokens of a sequence, one after the other, are found again under the numbers of the tokens. -/
theorem map_number (f : Nat → α) (n : Nat) (steps : List (Step α))
    (h : steps.filterMap found? = (List.range' n (steps.filterMap found?).length).map f) :
    (number n steps).map (map f) = steps := by
  -- a step that takes a token takes the one with the next number, and the others come behind it
  have htake {t : α} {n : Nat} {found : List α} (h : t :: found = (List.range' n (t :: found).length).map f) :
      f n = t ∧ found = (List.range' (n + 1) found.length).map f := by
    rw [List.length_cons, List.range'_succ, List.map_cons] at h
    exact ⟨(List.cons.inj h).1.symm, (List.cons.inj h).2⟩
  induction steps generalizing n with
  | nil => rfl
  | cons step rest ih =>
    cases step with
    | pass t =>
      obtain ⟨ht, hrest⟩ := htake h
      rw [number, List.map_cons, ih (n + 1) hrest, map, ht]
    | take k t =>
      obtain ⟨ht, hrest⟩ := htake h
      rw [number, List.map_cons, ih (n + 1) hrest, map, ht]
    | declare t =>
      obtain ⟨ht, hrest⟩ := htake h
      rw [number, List.map_cons, ih (n + 1) hrest, map, ht]
    | enter => rw [number, List.map_cons, ih n h, map]
    | leave => rw [number, List.map_cons, ih n h, map]

/-- A step that takes a token of a wrong kind: the index of the token, the kind that was asked for and the kind that was
found. -/
def wrong? (kinds : Nat → Kind) : Step Nat → Option (Nat × Kind × Kind)
  | take k i => if kinds i = k then none else some (i, k, kinds i)
  | _ => none

/-- The diagnostics of steps, by the indices of tokens. -/
theorem filterMap_fault?_map (f : Nat → Token) (plan : List (Step Nat)) :
    (plan.map (map f)).filterMap fault? =
      (plan.filterMap (wrong? fun i => (f i).kind)).map fun w => ⟨f w.1, .expected w.2.1 (f w.1)⟩ := by
  rw [List.filterMap_map, List.map_filterMap]
  refine congrArg (List.filterMap · plan) (funext fun step => ?_)
  cases step with
  | take k i => by_cases h : (f i).kind = k <;> simp [map, fault?, wrong?, h]
  | _ => rfl

theorem filterMap_fault?_shows (steps : List (Step Token)) :
    (steps.filter shows).filterMap fault? = steps.filterMap fault? := by
  rw [List.filterMap_filter]
  refine congrArg (List.filterMap · steps) (funext fun step => ?_)
  cases step <;> simp [shows, fault?]

end Step

/-- The steps through an expression. -/
def Expr.steps : {l : Level} → Expr l → List (Step Token)
  | _, .add left op right => left.steps ++ .pass op :: right.steps
  | _, .term e => e.steps
  | _, .mul left op right => left.steps ++ .pass op :: right.steps
  | _, .relation e => e.steps
  | _, .compare left op right => left.steps ++ .pass op :: right.steps
  | _, .factor e => e.steps
  | _, .missing => []
  | _, .name tok => [.pass tok]
  | _, .literal tok => [.pass tok]
  | _, .negation op e => .pass op :: e.steps
  | _, .group opening e closing => .pass opening :: (e.steps ++ [.take .rparen closing])

/-- The steps through a statement or the inside of a block. -/
def Code.steps : {x : Extent} → Code x → List (Step Token)
  | _, .empty => []
  | _, .declare type name => [.pass type, if name.kind = .ident then .declare name else .take .ident name]
  | _, .assign target sign value => .pass target :: .take .assign sign :: value.steps
  | _, .ifThen opening condition middle action =>
    .pass opening :: (condition.steps ++ .take .then middle :: action.steps)
  | _, .whileDo opening condition middle action =>
    .pass opening :: (condition.steps ++ .take .do middle :: action.steps)
  | _, .block opening inside closing => .pass opening :: .enter :: (inside.steps ++ [.take .end closing, .leave])
  | _, .read keyword opening target closing =>
    .pass keyword :: .take .lparen opening :: (target.toList.map .pass ++ [.take .rparen closing])
  | _, .write keyword opening value closing =>
    .pass keyword :: .take .lparen opening :: (value.steps ++ [.take .rparen closing])
  | _, .done => []
  | _, .last s => s.steps
  | _, .next s separator rest => s.steps ++ .take .semi separator :: rest.steps

/-- The steps through a program. -/
def Program.steps : Program → List (Step Token)
  | .bare stop => [.take .dot stop]
  | .block opening inside closing stop =>
    .pass opening :: .enter :: (inside.steps ++ [.take .end closing, .leave, .take .dot stop])

/-! ### The steps of a tree take its tokens -/

theorem Expr.found_steps {l : Level} (e : Expr l) : e.steps.filterMap Step.found? = e.tokens := by
  induction e with
  | add left op right ihl ihr | mul left op right ihl ihr | compare left op right ihl ihr =>
    show (left.steps ++ .pass op :: right.steps).filterMap Step.found? = left.tokens ++ op :: right.tokens
    rw [List.filterMap_append, ihl, ← ihr]
    rfl
  | term e ih | relation e ih | factor e ih => exact ih
  | missing | name | literal => rfl
  | negation op e ih =>
    show (.pass op :: e.steps).filterMap Step.found? = op :: e.tokens
    rw [← ih]
    rfl
  | group opening e closing ih =>
    show (.pass opening :: (e.steps ++ [Step.take .rparen closing])).filterMap Step.found? =
      opening :: (e.tokens ++ [closing])
    rw [← ih]
    exact congrArg (opening :: ·) List.filterMap_append

theorem Code.found_steps {x : Extent} (c : Code x) : c.steps.filterMap Step.found? = c.tokens := by
  induction c with
  | declare type name =>
    show [Step.pass type, if name.kind = .ident then .declare name else .take .ident name].filterMap Step.found? =
      [type, name]
    split <;> rfl
  | read keyword opening target closing => cases target <;> rfl
  | empty | done => rfl
  | assign target sign value =>
    show (.pass target :: .take .assign sign :: value.steps).filterMap Step.found? = target :: sign :: value.tokens
    rw [← value.found_steps]
    rfl
  | ifThen opening condition middle action ih =>
    show (.pass opening :: (condition.steps ++ .take .then middle :: action.steps)).filterMap Step.found? =
      opening :: (condition.tokens ++ middle :: action.tokens)
    rw [← condition.found_steps, ← ih]
    exact congrArg (opening :: ·) List.filterMap_append
  | whileDo opening condition middle action ih =>
    show (.pass opening :: (condition.steps ++ .take .do middle :: action.steps)).filterMap Step.found? =
      opening :: (condition.tokens ++ middle :: action.tokens)
    rw [← condition.found_steps, ← ih]
    exact congrArg (opening :: ·) List.filterMap_append
  | block opening inside closing ih =>
    show (.pass opening :: .enter :: (inside.steps ++ [Step.take .end closing, .leave])).filterMap Step.found? =
      opening :: (inside.tokens ++ [closing])
    rw [← ih]
    exact congrArg (opening :: ·) List.filterMap_append
  | write keyword opening value closing =>
    show (.pass keyword :: .take .lparen opening :: (value.steps ++ [Step.take .rparen closing])).filterMap Step.found? =
      keyword :: opening :: (value.tokens ++ [closing])
    rw [← value.found_steps]
    exact congrArg (keyword :: opening :: ·) List.filterMap_append
  | last s ih => exact ih
  | next s separator rest ihs ihr =>
    show (s.steps ++ .take .semi separator :: rest.steps).filterMap Step.found? = s.tokens ++ separator :: rest.tokens
    rw [List.filterMap_append, ihs, ← ihr]
    rfl

theorem Program.found_steps (p : Program) : p.steps.filterMap Step.found? = p.tokens := by
  cases p <;> simp [Program.steps, Program.tokens, Step.found?, List.filterMap_cons, Code.found_steps]

/-! ### Other tokens of the same kinds -/

theorem Expr.steps_map (f : Token → Token) {l : Level} (e : Expr l) : (e.map f).steps = e.steps.map (Step.map f) := by
  induction e with
  | add left op right ihl ihr | mul left op right ihl ihr | compare left op right ihl ihr =>
    show (left.map f).steps ++ .pass (f op) :: (right.map f).steps = (left.steps ++ .pass op :: right.steps).map (Step.map f)
    rw [ihl, ihr, List.map_append]
    rfl
  | term e ih | relation e ih | factor e ih => exact ih
  | missing | name | literal => rfl
  | negation op e ih =>
    show .pass (f op) :: (e.map f).steps = (.pass op :: e.steps).map (Step.map f)
    rw [ih]
    rfl
  | group opening e closing ih =>
    show .pass (f opening) :: ((e.map f).steps ++ [Step.take .rparen (f closing)]) =
      (.pass opening :: (e.steps ++ [Step.take .rparen closing])).map (Step.map f)
    rw [ih, List.map_cons, List.map_append]
    rfl

theorem Code.steps_map {f : Token → Token} (hf : ∀ t, (f t).kind = t.kind) {x : Extent} (c : Code x) :
    (c.map f).steps = c.steps.map (Step.map f) := by
  induction c with
  | declare type name =>
    show [Step.pass (f type), if (f name).kind = .ident then .declare (f name) else .take .ident (f name)] =
      [Step.pass type, if name.kind = .ident then .declare name else .take .ident name].map (Step.map f)
    rw [hf]
    split <;> rfl
  | read keyword opening target closing => cases target <;> rfl
  | empty | done => rfl
  | assign target sign value =>
    show .pass (f target) :: .take .assign (f sign) :: (value.map f).steps =
      (.pass target :: .take .assign sign :: value.steps).map (Step.map f)
    rw [value.steps_map]
    rfl
  | ifThen opening condition middle action ih =>
    show .pass (f opening) :: ((condition.map f).steps ++ .take .then (f middle) :: (action.map f).steps) =
      (.pass opening :: (condition.steps ++ .take .then middle :: action.steps)).map (Step.map f)
    rw [condition.steps_map, ih, List.map_cons, List.map_append]
    rfl
  | whileDo opening condition middle action ih =>
    show .pass (f opening) :: ((condition.map f).steps ++ .take .do (f middle) :: (action.map f).steps) =
      (.pass opening :: (condition.steps ++ .take .do middle :: action.steps)).map (Step.map f)
    rw [condition.steps_map, ih, List.map_cons, List.map_append]
    rfl
  | block opening inside closing ih =>
    show .pass (f opening) :: .enter :: ((inside.map f).steps ++ [Step.take .end (f closing), .leave]) =
      (.pass opening :: .enter :: (inside.steps ++ [Step.take .end closing, .leave])).map (Step.map f)
    rw [ih, List.map_cons, List.map_cons, List.map_append]
    rfl
  | write keyword opening value closing =>
    show .pass (f keyword) :: .take .lparen (f opening) :: ((value.map f).steps ++ [Step.take .rparen (f closing)]) =
      (.pass keyword :: .take .lparen opening :: (value.steps ++ [Step.take .rparen closing])).map (Step.map f)
    rw [value.steps_map, List.map_cons, List.map_cons, List.map_append]
    rfl
  | last s ih => exact ih
  | next s separator rest ihs ihr =>
    show (s.map f).steps ++ .take .semi (f separator) :: (rest.map f).steps =
      (s.steps ++ .take .semi separator :: rest.steps).map (Step.map f)
    rw [ihs, ihr, List.map_append]
    rfl

theorem Program.steps_map {f : Token → Token} (hf : ∀ t, (f t).kind = t.kind) (p : Program) :
    (p.map f).steps = p.steps.map (Step.map f) := by
  cases p <;> simp [Program.steps, Program.map, Step.map, Code.steps_map hf]

/-! ## Lowering carries the steps out -/

/-- What a lowering does: it leaves an event, or asks a call of its session. -/
inductive Act where
  | event (e : Event)
  | call (c : Call)

namespace Act

def event? : Act → Option Event
  | event e => some e
  | call _ => none

def call? : Act → Option Call
  | event _ => none
  | call c => some c

/-- The step that can be told from an act. -/
def step? : Act → Option (Step Token)
  | event (.fault ⟨_, .expected k found⟩) => some (.take k found)
  | call .enter => some .enter
  | call .leave => some .leave
  | call (.declare tok _) => some (.declare tok)
  | _ => none

end Act

namespace Gen

variable {α β : Type} {s : GenState} {steps : List (Step Token)}

/-- A walk carries steps out: its syntactic faults are those of the steps, and its events and the calls of its session can
be put into one order in which the steps that show themselves appear as they should. -/
structure Performs (steps : List (Step Token)) (m : Gen α) (s : GenState) : Prop where
  faults : ((m s).events.filterMap Event.fault?).filter (fun d => d.fault.kind = .syntactic) = steps.filterMap Step.fault?
  acts : ∃ acts : List Act, acts.filterMap Act.event? = (m s).events ∧
    (m s).state.session = s.session.run (acts.filterMap Act.call?) ∧
    acts.filterMap Act.step? = steps.filter Step.shows

theorem Performs.bind {more : List (Step Token)} {m : Gen α} {f : α → Gen β} (h : Performs steps m s)
    (hf : Performs more (f (m s).value) (m s).state) : Performs (steps ++ more) (m >>= f) s where
  faults := by
    rw [events_bind, List.filterMap_append, List.filter_append, h.faults, hf.faults, List.filterMap_append]
  acts := by
    obtain ⟨first, hevents, hstate, hsteps⟩ := h.acts
    obtain ⟨second, hevents', hstate', hsteps'⟩ := hf.acts
    refine ⟨first ++ second, ?_, ?_, ?_⟩
    · rw [List.filterMap_append, hevents, hevents', events_bind]
    · rw [state_bind, hstate', hstate, List.filterMap_append, Session.run_append]
    · rw [List.filterMap_append, hsteps, hsteps', List.filter_append]

/-- Steps that do not show themselves may be told or not. -/
theorem Performs.congr {steps' : List (Step Token)} {m : Gen α} (h : Performs steps m s)
    (hshow : steps.filter Step.shows = steps'.filter Step.shows) : Performs steps' m s where
  faults := by rw [h.faults, ← Step.filterMap_fault?_shows, hshow, Step.filterMap_fault?_shows]
  acts := by
    rw [← hshow]
    exact h.acts

/-- A walk without a step to tell: it asks for temporaries at most, and leaves no syntactic fault. -/
theorem performs_nil {m : Gen α} (calls : List Call) (hcalls : ∀ c ∈ calls, c = .temporary)
    (hstate : (m s).state.session = s.session.run calls) (hclear : Clear Fault.Syntactic m s) : Performs [] m s where
  faults := by
    refine List.filter_eq_nil_iff.2 fun d hd => ?_
    obtain ⟨e, he, hfault⟩ := List.mem_filterMap.1 hd
    cases e with
    | fault d' =>
      obtain rfl := Option.some.inj hfault
      simpa [Fault.Syntactic] using hclear d' he
    | _ => cases hfault
  acts := by
    refine ⟨calls.map Act.call ++ (m s).events.map Act.event, ?_, ?_, ?_⟩
    · simp [List.filterMap_append, List.filterMap_map, Function.comp_def, Act.event?]
    · simp [hstate, List.filterMap_append, List.filterMap_map, Function.comp_def, Act.call?]
    · refine List.filterMap_eq_nil_iff.2 fun act hact => ?_
      rcases List.mem_append.1 hact with hcall | hevent
      · obtain ⟨c, hc, rfl⟩ := List.mem_map.1 hcall
        rw [hcalls c hc]
        rfl
      · obtain ⟨e, he, rfl⟩ := List.mem_map.1 hevent
        cases e with
        | fault d =>
          obtain ⟨tok, f⟩ := d
          cases f with
          | expected k found => exact absurd rfl (hclear _ he)
          | _ => rfl
        | _ => rfl

/-- A walk that leaves the table and the frame alone, and no syntactic fault. -/
theorem performs_still {m : Gen α} (hstate : (m s).state.session = s.session) (hclear : Clear Fault.Syntactic m s) :
    Performs [] m s :=
  performs_nil [] (by simp) hstate hclear

/-- A walk that takes a slot for a temporary. -/
theorem performs_temporary {m : Gen α} (hstate : (m s).state.session = ⟨s.table, s.frame.alloc.2⟩)
    (hclear : Clear Fault.Syntactic m s) : Performs [] m s :=
  performs_nil [.temporary] (by simp) hstate hclear

theorem Performs.skip {m : Gen α} {f : α → Gen β} (hstate : (m s).state.session = s.session)
    (hclear : Clear Fault.Syntactic m s) (hf : Performs steps (f (m s).value) (m s).state) : Performs steps (m >>= f) s :=
  (performs_still hstate hclear).bind hf

theorem performs_expect {k : Kind} {tok : Token} : Performs [.take k tok] (expect k tok) s := by
  by_cases h : tok.kind = k
  · exact (performs_still (by simp) ((clear_syntactic_expect ..).2 h)).congr (by simp [Step.shows, h])
  · have hevents : (expect k tok s).events = [.fault ⟨tok, .expected k tok⟩] := by simp [expect, h, report]
    refine ⟨?_, [.event (.fault ⟨tok, .expected k tok⟩)], ?_, ?_, ?_⟩
    · simp [hevents, Event.fault?, Fault.kind, Step.fault?, h]
    · rw [hevents]
      rfl
    · rw [state_expect]
      rfl
    · simp [Act.step?, Step.shows, h]

/-- To pass a token takes no part in a walk. -/
theorem Performs.pass {m : Gen α} (h : Performs steps m s) (tok : Token) : Performs (.pass tok :: steps) m s :=
  h.congr (by simp [Step.shows])

/-! ### Expressions -/

theorem performs_add {op : Token} {left right : Operand} : Performs [] (add op left right) s := by
  by_cases h : left.ty.combines right.ty
  · exact performs_temporary (by simp [add, h, binary]; rfl) (by simp)
  · exact performs_still (by simp [add, h]) (by simp)

theorem performs_mul {op : Token} {left right : Operand} : Performs [] (mul op left right) s := by
  by_cases h : left.ty.combines right.ty
  · exact performs_temporary (by simp [mul, h, binary]; rfl) (by simp)
  · exact performs_still (by simp [mul, h]) (by simp)

theorem performs_compare {op : Token} {left right : Operand} : Performs [] (Gen.compare op left right) s := by
  by_cases hright : right.ty.comparable
  · by_cases hleft : left.ty = .string
    · exact performs_still (by simp [Gen.compare, hright, hleft]) (by simp)
    · exact performs_temporary (by simp [Gen.compare, hright, hleft, binary]; rfl) (by simp)
  · exact performs_still (by simp [Gen.compare, hright]; rfl) (by simp)

theorem performs_negate {op : Token} {d : Operand} : Performs [] (negate op d) s := by
  refine performs_still ?_ (by simp)
  unfold negate
  split <;> rfl

theorem performs_literal {lexeme : Text} : Performs [] (literal lexeme) s := by
  by_cases hty : Ty.ofLiteral lexeme = .string
  · exact performs_still (by rw [(literal_string hty).2]; rfl) (by simp)
  · exact performs_temporary (by rw [(literal_immediate hty).2]; rfl) (by simp)

theorem performs_reference {tok : Token} : Performs [] (reference tok) s := by
  refine performs_still ?_ (by simp)
  cases hres : s.table.resolve tok.value with
  | error e => simp [reference, hres]
  | ok v => rw [(reference_ok hres).1]; rfl

/-- Two operands with an operator between them, and what is done with them. -/
theorem Performs.operands {left right : Gen Unit} {f : Operand → Operand → Gen Unit} {more : List (Step Token)}
    (hl : Performs steps left s) (hr : ∀ s, Performs more right s) (hf : ∀ a b s, Performs [] (f a b) s) (op : Token) :
    Performs (steps ++ .pass op :: more) (do left; let a ← current; right; f a (← current)) s := by
  have hbehind (s' : GenState) : Performs (more ++ []) (do let a ← current; right; f a (← current)) s' :=
    .skip rfl (clear_current _) ((hr _).bind (.skip rfl (clear_current _) (hf _ _ _)))
  refine hl.bind ?_
  rw [← List.append_nil more]
  exact (hbehind _).pass op

end Gen

theorem Expr.performs_lower {l : Level} (e : Expr l) (s : GenState) : Performs e.steps e.lower s := by
  induction e generalizing s with
  | add left op right ihLeft ihRight => exact (ihLeft s).operands ihRight (fun _ _ _ => performs_add) op
  | term e ih => exact .skip rfl (clear_produce _ _) (ih _)
  | mul left op right ihLeft ihRight => exact (ihLeft s).operands ihRight (fun _ _ _ => performs_mul) op
  | relation e ih => exact .skip rfl (clear_produce _ _) (ih _)
  | compare left op right ihLeft ihRight =>
    exact .skip rfl (clear_produce _ _) ((ihLeft _).operands ihRight (fun _ _ _ => performs_compare) op)
  | factor e ih => exact .skip rfl (clear_produce _ _) (ih _)
  | missing => exact performs_still rfl (clear_produce _ _)
  | name tok =>
    refine .pass (.skip rfl (clear_produce _ _) ?_) tok
    exact performs_reference.bind (performs_still rfl (clear_pure () _))
  | literal tok => exact .pass (.skip rfl (clear_produce _ _) performs_literal) tok
  | negation op e ih =>
    show Performs (.pass op :: e.steps) (Expr.negation op e).lower s
    rw [← List.append_nil e.steps]
    exact .pass (.skip rfl (clear_produce _ _) ((ih _).bind (.skip rfl (clear_current _) performs_negate))) op
  | group opening e closing ih =>
    exact .pass (.skip rfl (clear_produce _ _) ((ih _).bind performs_expect)) opening

/-! ### Statements -/

namespace Gen

variable {s : GenState} {steps more : List (Step Token)}

/-- A call that shows itself, and nothing else. -/
theorem performs_call {α : Type} {m : Gen α} (c : Call) (step : Step Token) (hstate : (m s).state.session = s.session.run [c])
    (hevents : (m s).events = []) (hstep : (Act.call c).step? = some step) (hshow : step.shows) (hfault : step.fault? = none) :
    Performs [step] m s where
  faults := by simp [hevents, hfault]
  acts := ⟨[.call c], hevents.symm, hstate, by simp [hstep, hshow]⟩

theorem performs_declare {tok : Token} {ty : Ty} : Performs [.declare tok] (declare tok ty) s := by
  refine performs_call (.declare tok ty) (.declare tok) ?_ ?_ rfl rfl rfl
  · cases h : s.table.declare s.frame tok ty <;> simp [declare, Session.run, Session.perform, GenState.session, h]
  · unfold declare
    split <;> rfl

/-- A binding, and then what is done with its result. -/
theorem Performs.declared {name : Token} {ty : Ty} {f : Except NameError Variable → Gen Unit}
    (hok : ∀ v s, Performs [] (f (.ok v)) s) (herror : ∀ e s, Performs [] (f (.error e)) s) :
    Performs [.declare name] (declare name ty >>= f) s := by
  refine performs_declare.bind ?_
  cases (declare name ty s).value with
  | ok v => exact hok v _
  | error e => exact herror e _

/-- A name that cannot be bound is reported, which is no syntactic fault. -/
theorem performs_declaration {type name : Token} :
    Performs [if name.kind = .ident then .declare name else .take .ident name] (declaration type name) s := by
  have hok (s' : GenState) : Performs [] (pure ()) s' := performs_still rfl (clear_pure _ _)
  have herror (e : NameError) (s' : GenState) : Performs [] (report name (.name e)) s' :=
    performs_still rfl ((clear_report ..).2 (name_not_syntactic e))
  refine .skip rfl (clear_produce _ _) ?_
  by_cases hk : name.kind = .ident
  · simp only [if_pos hk]
    refine .skip (by simp) ((clear_syntactic_expect ..).2 hk) (.skip rfl (clear_get _) ?_)
    split
    · exact .skip rfl (clear_remark _ _ _) (.declared (fun _ => hok) herror)
    · exact .declared (fun _ => hok) herror
  · simp only [if_neg hk]
    exact performs_expect.bind (hok _)

theorem performs_storeIn {target : Token} {v : Variable} : Performs [] (storeIn target v) s := by
  refine performs_still ?_ (by simp)
  by_cases h : v.ty.assignable s.current.ty <;> simp [storeIn, h]

theorem performs_assignment {target sign : Token} {value : Gen Unit} (hvalue : ∀ s, Performs steps value s) :
    Performs (.take .assign sign :: steps) (assignment target sign value) s := by
  refine .skip rfl (clear_produce _ _) (.skip rfl (clear_resolve _ _) ?_)
  split
  · next e _ => exact .skip rfl ((clear_report ..).2 (name_not_syntactic e)) (performs_expect.bind (hvalue _))
  · rw [← List.append_nil steps]
    exact performs_reference.bind (performs_expect.bind ((hvalue _).bind performs_storeIn))

theorem performs_expectCondition {tok : Token} {g : Guarded} : Performs [] (expectCondition tok g) s :=
  performs_still (by simp) (by simp)

theorem performs_conditional {opening middle : Token} {condition action : Gen Unit}
    (hcondition : ∀ s, Performs steps condition s) (haction : ∀ s, Performs more action s) :
    Performs (steps ++ .take .then middle :: more) (conditional opening middle condition action) s := by
  refine .skip rfl (clear_produce _ _) ((hcondition _).bind (performs_expectCondition.bind ?_))
  refine .skip rfl (clear_newLabel _) (.skip rfl (clear_current _) (.skip rfl (clear_emit _ _) ?_))
  rw [← List.append_nil more]
  exact performs_expect.bind ((haction _).bind (performs_still rfl (clear_emit _ _)))

theorem performs_loop {opening middle : Token} {condition action : Gen Unit}
    (hcondition : ∀ s, Performs steps condition s) (haction : ∀ s, Performs more action s) :
    Performs (steps ++ .take .do middle :: more) (loop opening middle condition action) s := by
  refine .skip rfl (clear_produce _ _) (.skip rfl (clear_newLabel _) (.skip rfl (clear_newLabel _) ?_))
  refine .skip rfl (clear_emit _ _) ((hcondition _).bind ?_)
  rw [← List.append_nil more]
  refine performs_expect.bind (performs_expectCondition.bind (.skip rfl (clear_current _) ?_))
  exact .skip rfl (clear_emit _ _) ((haction _).bind (performs_still rfl (clear_emit _ _)))

theorem performs_enterScope : Performs [.enter] enterScope s := performs_call .enter .enter rfl rfl rfl rfl rfl

theorem performs_leaveScope : Performs [.leave] leaveScope s := performs_call .leave .leave rfl rfl rfl rfl rfl

theorem performs_block {closing : Token} {inside : Gen Unit} (hinside : ∀ s, Performs steps inside s) :
    Performs (.enter :: (steps ++ [Step.take .end closing, .leave])) (block closing inside) s :=
  .skip rfl (clear_produce _ _) (performs_enterScope.bind ((hinside _).bind (performs_expect.bind performs_leaveScope)))

theorem performs_readCurrent {keyword : Token} : Performs [] (readCurrent keyword) s := by
  refine performs_still ?_ (by simp)
  cases h₁ : s.current.ty.readable <;> cases h₂ : s.current.place.isLabel <;> simp [readCurrent, h₁, h₂]

theorem performs_read {keyword opening : Token} {target : Option Token} {closing : Token} :
    Performs (.take .lparen opening :: (target.toList.map .pass ++ [.take .rparen closing]))
      (read keyword opening target closing) s := by
  refine .skip rfl (clear_produce _ _) (performs_expect.bind ?_)
  cases target with
  | none => exact .skip rfl (clear_produce _ _) performs_expect
  | some tok =>
    refine .pass (performs_reference.bind ?_) tok
    split
    · exact performs_readCurrent.bind performs_expect
    · exact performs_expect

theorem performs_write {keyword opening : Token} {value : Gen Unit} {closing : Token}
    (hvalue : ∀ s, Performs steps value s) :
    Performs (.take .lparen opening :: (steps ++ [.take .rparen closing])) (write keyword opening value closing) s := by
  refine .skip rfl (clear_produce _ _) (performs_expect.bind ((hvalue _).bind ?_))
  refine .skip rfl (clear_note _ _) (.skip rfl (clear_current _) ?_)
  split
  · exact .skip rfl (clear_emit _ _) performs_expect
  · exact performs_expect

end Gen

theorem Code.performs_lower {x : Extent} (c : Code x) (s : GenState) : Performs c.steps c.lower s := by
  induction c generalizing s with
  | empty => exact performs_still rfl (clear_produce _ _)
  | declare type name => exact .pass (.skip rfl (clear_enter _ _) performs_declaration) type
  | assign target sign value =>
    exact .pass (.skip rfl (clear_enter _ _) (performs_assignment value.performs_lower)) target
  | ifThen opening condition middle action ih =>
    exact .pass (.skip rfl (clear_enter _ _) (performs_conditional condition.performs_lower ih)) opening
  | whileDo opening condition middle action ih =>
    exact .pass (.skip rfl (clear_enter _ _) (performs_loop condition.performs_lower ih)) opening
  | block opening inside closing ih => exact .pass (.skip rfl (clear_enter _ _) (performs_block ih)) opening
  | read keyword opening target closing => exact .pass (.skip rfl (clear_enter _ _) performs_read) keyword
  | write keyword opening value closing =>
    exact .pass (.skip rfl (clear_enter _ _) (performs_write value.performs_lower)) keyword
  | done => exact performs_still rfl (clear_pure _ _)
  | last s ih => exact ih _
  | next s separator rest ih ihRest => exact (ih _).bind (performs_expect.bind (ihRest _))

theorem Program.performs_body (p : Program) (s : GenState) : Performs p.steps p.body s := by
  cases p with
  | bare stop => exact .skip rfl (clear_produce _ _) performs_expect
  | block opening inside closing stop =>
    have hsteps : (Program.block opening inside closing stop).steps =
        .pass opening :: ((Step.enter :: (inside.steps ++ [Step.take .end closing, .leave])) ++ [Step.take .dot stop]) := by
      simp [Program.steps]
    rw [hsteps]
    exact .pass ((performs_block inside.performs_lower).bind performs_expect) opening

theorem Program.performs_lower (p : Program) (next : Token) (s : GenState) : Performs p.steps (p.lower next) s := by
  refine .skip rfl (clear_produce _ _) (.skip rfl (clear_note _ _) (.skip rfl (clear_emit _ _) ?_))
  rw [← List.append_nil p.steps]
  refine (p.performs_body _).bind (.skip rfl (clear_emit _ _) ?_)
  split
  · exact performs_still rfl (clear_pure _ _)
  · exact performs_still rfl (clear_remark _ _ _)

/-! ## One plan for all tokens of the same kinds -/

namespace TokenSource

/-- The plan for the tokens of a source: the steps through the program that it spells, by the indices of tokens. -/
def plan (s : TokenSource) : List (Step Nat) := Step.number 0 s.parse.1.steps

/-- The tokens of a wrong kind that the plan takes. -/
def wrong (s : TokenSource) : List (Nat × Kind × Kind) := s.plan.filterMap (Step.wrong? fun i => (s.token i).kind)

theorem map_plan (s : TokenSource) : s.plan.map (Step.map s.token) = s.parse.1.steps ∧
    ∃ n, s.plan.filterMap Step.found? = List.range n ∧ s.parse.2 = s.tokens.drop n := by
  have hconsumes : Parse.Consumes s.eof (s.parse.1.steps.filterMap Step.found?) s.tokens s.parse.2 := by
    rw [Program.found_steps]
    exact Parse.program_consumes s.eof s.tokens
  obtain ⟨hfound, hrest⟩ := hconsumes.eq_range
  refine ⟨Step.map_number s.token 0 _ hfound, _, ?_, hrest⟩
  rw [plan, Step.found_number, List.range_eq_range']

end TokenSource

/-- A lowering goes by the plan for its tokens. Its syntactic faults are the tokens of a wrong kind, each with the kind that
was asked for. Its events and the calls of its session follow one another as the plan says. -/
structure Lowering.GoesByPlan (t : Lowering) (wordSize : Int64) (s : TokenSource) : Prop where
  faults : t.diagnostics.filter (fun d => d.fault.kind = .syntactic) =
    s.wrong.map fun w => ⟨s.token w.1, .expected w.2.1 (s.token w.1)⟩
  acts : ∃ acts : List Act, acts.filterMap Act.event? = t.events ∧
    t.state.session = (Session.fresh wordSize).run (acts.filterMap Act.call?) ∧
    acts.filterMap Act.step? = (s.plan.map (Step.map s.token)).filter Step.shows

theorem lower_goesByPlan (wordSize : Int64) (s : TokenSource) : (lower wordSize s).GoesByPlan wordSize s := by
  have hsteps := s.map_plan.1
  have hperforms := s.parse.1.performs_lower (s.parse.2.headD s.eof) { frame := { wordSize } }
  constructor
  · rw [TokenSource.wrong, ← Step.filterMap_fault?_map, hsteps]
    exact hperforms.faults
  · rw [hsteps]
    exact hperforms.acts

/-- A token as reading looks at it. -/
def Token.shape (t : Token) : Token :=
  { kind := t.kind, value := if t.kind = .inout ∧ t.value = "read" then "read" else "" }

theorem Token.kind_shape (t : Token) : t.shape.kind = t.kind := rfl

theorem Token.shape_eq {t t' : Token} (hk : t.kind = t'.kind)
    (hr : t.kind = .inout → (t.value = "read" ↔ t'.value = "read")) : t.shape = t'.shape := by
  have hsame : (t.kind = .inout ∧ t.value = "read") ↔ (t'.kind = .inout ∧ t'.value = "read") := by
    rw [← hk]
    exact and_congr_right hr
  rw [shape, shape, if_congr hsame rfl rfl, hk]

theorem Parse.telling_shape : Telling Token.shape where
  kind h := (Token.mk.inj h).1
  read {t t'} h hk := by
    have hk' : t'.kind = .inout := (Token.mk.inj h).1.symm.trans hk
    have hv := (Token.mk.inj h).2.1
    have hwords : (Text.ofString "read") ≠ Text.ofString "" := by decide
    simp only [hk, hk', true_and] at hv
    by_cases h₁ : t.value = "read" <;> by_cases h₂ : t'.value = "read"
    · exact ⟨fun _ => h₂, fun _ => h₁⟩
    · rw [if_pos h₁, if_neg h₂] at hv
      exact absurd hv hwords
    · rw [if_neg h₁, if_pos h₂] at hv
      exact absurd hv.symm hwords
    · exact ⟨fun h => absurd h h₁, fun h => absurd h h₂⟩

/-- Sources that look alike are gone through by one plan. -/
theorem TokenSource.plan_eq {s s' : TokenSource} (h : ∀ n, (s.token n).shape = (s'.token n).shape) : s.plan = s'.plan := by
  have hnumber (p : Program) : Step.number 0 (p.map Token.shape).steps = Step.number 0 p.steps := by
    rw [p.steps_map Token.kind_shape, Step.number_map]
  rw [plan, plan, ← hnumber, ← hnumber s'.parse.1, (TokenSource.parse_alike Parse.telling_shape h).1]

end AlgolMips
