import AlgolMips.Proofs.Acceptance
import AlgolMips.Proofs.Moves
import AlgolMips.Proofs.ScopeStack
import AlgolMips.Proofs.Switches

/-!
# Where operands stand

The current operand outlives the expression that left it: a missing factor, an undeclared name and a fault all keep the
one from before, so that it may turn up in any later construct. Still, at every moment it is the one that a lowering starts
with, or a string constant that was placed before, or stands in a slot that was handed out before
(`Moment.Settles`). The same holds of the left operands that wait for their right sides.

What a move asks of its moment is said once (`Move.Fits`). Moves that fit keep every operand settled
(`Moment.Sound.after`), and the moves of a lowering fit, whatever the tokens are (`Program.allowed_course`). So operators
never meet an operand at a label, and code reaches no slot that was not handed out but the first (`operands_settled`).
-/

namespace AlgolMips

open Gen Mips

/-! ## Settled operands -/

/-- An operand stands where it may: it is the first one, a string constant that was placed, or in a slot that was handed
out. -/
inductive Moment.Settles (m : Moment) : Operand → Prop where
  | initial : Settles m {}
  | constant {l : Label} {v : Text} : Event.line (.asciiz l 0 v) ∈ m.events → Settles m ⟨.string, .label l⟩
  | slot {ty : Ty} {offset : Int64} : offset ∈ m.slots → Settles m (.inFrame ty offset)

/-- A slot that may be used: the first one, or one that was handed out. -/
def Moment.Knows (m : Moment) (offset : Int64) : Prop := offset = 0 ∨ offset ∈ m.slots

/-- All operands of a moment are settled, and all variables have slots. -/
structure Moment.Sound (m : Moment) : Prop where
  operands : ∀ d ∈ m.state.current :: m.held, m.Settles d
  bound : ∀ v ∈ m.state.table.declared, v.offset ∈ m.slots

namespace Moment

variable {m m' : Moment} {d : Operand}

theorem Settles.mono (h : m.Settles d) (hevents : m.events ⊆ m'.events) (hslots : m.slots ⊆ m'.slots) : m'.Settles d := by
  cases h with
  | initial => exact .initial
  | constant hmem => exact .constant (hevents hmem)
  | slot hmem => exact .slot (hslots hmem)

theorem Settles.knows (h : m.Settles d) : m.Knows d.place.offset := by
  cases h with
  | initial => exact .inl rfl
  | constant _ => exact .inl rfl
  | slot hmem => exact .inr hmem

/-- Only strings stand at labels. -/
theorem Settles.ty_eq (h : m.Settles d) (hlabel : d.place.isLabel) : d.ty = .string := by
  cases h with
  | initial => cases hlabel
  | constant _ => rfl
  | slot _ => cases hlabel

theorem Settles.isLabel_eq_false (h : m.Settles d) (hty : d.ty ≠ .string) : d.place.isLabel = false :=
  Bool.eq_false_iff.2 fun hlabel => hty (h.ty_eq hlabel)

theorem Sound.current (h : m.Sound) : m.Settles m.state.current := h.operands _ List.mem_cons_self

theorem Sound.left (h : m.Sound) (hd : m.held.head? = some d) : m.Settles d :=
  h.operands d (List.mem_cons_of_mem _ (List.mem_of_head? hd))

end Moment

theorem SymbolTable.mem_declared_of_resolve {t : SymbolTable} {name : Text} {v : Variable}
    (h : t.resolve name = .ok v) : v ∈ t.declared := by
  obtain ⟨outer, s, inner, hactive, hfind, -⟩ := resolve_eq_ok_iff.1 h
  have hopen : s ∈ t.openScopes := by
    rw [← List.mem_reverse, ← active, hactive]
    simp
  exact List.mem_flatMap.2 ⟨s, List.mem_append_left _ hopen, List.mem_of_find?_eq_some hfind⟩

/-! ## Moves that fit -/

/-- The mismatch that a statement has reported where its condition is a string. -/
def Moment.Excuses (m : Moment) : Purpose → Prop
  | .guard g opening => Event.fault ⟨opening, .condition g .string⟩ ∈ m.events
  | _ => False

/-- What a move asks of its moment. Slots are loaded on behalf of operands only, and the slot of an operand at a label only
behind a mismatch. -/
def Move.Fits (m : Moment) : Move → Prop
  | tell (.line (.instr (.load _ _))) => False
  | tell (.line (.instr (.store _ offset))) => m.Knows offset
  | load purpose _ d => d ∈ m.state.current :: m.held ∧ (d.place.isLabel → m.Excuses purpose)
  | operate left right => m.held.head? = some left ∧ m.state.current = right ∧ left.place.isLabel = false ∧
      right.place.isLabel = false
  | become d => m.Settles d
  | _ => True

namespace Moment

variable {m : Moment}

theorem slots_after (m : Moment) (x : Move) : m.slots ⊆ (m.after x).slots := by
  cases x with
  | ask => exact List.subset_append_left _ _
  | tell | load | operate | become | hold | release | label => exact List.Subset.refl _

theorem Settles.after {d : Operand} (h : m.Settles d) (x : Move) : (m.after x).Settles d :=
  h.mono (m.events_after x ▸ List.subset_append_left _ _) (m.slots_after x)

/-- A call keeps the slots of variables, and a new variable has the slot that it was handed. -/
theorem Sound.bound_ask (h : m.Sound) (c : Call) :
    ∀ v ∈ (m.after (.ask c)).state.table.declared, v.offset ∈ (m.after (.ask c)).slots := by
  intro v hv
  rcases List.mem_append.1 ((m.state.session.perform_declared c).mem_iff.1 hv) with hnew | hold
  · cases hanswer : (m.state.session.perform c).1 with
    | declared w =>
      obtain rfl : v = w := by simpa [hanswer, Answer.declared?] using hnew
      simp [Moment.after, hanswer, Answer.slot?]
    | _ => simp [hanswer, Answer.declared?] at hnew
  · exact m.slots_after _ (h.bound v hold)

/-- A move that fits keeps all operands settled. -/
theorem Sound.after {x : Move} (h : m.Sound) (hx : x.Fits m) : (m.after x).Sound := by
  have hold : ∀ d ∈ m.state.current :: m.held, (m.after x).Settles d := fun d hd => (h.operands d hd).after x
  cases x with
  | tell | load | operate | label => exact ⟨hold, h.bound⟩
  | become d =>
    refine ⟨List.forall_mem_cons.2 ⟨hx.after (.become d), fun d' hd' => ?_⟩, h.bound⟩
    exact hold d' (List.mem_cons_of_mem _ hd')
  | hold => exact ⟨List.forall_mem_cons.2 ⟨hold _ List.mem_cons_self, hold⟩, h.bound⟩
  | release =>
    refine ⟨List.forall_mem_cons.2 ⟨hold _ List.mem_cons_self, fun d hd => ?_⟩, h.bound⟩
    exact hold d (List.mem_cons_of_mem _ (List.mem_of_mem_tail hd))
  | ask c => exact ⟨hold, h.bound_ask c⟩

/-- Each of some moves fits the moment at which it is made. -/
def Allows (m : Moment) : List Move → Prop
  | [] => True
  | x :: rest => x.Fits m ∧ (m.after x).Allows rest

@[simp] theorem allows_append (m : Moment) (first second : List Move) :
    m.Allows (first ++ second) ↔ m.Allows first ∧ (m.run first).Allows second := by
  induction first generalizing m with
  | nil => simp [Allows]
  | cons x rest ih => simp [Allows, ih, and_assoc]

/-- Moves that fit keep all operands settled. -/
theorem Sound.run {moves : List Move} (h : m.Sound) (hm : m.Allows moves) : (m.run moves).Sound := by
  induction moves generalizing m with
  | nil => exact h
  | cons x rest ih => exact ih (h.after hm.1) hm.2

theorem slots_run (m : Moment) (moves : List Move) : m.slots ⊆ (m.run moves).slots := by
  induction moves generalizing m with
  | nil => exact List.Subset.refl _
  | cons x rest ih => exact List.Subset.trans (m.slots_after x) (ih _)

end Moment

/-- What fits still fits when more was left. -/
theorem Move.Fits.append {m : Moment} {x : Move} (h : x.Fits m) (es : List Event) :
    x.Fits { m with events := m.events ++ es } := by
  cases x with
  | tell e =>
    cases e with
    | line l =>
      cases l with
      | instr i => cases i <;> exact h
      | _ => trivial
    | _ => trivial
  | load purpose r d =>
    refine ⟨h.1, fun hlabel => ?_⟩
    cases purpose with
    | guard g opening => exact List.mem_append_left _ (h.2 hlabel)
    | operator | negation | assignment | output => exact h.2 hlabel
  | become d => exact Moment.Settles.mono h (List.subset_append_left _ _) (List.Subset.refl _)
  | operate | hold | release | label | ask => exact h

theorem Moment.allows_quiet {m : Moment} {moves : List Move} (hquiet : ∀ x ∈ moves, x.Quiet)
    (hfits : ∀ x ∈ moves, x.Fits m) : m.Allows moves := by
  induction moves generalizing m with
  | nil => trivial
  | cons x rest ih =>
    obtain ⟨hx, hrest⟩ := List.forall_mem_cons.1 hfits
    have hafter : m.after x = m.run [x] := rfl
    refine ⟨hx, ih (fun y hy => hquiet y (List.mem_cons_of_mem _ hy)) fun y hy => ?_⟩
    rw [hafter, run_quiet (List.forall_mem_singleton.2 (hquiet x List.mem_cons_self))]
    exact (hrest y hy).append _

/-! ## Courses that fit -/

namespace Gen.Course

variable {α β : Type} {m : Moment}

/-- The moment after a course. -/
def after {w : Gen α} (c : Course w) (m : Moment) : Moment := m.run (c.moves m.state)

/-- All moves of a course fit, from a moment on. -/
def Allowed {w : Gen α} (c : Course w) (m : Moment) : Prop := m.Allows (c.moves m.state)

theorem allowed_bind {w : Gen α} {f : α → Gen β} {c : Course w} {d : ∀ a, Course (f a)} (h : m.Sound) (hc : c.Allowed m)
    (hd : (c.after m).Sound → (d (w m.state).value).Allowed (c.after m)) : (c.bind d).Allowed m := by
  have hnext := hd (h.run hc)
  rw [Allowed, after, (c.follows m).state] at hnext
  exact (Moment.allows_append ..).2 ⟨hc, hnext⟩

theorem allowed_ite {p : Prop} [Decidable p] {w w' : Gen α} {c : Course w} {d : Course w'} (hc : p → c.Allowed m)
    (hd : ¬ p → d.Allowed m) : (ite c d : Course (if p then w else w')).Allowed m := by
  unfold Allowed ite
  split
  · next hp => exact hc hp
  · next hp => exact hd hp

theorem allowed_holding {f : Operand → Gen β} {c : ∀ d, Course (f d)} (h : m.Sound)
    (hc : (m.after .hold).Sound → (c m.state.current).Allowed (m.after .hold)) : (holding c).Allowed m :=
  ⟨trivial, (Moment.allows_append ..).2 ⟨hc (h.after trivial), trivial, trivial⟩⟩

theorem allowed_tellBy {es : List Event} {moves : List Move} {hquiet : ∀ x ∈ moves, x.Quiet}
    {hevents : moves.filterMap Move.event? = es} (h : ∀ x ∈ moves, x.Fits m) : (tellBy moves hquiet hevents).Allowed m :=
  Moment.allows_quiet hquiet h

theorem allowed_tell {es : List Event} (h : ∀ e ∈ es, (Move.tell e).Fits m) : (tell es).Allowed m :=
  allowed_tellBy (List.forall_mem_map.2 h)

theorem allowed_emit {ls : List Line} (h : ∀ l ∈ ls, (Move.tell (.line l)).Fits m) : (emit ls).Allowed m :=
  allowed_tell (List.forall_mem_map.2 h)

theorem allowed_emitOn {ls : List Line} {purpose : Purpose} {d : Operand}
    (h : ∀ l ∈ ls, (Move.ofLine purpose d l).Fits m) : (emitOn purpose d : Course (Gen.emit ls)).Allowed m :=
  allowed_tellBy (List.forall_mem_map.2 h)

theorem allowed_produce (r : Rule) : (produce r).Allowed m := ⟨trivial, trivial⟩

theorem allowed_note (n : Note) : (note n).Allowed m := ⟨trivial, trivial⟩

theorem allowed_report (tok : Token) (f : Fault) : (report tok f).Allowed m := ⟨trivial, trivial⟩

theorem allowed_remark (tok : Token) (r : Remark) : (remark tok r).Allowed m := ⟨trivial, trivial⟩

theorem allowed_expect (k : Kind) (tok : Token) : (expect k tok).Allowed m :=
  allowed_ite (fun _ => trivial) fun _ => allowed_report ..

/-! ### Expressions -/

/-- A result is stored in a slot that is taken for it. -/
theorem allowed_result {code : Int64 → List Line} {ty : Ty} (h : m.Sound)
    (hcode : ∀ m' slot, Moment.Knows m' slot → ∀ l ∈ code slot, (Move.tell (.line l)).Fits m') :
    (.bind newTemp fun slot => .bind (emit (code slot)) fun _ => setCurrent (.inFrame ty slot) :
      Course (do
        let slot ← Gen.newTemp
        Gen.emit (code slot)
        Gen.setCurrent (.inFrame ty slot))).Allowed m := by
  have hslot : m.state.frame.next ∈ (newTemp.after m).slots := List.mem_append_right _ List.mem_cons_self
  refine allowed_bind h ⟨trivial, trivial⟩ fun h₁ => allowed_bind h₁ (allowed_emit (hcode _ _ (.inr hslot))) fun _ => ?_
  exact ⟨.slot (Moment.slots_run _ _ hslot), trivial⟩

theorem allowed_binary (operation : Operation) {left : Operand} {result : Ty} (h : m.Sound)
    (hheld : m.held.head? = some left) (hleft : left.ty ≠ .string) (hright : m.state.current.ty ≠ .string) :
    (binary operation.remark left m.state.current operation.instrs result).Allowed m := by
  have hlabelLeft := (h.left hheld).isLabel_eq_false hleft
  have hlabelRight := h.current.isLabel_eq_false hright
  refine allowed_bind h (allowed_tellBy ?_) fun h₁ => allowed_result h₁ fun m' slot hslot => ?_
  · simp only [List.cons_append, List.nil_append, List.forall_mem_cons, List.forall_mem_map]
    refine ⟨⟨hheld, rfl, hlabelLeft, hlabelRight⟩, trivial, ⟨?_, ?_⟩, ⟨List.mem_cons_self, ?_⟩, ?_⟩
    · exact List.mem_cons_of_mem _ (List.mem_of_head? hheld)
    · simp [hlabelLeft]
    · simp [hlabelRight]
    · intro i hi
      rcases operation.form_of_mem hi with ⟨op, a, rfl⟩ | ⟨op, a, b, rfl⟩ | ⟨op, a, b, c, rfl⟩ <;> trivial
  · exact List.forall_mem_singleton.2 hslot

/-- Operands of types that combine have slots, whichever operator combines them. -/
theorem allowed_combination (operation : Operation) {op : Token} {left : Operand} {result : Ty} {f : Fault} (h : m.Sound)
    (hheld : m.held.head? = some left) :
    (ite (binary operation.remark left m.state.current operation.instrs result) (report op f) :
      Course (if left.ty.combines m.state.current.ty then _ else _)).Allowed m := by
  refine allowed_ite (fun hty => ?_) fun _ => allowed_report ..
  obtain ⟨hsame, hleft⟩ := Ty.combines_iff.1 hty
  exact allowed_binary operation h hheld hleft (hsame ▸ hleft)

theorem allowed_add {op : Token} {left : Operand} (h : m.Sound) (hheld : m.held.head? = some left) :
    (add op left m.state.current).Allowed m := allowed_combination (.sum op.value) h hheld

theorem allowed_mul {op : Token} {left : Operand} (h : m.Sound) (hheld : m.held.head? = some left) :
    (mul op left m.state.current).Allowed m := allowed_combination (.product op.value) h hheld

/-- A comparison that is not made brings the left operand back, which is settled still. -/
theorem allowed_compare {op : Token} {left : Operand} (h : m.Sound) (hheld : m.held.head? = some left) :
    (compare op left m.state.current).Allowed m := by
  refine allowed_ite (fun _ => ⟨h.left hheld, trivial⟩) fun hright => ?_
  refine allowed_ite (fun _ => allowed_report ..) fun hleft => ?_
  have hinteger : m.state.current.ty = .integer := by simpa [Ty.comparable] using hright
  exact allowed_binary (.comparison op.value) h hheld hleft (by rw [hinteger]; decide)

theorem allowed_negate {op : Token} (h : m.Sound) : (negate op m.state.current).Allowed m := by
  refine allowed_ite (fun _ => allowed_report ..) fun hplace => allowed_emitOn ?_
  have hlabel : m.state.current.place.isLabel = false := by simp_all
  simp only [List.forall_mem_cons, Move.ofLine_load]
  exact ⟨trivial, ⟨List.mem_cons_self, by simp [hlabel]⟩, trivial, h.current.knows, by simp⟩

theorem events_emit (ls : List Line) (m : Moment) : ((emit ls).after m).events = m.events ++ ls.map Event.line := by
  rw [after, ((emit ls).follows m).events, Gen.emit, events_tell]

/-- The line of a constant stands in front of everything that uses its label. -/
theorem allowed_literal {lexeme : Text} (h : m.Sound) : (literal lexeme).Allowed m := by
  refine allowed_ite (fun _ => ?_) fun _ => allowed_result h fun m' slot hslot => ?_
  · generalize Text.trimEnding _ _ = value
    refine allowed_bind h ⟨trivial, trivial⟩ fun h₁ => allowed_bind h₁ (allowed_emit ?_) fun h₂ => ⟨?_, trivial⟩
    · simp [inlineString, Move.Fits]
    · rw [value_newLabel, atLabel_generated]
      refine .constant (v := value) ?_
      rw [events_emit]
      exact List.mem_append_right _ (by simp [inlineString])
  · simp only [List.forall_mem_cons]
    exact ⟨trivial, trivial, hslot, by simp⟩

theorem allowed_reference {tok : Token} (h : m.Sound) : (reference tok).Allowed m := by
  refine allowed_bind h (allowed_produce _) fun h₁ => allowed_bind h₁ trivial fun h₂ => ?_
  generalize hfound : (Gen.resolve tok.value _).value = found
  cases found with
  | ok v =>
    refine allowed_bind h₂ ⟨?_, trivial⟩ fun _ => trivial
    exact .slot (h₁.bound v (SymbolTable.mem_declared_of_resolve hfound))
  | error e => exact allowed_bind h₂ (allowed_report ..) fun _ => trivial

/-- A left operand is held until the right one is there, and then both are used. -/
theorem allowed_operands {left right : Gen Unit} {f : Operand → Operand → Gen Unit} {c : Course left} {d : Course right}
    {g : ∀ a b, Course (f a b)} (h : m.Sound) (hc : ∀ {m}, m.Sound → c.Allowed m) (hd : ∀ {m}, m.Sound → d.Allowed m)
    (hg : ∀ {m : Moment} {a}, m.Sound → m.held.head? = some a → (g a m.state.current).Allowed m) :
    (.bind c fun _ => .holding fun a => .bind d fun _ => .bind current fun b => g a b :
      Course (do left; let a ← Gen.current; right; f a (← Gen.current))).Allowed m := by
  refine allowed_bind h (hc h) fun h₁ => allowed_holding h₁ fun h₂ => allowed_bind h₂ (hd h₂) fun h₃ => ?_
  exact allowed_bind h₃ trivial fun _ => hg h₃ (congrArg List.head? (d.follows _).held)

end Gen.Course

open Gen.Course

theorem Expr.allowed_course {l : Level} (e : Expr l) {m : Moment} (h : m.Sound) : e.course.Allowed m := by
  induction e generalizing m with
  | add left op right ihl ihr => exact allowed_operands h ihl ihr allowed_add
  | term e ih => exact allowed_bind h (allowed_produce _) ih
  | mul left op right ihl ihr => exact allowed_operands h ihl ihr allowed_mul
  | relation e ih => exact allowed_bind h (allowed_produce _) ih
  | compare left op right ihl ihr =>
    exact allowed_bind h (allowed_produce _) fun h₁ => allowed_operands h₁ ihl ihr allowed_compare
  | factor e ih => exact allowed_bind h (allowed_produce _) ih
  | missing => exact allowed_produce _
  | name tok => exact allowed_bind h (allowed_produce _) fun h₁ => allowed_bind h₁ (allowed_reference h₁) fun _ => trivial
  | literal tok => exact allowed_bind h (allowed_produce _) allowed_literal
  | negation op e ih =>
    refine allowed_bind h (allowed_produce _) fun h₁ => allowed_bind h₁ (ih h₁) fun h₂ => ?_
    exact allowed_bind h₂ trivial allowed_negate
  | group opening e closing ih =>
    exact allowed_bind h (allowed_produce _) fun h₁ => allowed_bind h₁ (ih h₁) fun _ => allowed_expect ..

/-! ### Statements -/

namespace Gen.Course

variable {m : Moment}

theorem allowed_declaration {type name : Token} (h : m.Sound) : (declaration type name).Allowed m := by
  have hdeclared {m : Moment} (h : m.Sound) : (declaration.declared type name).Allowed m := by
    refine allowed_bind h ⟨trivial, trivial⟩ fun _ => ?_
    generalize (Gen.declare _ _ _).value = found
    cases found with
    | ok v => exact trivial
    | error e => exact allowed_report ..
  refine allowed_bind h (allowed_produce _) fun h₁ => allowed_bind h₁ (allowed_expect ..) fun h₂ => ?_
  refine allowed_ite (fun _ => allowed_bind h₂ trivial fun h₃ => ?_) fun _ => trivial
  generalize SymbolTable.shadowed? _ _ = shadowed
  cases shadowed with
  | none => exact hdeclared h₃
  | some v => exact allowed_bind h₃ (allowed_remark ..) hdeclared

/-- An operand is loaded from its slot, or by its address. -/
theorem fits_load {purpose : Purpose} {r : Reg} :
    (Move.ofLine purpose m.state.current (.instr (m.state.current.load r))).Fits m := by
  generalize hd : m.state.current = d
  cases hplace : d.place with
  | slot n =>
    have hload : d.load r = .load r d.place.offset := by simp [Operand.load, hplace, Place.offset]
    rw [hload, Move.ofLine_load]
    exact ⟨hd ▸ List.mem_cons_self, by simp [hplace, Place.isLabel]⟩
  | label l =>
    have hload : d.load r = .loadAddr r l := by simp [Operand.load, hplace]
    rw [hload]
    trivial

/-- A service is asked for without a slot. -/
theorem fits_call (service : Service) : ∀ l ∈ call service, (Move.tell (.line l)).Fits m := by
  simp only [call, callCode, List.forall_mem_cons]
  exact ⟨trivial, trivial, List.forall_mem_nil _⟩

theorem fits_ofLine_call {purpose : Purpose} {d : Operand} (service : Service) :
    ∀ l ∈ call service, (Move.ofLine purpose d l).Fits m := by
  simp only [call, callCode, List.forall_mem_cons]
  exact ⟨trivial, trivial, List.forall_mem_nil _⟩

theorem allowed_storeIn {target : Token} {v : Variable} (h : m.Sound) (hv : v.offset ∈ m.slots) :
    (storeIn target v).Allowed m := by
  refine allowed_bind h trivial fun h₁ => allowed_ite (fun _ => allowed_emitOn ?_) fun _ => allowed_report ..
  simp only [List.forall_mem_cons]
  exact ⟨trivial, fits_load, .inr hv, by simp⟩

/-- The slot of the target was handed out before the value is computed, and stays so. -/
theorem allowed_assignment {target sign : Token} {value : Gen Unit} {c : Course value}
    (hc : ∀ {m}, m.Sound → c.Allowed m) (h : m.Sound) : (assignment target sign c).Allowed m := by
  refine allowed_bind h (allowed_produce _) fun h₁ => allowed_bind h₁ trivial fun h₂ => ?_
  generalize hfound : (Gen.resolve target.value _).value = found
  cases found with
  | error e =>
    exact allowed_bind h₂ (allowed_report ..) fun h₃ => allowed_bind h₃ (allowed_expect ..) hc
  | ok v =>
    have hv := h₁.bound v (SymbolTable.mem_declared_of_resolve hfound)
    refine allowed_bind h₂ (allowed_reference h₂) fun h₃ => allowed_bind h₃ (allowed_expect ..) fun h₄ => ?_
    refine allowed_bind h₄ (hc h₄) fun h₅ => allowed_storeIn h₅ ?_
    exact Moment.slots_run _ _ (Moment.slots_run _ _ (Moment.slots_run _ _ hv))

theorem allowed_expectCondition {tok : Token} {g : Guarded} (h : m.Sound) : (expectCondition tok g).Allowed m :=
  allowed_bind h trivial fun _ => allowed_ite (fun _ => trivial) fun _ => allowed_report ..

/-- Where the condition is at a label, the mismatch has been reported. -/
theorem excuses_expectCondition {tok : Token} {g : Guarded} (h : m.Sound)
    (hlabel : ((expectCondition tok g).after m).state.current.place.isLabel) :
    ((expectCondition tok g).after m).Excuses (.guard g tok) := by
  have hfollows := (expectCondition tok g).follows m
  rw [after, hfollows.state, state_expectCondition] at hlabel
  have hty := h.current.ty_eq hlabel
  rw [Moment.Excuses, after, hfollows.events]
  refine List.mem_append_right _ ?_
  simp [Gen.expectCondition, hty, Ty.isCondition, Gen.report]

theorem allowed_conditional {opening middle : Token} {condition action : Gen Unit} {c : Course condition}
    {a : Course action} (hc : ∀ {m}, m.Sound → c.Allowed m) (ha : ∀ {m}, m.Sound → a.Allowed m) (h : m.Sound) :
    (conditional opening middle c a).Allowed m := by
  refine allowed_bind h (allowed_produce _) fun h₁ => allowed_bind h₁ (hc h₁) fun h₂ => ?_
  refine allowed_bind h₂ (allowed_expectCondition h₂) fun h₃ => allowed_bind h₃ ⟨trivial, trivial⟩ fun h₄ => ?_
  refine allowed_bind h₄ trivial fun h₅ => allowed_bind h₅ (allowed_emitOn ?_) fun h₆ => ?_
  · -- the label that is taken in between keeps the condition and what was reported of it
    simp only [List.forall_mem_cons, Move.ofLine_load]
    exact ⟨trivial, ⟨List.mem_cons_self, excuses_expectCondition h₂⟩, trivial, by simp⟩
  · refine allowed_bind h₆ (allowed_expect ..) fun h₇ => allowed_bind h₇ (ha h₇) fun _ => allowed_emit ?_
    simp [Move.Fits]

theorem allowed_loop {opening middle : Token} {condition action : Gen Unit} {c : Course condition} {a : Course action}
    (hc : ∀ {m}, m.Sound → c.Allowed m) (ha : ∀ {m}, m.Sound → a.Allowed m) (h : m.Sound) :
    (loop opening middle c a).Allowed m := by
  refine allowed_bind h (allowed_produce _) fun h₁ => allowed_bind h₁ ⟨trivial, trivial⟩ fun h₂ => ?_
  refine allowed_bind h₂ ⟨trivial, trivial⟩ fun h₃ => allowed_bind h₃ (allowed_emit (by simp [Move.Fits])) fun h₄ => ?_
  refine allowed_bind h₄ (hc h₄) fun h₅ => allowed_bind h₅ (allowed_expect ..) fun h₆ => ?_
  refine allowed_bind h₆ (allowed_expectCondition h₆) fun h₇ => allowed_bind h₇ trivial fun h₈ => ?_
  refine allowed_bind h₈ (allowed_emitOn ?_) fun h₉ => allowed_bind h₉ (ha h₉) fun _ => allowed_emit ?_
  · simp only [List.forall_mem_cons, Move.ofLine_load]
    exact ⟨⟨List.mem_cons_self, excuses_expectCondition h₆⟩, trivial, by simp⟩
  · simp [Move.Fits]

theorem allowed_block {closing : Token} {inside : Gen Unit} {c : Course inside} (hc : ∀ {m}, m.Sound → c.Allowed m)
    (h : m.Sound) : (block closing c).Allowed m := by
  refine allowed_bind h (allowed_produce _) fun h₁ => allowed_bind h₁ ⟨trivial, trivial⟩ fun h₂ => ?_
  exact allowed_bind h₂ (hc h₂) fun h₃ => allowed_bind h₃ (allowed_expect ..) fun _ => ⟨trivial, trivial⟩

theorem allowed_readCurrent {keyword : Token} (h : m.Sound) : (readCurrent keyword).Allowed m := by
  refine allowed_bind h trivial fun h₁ => allowed_ite (fun _ => ?_) fun _ => allowed_report ..
  refine allowed_bind h₁ (allowed_note _) fun h₂ => allowed_emit ?_
  simp only [List.cons_append, List.forall_mem_cons, List.forall_mem_append]
  exact ⟨trivial, fits_call _, h₂.current.knows, List.forall_mem_nil _⟩

theorem allowed_read {keyword opening : Token} {target : Option Token} {closing : Token} (h : m.Sound) :
    (read keyword opening target closing).Allowed m := by
  refine allowed_bind h (allowed_produce _) fun h₁ => allowed_bind h₁ (allowed_expect ..) fun h₂ => ?_
  cases target with
  | none => exact allowed_bind h₂ (allowed_produce _) fun _ => allowed_expect ..
  | some tok =>
    refine allowed_bind h₂ (allowed_reference h₂) fun h₃ => allowed_ite (fun _ => ?_) fun _ => allowed_expect ..
    exact allowed_bind h₃ (allowed_readCurrent h₃) fun _ => allowed_expect ..

/-- Only a string may stand at a label, and it is printed by its address. -/
theorem fits_printLines {statement : Text} {ls : List Line} (h : m.Sound)
    (hls : printLines statement m.state.current = some ls) :
    ∀ l ∈ ls, (Move.ofLine .output m.state.current l).Fits m := by
  have hnumber (hty : m.state.current.ty ≠ .string) (type : Text) :
      ∀ l ∈ printLines.number statement m.state.current type, (Move.ofLine .output m.state.current l).Fits m := by
    have hlabel := h.current.isLabel_eq_false hty
    simp only [printLines.number, List.forall_mem_append, List.forall_mem_cons, Move.ofLine_load]
    exact ⟨⟨⟨trivial, ⟨List.mem_cons_self, by simp [hlabel]⟩, List.forall_mem_nil _⟩, fits_ofLine_call _⟩, trivial,
      List.forall_mem_nil _⟩
  unfold printLines at hls
  split at hls <;> cases hls
  · next hty => exact hnumber (by rw [hty]; decide) _
  · next hty => exact hnumber (by rw [hty]; decide) _
  · simp only [List.forall_mem_append, List.forall_mem_cons]
    exact ⟨⟨⟨trivial, fits_load, List.forall_mem_nil _⟩, fits_ofLine_call _⟩, trivial, List.forall_mem_nil _⟩

theorem allowed_write {keyword opening : Token} {value : Gen Unit} {c : Course value} {closing : Token}
    (hc : ∀ {m}, m.Sound → c.Allowed m) (h : m.Sound) : (write keyword opening c closing).Allowed m := by
  refine allowed_bind h (allowed_produce _) fun h₁ => allowed_bind h₁ (allowed_expect ..) fun h₂ => ?_
  refine allowed_bind h₂ (hc h₂) fun h₃ => allowed_bind h₃ (allowed_note _) fun h₄ => allowed_bind h₄ trivial fun h₅ => ?_
  generalize hls : printLines _ _ = printed
  cases printed with
  | none => exact allowed_expect ..
  | some ls =>
    have hprint := fits_printLines h₄ hls
    refine allowed_bind h₅ (allowed_emitOn ?_) fun _ => allowed_expect ..
    split
    · refine List.forall_mem_append.2 ⟨hprint, ?_⟩
      simp only [lineEndLines, List.forall_mem_append, List.forall_mem_cons, List.cons_append]
      exact ⟨trivial, fits_ofLine_call _, trivial, List.forall_mem_nil _⟩
    · exact hprint

end Gen.Course

theorem Code.allowed_course {x : Extent} (c : Code x) {m : Moment} (h : m.Sound) : c.course.Allowed m := by
  have henter {n : Note} {m : Moment} (h : m.Sound) : (Course.enter n).Allowed m := by
    exact allowed_bind h (allowed_produce _) fun _ => allowed_note _
  induction c generalizing m with
  | empty => exact allowed_produce _
  | declare type name => exact allowed_bind h (henter h) allowed_declaration
  | assign target sign value => exact allowed_bind h (henter h) (allowed_assignment value.allowed_course)
  | ifThen opening condition middle action ih =>
    exact allowed_bind h (henter h) (allowed_conditional condition.allowed_course ih)
  | whileDo opening condition middle action ih =>
    exact allowed_bind h (henter h) (allowed_loop condition.allowed_course ih)
  | block opening inside closing ih => exact allowed_bind h (henter h) (allowed_block ih)
  | read keyword opening target closing => exact allowed_bind h (henter h) allowed_read
  | write keyword opening value closing => exact allowed_bind h (henter h) (allowed_write value.allowed_course)
  | done => exact trivial
  | last s ih => exact ih h
  | next s separator rest ihs ihr =>
    exact allowed_bind h (ihs h) fun h₁ => allowed_bind h₁ (allowed_expect ..) ihr

theorem Program.allowed_bodyCourse (p : Program) {m : Moment} (h : m.Sound) : p.bodyCourse.Allowed m := by
  cases p with
  | bare stop =>
    rw [Program.bodyCourse]
    exact allowed_bind h (allowed_produce _) fun _ => allowed_expect ..
  | block opening inside closing stop =>
    rw [Program.bodyCourse]
    exact allowed_bind h (allowed_block inside.allowed_course h) fun _ => allowed_expect ..

theorem fits_prolog {m : Moment} : ∀ l ∈ prolog, (Move.tell (.line l)).Fits m := by
  simp only [prolog, List.forall_mem_append, List.forall_mem_cons]
  exact ⟨⟨⟨trivial, trivial, trivial, trivial, trivial, trivial, List.forall_mem_nil _⟩, fits_call _⟩, trivial,
    List.forall_mem_nil _⟩

theorem fits_postlog {m : Moment} : ∀ l ∈ postlog, (Move.tell (.line l)).Fits m := by
  simp only [postlog, List.forall_mem_append, List.forall_mem_cons, List.forall_mem_map]
  refine ⟨⟨⟨⟨⟨trivial, trivial, trivial, List.forall_mem_nil _⟩, fits_call _⟩, fits_call _⟩, trivial,
    List.forall_mem_nil _⟩, ?_⟩
  rintro ⟨label, value⟩ -
  trivial

theorem Program.allowed_course (p : Program) (next : Token) {m : Moment} (h : m.Sound) : (p.course next).Allowed m := by
  refine allowed_bind h (allowed_produce _) fun h₁ => allowed_bind h₁ (allowed_note _) fun h₂ => ?_
  refine allowed_bind h₂ (allowed_emit fits_prolog) fun h₃ => allowed_bind h₃ (p.allowed_bodyCourse h₃) fun h₄ => ?_
  refine allowed_bind h₄ (allowed_emit fits_postlog) fun _ => ?_
  exact allowed_ite (fun _ => trivial) fun _ => allowed_remark ..

/-! ## The whole lowering -/

theorem Moment.sound_start (wordSize : Int64) : (start wordSize).Sound where
  operands := List.forall_mem_singleton.2 .initial
  bound := by simp [start, SymbolTable.declared, SymbolTable.scopes, SymbolTable.openScopes]

theorem TokenSource.allows_moves (source : TokenSource) (wordSize : Int64) :
    (Moment.start wordSize).Allows (source.moves wordSize) :=
  source.parse.1.allowed_course _ (Moment.sound_start wordSize)

namespace Move

variable {m : Moment} {x : Move} {r : Reg} {offset : Int64}

theorem Fits.knows_of_store (h : x.Fits m) (hx : x.event? = some (.line (.instr (.store r offset)))) : m.Knows offset := by
  cases x with
  | tell e =>
    obtain rfl := Option.some.inj hx
    exact h
  | load | operate | become | hold | release | label | ask => cases hx

/-- Whatever is loaded from a slot is an operand of the moment. -/
theorem Fits.exists_of_load (h : x.Fits m) (hx : x.event? = some (.line (.instr (.load r offset)))) :
    ∃ purpose, ∃ d ∈ m.state.current :: m.held,
      x = .load purpose r d ∧ d.place.offset = offset ∧ (d.place.isLabel → m.Excuses purpose) := by
  cases x with
  | tell e =>
    obtain rfl := Option.some.inj hx
    exact h.elim
  | load purpose r' d =>
    cases hx
    exact ⟨purpose, d, h.1, rfl, rfl, h.2⟩
  | operate | become | hold | release | label | ask => cases hx

end Move

theorem Record.ok_ofEvents_eq_false {s : Settings} {es : List Event} {d : Diagnostic} (h : Event.fault d ∈ es)
    (hd : d.fault.isFatal s) : (ofEvents s es).ok = false := by
  have hmem : d ∈ es.filterMap Event.fault? := List.mem_filterMap.2 ⟨_, h, rfl⟩
  rw [ofEvents, foldl_keep]
  exact List.all_eq_false.2 ⟨d, hmem, by simp [hd]⟩

/-- The moves of a lowering leave what it leaves. Between any two of them, the current operand and all left operands that
wait are settled. The code of an operator is begun for two operands that both have slots. What is stored goes to the first
slot or to one that was handed out before, and so it is with what is loaded. A load is made for an operand at a label only
by a statement that has reported this operand as no condition, with which the program has failed. -/
theorem operands_settled (wordSize : Int64) (source : TokenSource) :
    let t := lower wordSize source
    let moves := source.moves wordSize
    (moves.filterMap Move.event? = t.events ∧ ((Moment.start wordSize).run moves).state = t.state) ∧
    ∀ before after, moves = before ++ after →
      let m := (Moment.start wordSize).run before
      (∀ d ∈ m.state.current :: m.held, m.Settles d) ∧
      ∀ x ∈ after.head?,
        (∀ left right, x = .operate left right →
          m.held.head? = some left ∧ m.state.current = right ∧ left.place.isLabel = false ∧ right.place.isLabel = false) ∧
        (∀ r offset, x.event? = some (.line (.instr (.store r offset))) → offset = 0 ∨ offset ∈ m.slots) ∧
        (∀ r offset, x.event? = some (.line (.instr (.load r offset))) →
          (offset = 0 ∨ offset ∈ m.slots) ∧
          ∃ purpose, ∃ d ∈ m.state.current :: m.held, x = .load purpose r d ∧
            (d.place.isLabel → ∃ g opening, purpose = .guard g opening ∧
              Event.fault ⟨opening, .condition g .string⟩ ∈ m.events ∧
              ∀ settings, (Record.ofEvents settings m.events).ok = false ∧ t.succeeded settings = false)) := by
  intro t moves
  have hfollows := (source.parse.1.course (source.parse.2.headD source.eof)).follows (.start wordSize)
  have hevents : moves.filterMap Move.event? = t.events := (Moment.events_run ..).symm.trans hfollows.events
  refine ⟨⟨hevents, hfollows.state⟩, fun before after hsplit => ?_⟩
  have hallows := source.allows_moves wordSize
  rw [show source.moves wordSize = before ++ after from hsplit, Moment.allows_append] at hallows
  have hsound := (Moment.sound_start wordSize).run hallows.1
  refine ⟨hsound.operands, fun x hx => ?_⟩
  obtain ⟨rest, rfl⟩ := List.head?_eq_some_iff.1 hx
  have hfits : x.Fits ((Moment.start wordSize).run before) := hallows.2.1
  refine ⟨?_, fun r offset hstore => hfits.knows_of_store hstore, fun r offset hload => ?_⟩
  · rintro left right rfl
    exact hfits
  · obtain ⟨purpose, d, hd, rfl, rfl, hexcuse⟩ := hfits.exists_of_load hload
    refine ⟨(hsound.operands d hd).knows, purpose, d, hd, rfl, fun hlabel => ?_⟩
    have hreported := hexcuse hlabel
    cases purpose with
    | guard g opening =>
      -- what was left by then is left in the end
      have hlast : Event.fault ⟨opening, .condition g .string⟩ ∈ t.events := by
        rw [← hevents, hsplit, List.filterMap_append]
        rw [Moment.Excuses, Moment.events_run] at hreported
        exact List.mem_append_left _ hreported
      refine ⟨g, opening, rfl, hreported, fun settings => ⟨Record.ok_ofEvents_eq_false hreported rfl, ?_⟩⟩
      have hrecord := Record.ok_ofEvents_eq_false (s := settings) hlast rfl
      rwa [t.record_eq] at hrecord
    | operator | negation | assignment | output => exact hreported.elim

/-- A string is printed, and a condition is missing behind it. -/
def staleCondition : Program :=
  .block (.plain .begin "begin")
    (.next
      (.write (.plain .inout "write") (.plain .lparen "(")
        (.term (.relation (.factor (.literal (.plain .literal "\"no\""))))) (.plain .rparen ")"))
      (.plain .semi ";")
      (.last (.ifThen (.plain .if "if") (.term (.relation (.factor .missing))) (.plain .then "then") .empty)))
    (.plain .end "end") (.plain .dot ".")

/-- The string is taken as the condition and loaded from the first slot, before any slot was handed out. -/
theorem staleCondition_loaded :
    let source : TokenSource := { tokens := staleCondition.tokens }
    let m := (Moment.start 4).run ((source.moves 4).take 41)
    let d : Operand := ⟨.string, .label (.generated 0)⟩
    (source.moves 4)[41]? = some (.load (.guard .conditional (.plain .if "if")) .t0 d) ∧ m.slots = [] ∧
      m.state.current = d ∧ m.Settles d ∧ ∀ settings, (lower 4 source).succeeded settings = false := by
  intro source m d
  have hv : staleCondition.Valid :=
    ⟨rfl, ⟨⟨rfl, by decide, rfl, rfl, rfl⟩, rfl, ⟨rfl, trivial, rfl, trivial⟩, nofun⟩, rfl, rfl⟩
  have hparse : source.parse = (staleCondition, []) := Parse.program_tokens _ hv
  have hmoves : source.moves 4 = (staleCondition.course {}).moves (Moment.start 4).state := by
    rw [TokenSource.moves, hparse]
    rfl
  have hload : (source.moves 4)[41]? = some (.load (.guard .conditional (.plain .if "if")) .t0 d) := by
    rw [hmoves]
    rfl
  have hslots : m.slots = [] := by
    simp only [m, hmoves]
    rfl
  have hcurrent : m.state.current = d := by
    simp only [m, hmoves]
    rfl
  obtain ⟨hsettled, hnext⟩ := (operands_settled 4 source).2 _ _ (List.take_append_drop 41 (source.moves 4)).symm
  refine ⟨hload, hslots, hcurrent, hcurrent ▸ hsettled _ List.mem_cons_self, fun settings => ?_⟩
  obtain ⟨-, -, hloads⟩ := hnext _ ((List.head?_drop ..).trans hload)
  obtain ⟨-, purpose, d', -, heq, hexcuse⟩ := hloads .t0 0 rfl
  cases heq
  obtain ⟨g, opening, -, -, hfailed⟩ := hexcuse rfl
  exact (hfailed settings).2

end AlgolMips
