import AlgolMips.Proofs.Drawing

/-!
# The moves of a lowering

What happens in the middle of a walk cannot be told from its outcome. Here walks are taken apart into moves that do one
thing each: a move leaves an event, replaces the current operand, takes a label, or asks a call of the session. Between two
moves there is a moment, with the state, what was left and handed out up to then, and the left operands that wait for their
right sides.

A course of a walk gives its moves from every state, and carries the proof that together they are the walk
(`Gen.Course.follows`). Courses are put together as walks are, so the moves of a program come in the order in which its
lowering is written down (`Program.course`).
-/

namespace AlgolMips

open Gen Mips

/-! ## Moves -/

/-- What an operand is loaded for. -/
inductive Purpose where
  | operator
  | negation
  | guard (guarded : Guarded) (opening : Token)
  | assignment
  | output
deriving DecidableEq

/-- What a lowering does in one go. -/
inductive Move where
  | tell (e : Event)
  /-- A register is loaded from the slot of an operand. -/
  | load (purpose : Purpose) (r : Reg) (d : Operand)
  /-- The code of an operator is begun. -/
  | operate (left right : Operand)
  /-- An operand becomes the current one. -/
  | become (d : Operand)
  /-- The current operand is kept as a left one. -/
  | hold
  | release
  | label
  | ask (c : Call)
deriving DecidableEq

/-- What a move leaves. -/
def Move.event? : Move → Option Event
  | tell e => some e
  | load _ r d => some (.line (.instr (.load r d.place.offset)))
  | _ => none

/-- A moment between two moves. -/
structure Moment where
  state : GenState
  /-- What was left so far. -/
  events : List Event := []
  /-- The slots that were handed out so far. -/
  slots : List Int64 := []
  /-- The left operands whose right sides are under way, the innermost one first. -/
  held : List Operand := []

/-- A state after a call of its session. -/
def GenState.ask (s : GenState) (c : Call) : GenState :=
  { s with table := (s.session.perform c).2.table, frame := (s.session.perform c).2.frame }

namespace Moment

/-- The moment before the first move, with slots of the given size. -/
def start (wordSize : Int64) : Moment := { state := { frame := { wordSize } } }

/-- The moment after a move. -/
def after (m : Moment) (x : Move) : Moment :=
  match x with
  | .tell _ | .load _ _ _ | .operate _ _ => { m with events := m.events ++ x.event?.toList }
  | .become d => { m with state := { m.state with current := d } }
  | .hold => { m with held := m.state.current :: m.held }
  | .release => { m with held := m.held.tail }
  | .label => { m with state := { m.state with labels := m.state.labels + 1 } }
  | .ask c =>
    { m with state := m.state.ask c, slots := m.slots ++ (m.state.session.perform c).1.slot?.toList }

/-- The moment after some moves. -/
def run (m : Moment) : List Move → Moment
  | [] => m
  | x :: rest => (m.after x).run rest

@[simp] theorem run_nil (m : Moment) : m.run [] = m := rfl

@[simp] theorem run_cons (m : Moment) (x : Move) (rest : List Move) : m.run (x :: rest) = (m.after x).run rest := rfl

@[simp] theorem run_append (m : Moment) (first second : List Move) :
    m.run (first ++ second) = (m.run first).run second := by
  induction first generalizing m with
  | nil => rfl
  | cons x rest ih => exact ih _

theorem events_after (m : Moment) (x : Move) : (m.after x).events = m.events ++ x.event?.toList := by
  cases x with
  | tell | load | operate => rfl
  | become | hold | release | label | ask => exact (List.append_nil _).symm

/-- Moves leave their events in order. -/
theorem events_run (m : Moment) (moves : List Move) :
    (m.run moves).events = m.events ++ moves.filterMap Move.event? := by
  induction moves generalizing m with
  | nil => simp
  | cons x rest ih =>
    rw [run_cons, ih, events_after]
    cases hevent : x.event? <;> simp [hevent]

/-- From a moment on, some moves do what a walk does, and release what they hold. -/
structure Follows {α : Type} (m : Moment) (moves : List Move) (w : Gen α) : Prop where
  state : (m.run moves).state = (w m.state).state
  events : (m.run moves).events = m.events ++ (w m.state).events
  held : (m.run moves).held = m.held

end Moment

/-- A move that leaves an event at most. -/
def Move.Quiet : Move → Prop
  | tell _ | load _ _ _ | operate _ _ => True
  | _ => False

/-- Such moves change nothing but what was left. -/
theorem Moment.run_quiet {moves : List Move} (h : ∀ x ∈ moves, x.Quiet) (m : Moment) :
    m.run moves = { m with events := m.events ++ moves.filterMap Move.event? } := by
  induction moves generalizing m with
  | nil => simp
  | cons x rest ih =>
    obtain ⟨hx, hrest⟩ := List.forall_mem_cons.1 h
    have hafter : m.after x = { m with events := m.events ++ x.event?.toList } := by
      cases x with
      | tell | load | operate => rfl
      | become | hold | release | label | ask => cases hx
    rw [run_cons, ih hrest, hafter]
    cases hevent : x.event? <;> simp [hevent]

/-- A line for the sake of an operand. -/
def Move.ofLine (purpose : Purpose) (d : Operand) (l : Line) : Move :=
  match l with
  | .instr (.load r offset) => if offset = d.place.offset then .load purpose r d else .tell (.line l)
  | _ => .tell (.line l)

theorem Move.quiet_ofLine {purpose : Purpose} {d : Operand} (l : Line) : (ofLine purpose d l).Quiet := by
  unfold ofLine
  split
  · split <;> trivial
  · trivial

@[simp] theorem Move.event?_ofLine (purpose : Purpose) (d : Operand) (l : Line) :
    (ofLine purpose d l).event? = some (.line l) := by
  unfold ofLine
  split
  · next r offset =>
    by_cases h : offset = d.place.offset <;> simp [event?, h]
  · rfl

/-- The line that loads the slot of an operand is a load of the operand. -/
@[simp] theorem Move.ofLine_load (purpose : Purpose) (r : Reg) (d : Operand) :
    ofLine purpose d (.instr (.load r d.place.offset)) = .load purpose r d := if_pos rfl

/-! ## Courses -/

/-- The moves that a walk consists of, from every state. -/
structure Gen.Course {α : Type} (w : Gen α) where
  moves : GenState → List Move
  follows : ∀ m : Moment, m.Follows (moves m.state) w

namespace Gen.Course

variable {α β : Type}

/-- A walk that only looks at the state. -/
def still {w : Gen α} (hstate : ∀ s, (w s).state = s) (hevents : ∀ s, (w s).events = []) : Course w where
  moves _ := []
  follows m := ⟨(hstate _).symm, by simp [hevents], rfl⟩

def pure (a : α) : Course (Pure.pure a : Gen α) := still (fun _ => rfl) fun _ => rfl

def get : Course Gen.get := still (fun _ => rfl) fun _ => rfl

def current : Course Gen.current := still (fun _ => rfl) fun _ => rfl

def resolve (name : Text) : Course (Gen.resolve name) := still (fun _ => rfl) fun _ => rfl

/-- A walk of one move. -/
def step {w : Gen α} (x : Move) (h : ∀ m : Moment, m.Follows [x] w) : Course w := ⟨fun _ => [x], h⟩

def setCurrent (d : Operand) : Course (Gen.setCurrent d) :=
  step (.become d) fun _ => ⟨rfl, (List.append_nil _).symm, rfl⟩

def newTemp : Course Gen.newTemp := step (.ask .temporary) fun _ => ⟨rfl, (List.append_nil _).symm, rfl⟩

def newLabel : Course Gen.newLabel := step .label fun _ => ⟨rfl, (List.append_nil _).symm, rfl⟩

def enterScope : Course Gen.enterScope := step (.ask .enter) fun _ => ⟨rfl, (List.append_nil _).symm, rfl⟩

def leaveScope : Course Gen.leaveScope := step (.ask .leave) fun _ => ⟨rfl, (List.append_nil _).symm, rfl⟩

def declare (tok : Token) (ty : Ty) : Course (Gen.declare tok ty) :=
  step (.ask (.declare tok ty)) fun m => by
    cases h : m.state.table.declare m.state.frame tok ty <;>
    constructor <;>
    simp [Moment.after, GenState.ask, Session.perform, GenState.session, Gen.declare, h, Walked.events]

/-- Events, left by moves that do nothing else. -/
def tellBy {es : List Event} (moves : List Move) (hquiet : ∀ x ∈ moves, x.Quiet)
    (hevents : moves.filterMap Move.event? = es) : Course (Gen.tell es) where
  moves _ := moves
  follows m := by
    constructor <;> simp [Moment.run_quiet hquiet, hevents]

def tell (es : List Event) : Course (Gen.tell es) :=
  tellBy (es.map .tell) (by simp [Move.Quiet]) (by simp [List.filterMap_map, Function.comp_def, Move.event?])

/-- Lines, those that load from the slot of an operand for a purpose taken as such. -/
def emitOn {ls : List Line} (purpose : Purpose) (d : Operand) : Course (Gen.emit ls) :=
  tellBy (ls.map (.ofLine purpose d)) (List.forall_mem_map.2 fun l _ => Move.quiet_ofLine l)
    (by simp [List.filterMap_map])

def bind {m : Gen α} {f : α → Gen β} (c : Course m) (d : ∀ a, Course (f a)) : Course (m >>= f) where
  moves s := c.moves s ++ (d (m s).value).moves (m s).state
  follows now := by
    have hc := c.follows now
    have hd := (d (m now.state).value).follows (now.run (c.moves now.state))
    rw [hc.state] at hd
    constructor
    · rw [Moment.run_append, hd.state, hc.state, state_bind]
    · rw [Moment.run_append, hd.events, hc.events, hc.state, events_bind, List.append_assoc]
    · rw [Moment.run_append, hd.held, hc.held]

def ite {p : Prop} [Decidable p] {m m' : Gen α} (c : Course m) (d : Course m') : Course (if p then m else m') where
  moves s := if p then c.moves s else d.moves s
  follows now := by
    split
    · exact c.follows now
    · exact d.follows now

/-- The current operand is kept while the rest of the walk goes on. -/
def holding {f : Operand → Gen β} (c : ∀ d, Course (f d)) : Course (Gen.current >>= f) where
  moves s := .hold :: ((c s.current).moves s ++ [.release])
  follows now := by
    have hc := (c now.state.current).follows (now.after .hold)
    constructor
    · rw [Moment.run_cons, Moment.run_append]
      exact hc.state
    · rw [Moment.run_cons, Moment.run_append]
      exact hc.events
    · rw [Moment.run_cons, Moment.run_append]
      exact congrArg List.tail hc.held

/-! ### Expressions -/

def produce (r : Rule) : Course (Gen.produce r) := tell _

def note (n : Note) : Course (Gen.note n) := tell _

def report (tok : Token) (f : Fault) : Course (Gen.report tok f) := tell _

def remark (tok : Token) (r : Remark) : Course (Gen.remark tok r) := tell _

def emit (ls : List Line) : Course (Gen.emit ls) := tell _

def expect (k : Kind) (tok : Token) : Course (Gen.expect k tok) := ite (pure ()) (report _ _)

def binary (comment : Text) (left right : Operand) (code : List Instr) (result : Ty) :
    Course (Gen.binary comment left right code result) :=
  .bind
    (tellBy ([.operate left right, .tell (.line (.comment comment)), .load .operator .t0 left, .load .operator .t1 right] ++
      code.map fun i => .tell (.line (.instr i))) (by simp [Move.Quiet])
      (by simp [List.filterMap_cons, List.filterMap_map, Function.comp_def, Move.event?]))
    fun _ => .bind newTemp fun _ => .bind (emit _) fun _ => setCurrent _

def add (op : Token) (left right : Operand) : Course (Gen.add op left right) := ite (binary ..) (report ..)

def mul (op : Token) (left right : Operand) : Course (Gen.mul op left right) := ite (binary ..) (report ..)

def compare (op : Token) (left right : Operand) : Course (Gen.compare op left right) :=
  ite (setCurrent _) (ite (report ..) (binary ..))

def negate (op : Token) (d : Operand) : Course (Gen.negate op d) := ite (report ..) (emitOn .negation d)

def literal (lexeme : Text) : Course (Gen.literal lexeme) :=
  ite (.bind newLabel fun _ => .bind (emit _) fun _ => setCurrent _)
    (.bind newTemp fun _ => .bind (emit _) fun _ => setCurrent _)

def reference (tok : Token) : Course (Gen.reference tok) :=
  .bind (produce _) fun _ => .bind (resolve _) fun found =>
    match found with
    | .ok _ => .bind (setCurrent _) fun _ => pure true
    | .error _ => .bind (report ..) fun _ => pure false

/-! ### Statements -/

def declaration (type name : Token) : Course (Gen.declaration type name) :=
  .bind (produce _) fun _ => .bind (expect ..) fun _ =>
    ite (.bind get fun s =>
      match s.table.shadowed? name.value with
      | some _ => .bind (remark ..) fun _ => declared
      | none => declared)
      (pure ())
where
  declared : Course (Gen.declare name (Ty.ofKeyword type.value) >>= fun found =>
      match found with
      | .ok _ => Pure.pure ()
      | .error e => Gen.report name (.name e)) :=
    .bind (declare ..) fun found =>
      match found with
      | .ok _ => pure ()
      | .error _ => report ..

def storeIn (target : Token) (v : Variable) : Course (Gen.storeIn target v) :=
  .bind current fun d => ite (emitOn .assignment d) (report ..)

def assignment (target sign : Token) {value : Gen Unit} (c : Course value) :
    Course (Gen.assignment target sign value) :=
  .bind (produce _) fun _ => .bind (resolve _) fun found =>
    match found with
    | .error _ => .bind (report ..) fun _ => .bind (expect ..) fun _ => c
    | .ok _ => .bind (reference _) fun _ => .bind (expect ..) fun _ => .bind c fun _ => storeIn ..

def expectCondition (tok : Token) (g : Guarded) : Course (Gen.expectCondition tok g) :=
  .bind current fun _ => ite (pure ()) (report ..)

def conditional (opening middle : Token) {condition action : Gen Unit} (c : Course condition) (a : Course action) :
    Course (Gen.conditional opening middle condition action) :=
  .bind (produce _) fun _ => .bind c fun _ => .bind (expectCondition ..) fun _ => .bind newLabel fun _ =>
    .bind current fun d => .bind (emitOn (.guard .conditional opening) d) fun _ => .bind (expect ..) fun _ =>
      .bind a fun _ => emit _

def loop (opening middle : Token) {condition action : Gen Unit} (c : Course condition) (a : Course action) :
    Course (Gen.loop opening middle condition action) :=
  .bind (produce _) fun _ => .bind newLabel fun _ => .bind newLabel fun _ => .bind (emit _) fun _ => .bind c fun _ =>
    .bind (expect ..) fun _ => .bind (expectCondition ..) fun _ => .bind current fun d =>
      .bind (emitOn (.guard .loop opening) d) fun _ => .bind a fun _ => emit _

def block (closing : Token) {inside : Gen Unit} (c : Course inside) : Course (Gen.block closing inside) :=
  .bind (produce _) fun _ => .bind enterScope fun _ => .bind c fun _ => .bind (expect ..) fun _ => leaveScope

def readCurrent (keyword : Token) : Course (Gen.readCurrent keyword) :=
  .bind current fun _ => ite (.bind (note _) fun _ => emit _) (report ..)

def read (keyword opening : Token) (target : Option Token) (closing : Token) :
    Course (Gen.read keyword opening target closing) :=
  .bind (produce _) fun _ => .bind (expect ..) fun _ =>
    match target with
    | none => .bind (produce _) fun _ => expect ..
    | some tok => .bind (reference tok) fun _ => ite (.bind (readCurrent _) fun _ => expect ..) (expect ..)

def write (keyword opening : Token) {value : Gen Unit} (c : Course value) (closing : Token) :
    Course (Gen.write keyword opening value closing) :=
  .bind (produce _) fun _ => .bind (expect ..) fun _ => .bind c fun _ => .bind (note _) fun _ => .bind current fun d =>
    match printLines (if keyword.value = "writeln" then "writeln" else "write") d with
    | some _ => .bind (emitOn .output d) fun _ => expect ..
    | none => expect ..

def enter (n : Note) : Course (Gen.enter n) := .bind (produce _) fun _ => note _

end Gen.Course

open Gen.Course

/-- The course of an expression. -/
def Expr.course : {l : Level} → (e : Expr l) → Course e.lower
  | _, .term e => .bind (produce _) fun _ => e.course
  | _, .add left op right =>
    .bind left.course fun _ => .holding fun l => .bind right.course fun _ => .bind current fun r => .add op l r
  | _, .relation e => .bind (produce _) fun _ => e.course
  | _, .mul left op right =>
    .bind left.course fun _ => .holding fun l => .bind right.course fun _ => .bind current fun r => .mul op l r
  | _, .factor e => .bind (produce _) fun _ => e.course
  | _, .compare left op right => .bind (produce _) fun _ =>
    .bind left.course fun _ => .holding fun l => .bind right.course fun _ => .bind current fun r => .compare op l r
  | _, .missing => produce _
  | _, .name tok => .bind (produce _) fun _ => .bind (reference tok) fun _ => pure ()
  | _, .literal tok => .bind (produce _) fun _ => .literal tok.value
  | _, .negation op e => .bind (produce _) fun _ => .bind e.course fun _ => .bind current fun d => .negate op d
  | _, .group _ e closing => .bind (produce _) fun _ => .bind e.course fun _ => expect .rparen closing

/-- The course of a statement or of the inside of a block. -/
def Code.course : {x : Extent} → (c : Code x) → Course c.lower
  | _, .empty => produce _
  | _, .declare type name => .bind (enter _) fun _ => .declaration type name
  | _, .assign target sign value => .bind (enter _) fun _ => .assignment target sign value.course
  | _, .ifThen opening condition middle action =>
    .bind (enter _) fun _ => .conditional opening middle condition.course action.course
  | _, .whileDo opening condition middle action =>
    .bind (enter _) fun _ => .loop opening middle condition.course action.course
  | _, .block _ inside closing => .bind (enter _) fun _ => .block closing inside.course
  | _, .read keyword opening target closing => .bind (enter _) fun _ => .read keyword opening target closing
  | _, .write keyword opening value closing => .bind (enter _) fun _ => .write keyword opening value.course closing
  | _, .done => pure ()
  | _, .last s => s.course
  | _, .next s separator rest => .bind s.course fun _ => .bind (expect .semi separator) fun _ => rest.course

def Program.bodyCourse : (p : Program) → Course p.body
  | .bare _ => .bind (produce _) fun _ => expect ..
  | .block _ inside closing _ => .bind (.block closing inside.course) fun _ => expect ..

/-- The course of a program. -/
def Program.course (p : Program) (next : Token) : Course (p.lower next) :=
  .bind (produce _) fun _ => .bind (note _) fun _ => .bind (emit _) fun _ => .bind p.bodyCourse fun _ =>
    .bind (emit _) fun _ => ite (pure ()) (remark ..)

/-- The moves that lower the program of a source. -/
def TokenSource.moves (source : TokenSource) (wordSize : Int64) : List Move :=
  (source.parse.1.course (source.parse.2.headD source.eof)).moves (Moment.start wordSize).state

end AlgolMips
