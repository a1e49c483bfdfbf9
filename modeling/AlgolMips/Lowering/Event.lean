import AlgolMips.Mips.Line
import AlgolMips.Operand
import AlgolMips.Lowering.Fault

/-!
# What a lowering leaves behind

A lowering walks over a program and leaves events: lines of code, productions of the grammar in the order in which they
are entered, names of the statements met, diagnostics and remarks. Between two events it keeps the frame, the number of
labels handed out, the symbol table and the operand that the last expression left.

`Gen` is the type of such walks. A walk is a function of the state alone: no setting reaches it.
-/

namespace AlgolMips

open Mips

/-- The productions of the grammar. -/
inductive Rule where
  | program
  | statement
  | declaration
  | assignment
  | conditional
  | loop
  | block
  | inout
  | expression
  | term
  | relation
  | factor
  | reference
deriving DecidableEq

/-- The number of a production in a derivation. -/
def Rule.number : Rule → Nat
  | program => 1
  | statement => 2
  | declaration => 3
  | assignment => 4
  | conditional => 5
  | loop => 6
  | block => 7
  | inout => 8
  | expression => 9
  | term => 10
  | relation => 11
  | factor => 12
  | reference => 13

/-- The stations of a trace. -/
inductive Note where
  | program
  | declaration
  | assignment
  | conditional
  | block
  | loop
  | inout
  | read
  | write
  | writeLine
deriving DecidableEq

def Note.name : Note → Text
  | program => "Program Start"
  | declaration => "Decl"
  | assignment => "Assgn"
  | conditional => "IfStat"
  | block => "NewBlock"
  | loop => "WhileStat"
  | inout => "IOStat"
  | read => "Read"
  | write => "Write"
  | writeLine => "Writeln"

/-- Something that a lowering leaves behind. -/
inductive Event where
  | line (l : Line)
  | rule (r : Rule)
  | note (n : Note)
  | fault (d : Diagnostic)
  | remark (tok : Token) (r : Remark)
deriving DecidableEq

namespace Event

def line? : Event → Option Line
  | line l => some l
  | _ => none

def rule? : Event → Option Rule
  | rule r => some r
  | _ => none

def note? : Event → Option Note
  | note n => some n
  | _ => none

def fault? : Event → Option Diagnostic
  | fault d => some d
  | _ => none

def remark? : Event → Option (Token × Remark)
  | remark t r => some (t, r)
  | _ => none

end Event

/-- What a lowering keeps from one event to the next. -/
structure GenState where
  frame : Frame
  labels : Nat := 0
  table : SymbolTable := {}
  current : Operand := {}

/-- Events in order, kept as what they become in front of other events, so that a long log is not copied when it is
continued. -/
structure Log where
  before : List Event → List Event
  before_eq : ∀ es, before es = before [] ++ es

namespace Log

def ofList (new : List Event) : Log := ⟨fun es => new ++ es, fun es => by simp⟩

def empty : Log := ofList []

/-- One log and then another. -/
protected def append (a b : Log) : Log :=
  ⟨fun es => a.before (b.before es), fun es => by rw [a.before_eq, a.before_eq (b.before []), b.before_eq es]; simp⟩

instance : Append Log := ⟨Log.append⟩

/-- The events of a log. -/
def toList (l : Log) : List Event := l.before []

/-- Logs are equal when they hold the same events. -/
@[ext] theorem ext {a b : Log} (h : a.toList = b.toList) : a = b := by
  obtain ⟨f, hf⟩ := a
  obtain ⟨g, hg⟩ := b
  have : f = g := funext fun es => by rw [hf, hg]; exact congrArg (· ++ es) h
  subst this
  rfl

@[simp] theorem toList_ofList (es : List Event) : (ofList es).toList = es := List.append_nil es

@[simp] theorem toList_empty : empty.toList = [] := rfl

@[simp] theorem toList_append (a b : Log) : (a ++ b).toList = a.toList ++ b.toList := a.before_eq _

end Log

/-- The outcome of a walk: a value, the state after it and the events on the way. -/
structure Walked (α : Type) where
  value : α
  state : GenState
  log : Log

/-- The events on the way. -/
def Walked.events {α : Type} (w : Walked α) : List Event := w.log.toList

/-- A walk that leaves events. -/
def Gen (α : Type) := GenState → Walked α

namespace Gen

instance : Monad Gen where
  pure a := fun s => ⟨a, s, .empty⟩
  bind m f := fun s =>
    let first := m s
    let second := f first.value first.state
    ⟨second.value, second.state, first.log ++ second.log⟩

@[simp] theorem events_bind {α β : Type} (m : Gen α) (f : α → Gen β) (s : GenState) :
    ((m >>= f) s).events = (m s).events ++ (f (m s).value (m s).state).events :=
  Log.toList_append _ _

/-- The state. -/
def get : Gen GenState := fun s => ⟨s, s, .empty⟩

/-- Changes the state. -/
def modify (f : GenState → GenState) : Gen Unit := fun s => ⟨(), f s, .empty⟩

/-- Leaves events. -/
def tell (es : List Event) : Gen Unit := fun s => ⟨(), s, .ofList es⟩

def emit (ls : List Line) : Gen Unit := tell (ls.map Event.line)

def produce (r : Rule) : Gen Unit := tell [.rule r]

def note (n : Note) : Gen Unit := tell [.note n]

def report (tok : Token) (f : Fault) : Gen Unit := tell [.fault ⟨tok, f⟩]

def remark (tok : Token) (r : Remark) : Gen Unit := tell [.remark tok r]

/-- The token in a place of the tree must be of the kind that the grammar asks for there. -/
def expect (k : Kind) (tok : Token) : Gen Unit :=
  if tok.kind = k then pure () else report tok (.expected k tok)

/-- The operand that the last expression left. -/
def current : Gen Operand := fun s => ⟨s.current, s, .empty⟩

def setCurrent (d : Operand) : Gen Unit := modify fun s => { s with current := d }

/-- A fresh frame slot. -/
def newTemp : Gen Int64 := fun s => ⟨s.frame.alloc.1, { s with frame := s.frame.alloc.2 }, .empty⟩

/-- A fresh label. -/
def newLabel : Gen Label := fun s => ⟨.generated s.labels, { s with labels := s.labels + 1 }, .empty⟩

/-- The binding of a name that is in force. -/
def resolve (name : Text) : Gen (Except NameError Variable) := fun s => ⟨s.table.resolve name, s, .empty⟩

def enterScope : Gen Unit := modify fun s => { s with table := s.table.enter }

def leaveScope : Gen Unit := modify fun s => { s with table := s.table.leave }

/-- Binds the name of a token, or says why it cannot be bound. -/
def declare (tok : Token) (ty : Ty) : Gen (Except NameError Variable) := fun s =>
  match s.table.declare s.frame tok ty with
  | .ok (v, table, frame) => ⟨.ok v, { s with table, frame }, .empty⟩
  | .error e => ⟨.error e, s, .empty⟩

end Gen

end AlgolMips
