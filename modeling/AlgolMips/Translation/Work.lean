import AlgolMips.Lowering.Event
import AlgolMips.Scope.Arena

/-!
# The work of a translation

A translator keeps the symbol table, the number of labels handed out and the operand that the last expression left. It
makes lines of code, a derivation, a trace, diagnostics and remarks. All of this changes by actions that do one thing each,
and here alone settings are asked: a station is traced only on request.

Every action is logged. Nothing looks at the log while a translation goes on; it tells afterwards what happened when.
-/

namespace AlgolMips

open Mips

/-- Something that a translator does in one go. -/
inductive Action where
  /-- The current token is passed, in place of one of a kind where a kind is asked for. -/
  | take (expected : Option Kind) (found : Token)
  | produce (r : Rule)
  | note (n : Note)
  | emit (l : Line)
  /-- A diagnostic is kept. -/
  | record (d : Diagnostic)
  /-- A diagnostic is kept, and the translation has failed. -/
  | fail (d : Diagnostic)
  | remark (tok : Token) (r : Remark)
  /-- An operand becomes the current one. -/
  | become (d : Operand)
  | label
  | ask (c : Call)
deriving DecidableEq

/-- What a translator keeps and what it has made. -/
structure Work where
  table : Arena
  labels : Nat := 0
  current : Operand := {}
  lines : Array Line := #[]
  derivation : Array Nat := #[]
  trace : Array Text := #[]
  diagnostics : Array Diagnostic := #[]
  remarks : Array (Token × Remark) := #[]
  ok : Bool := true
  log : Array Action := #[]

namespace Work

/-- No work yet, with slots of the given size. -/
def start (wordSize : Int64) : Work := { table := .new { wordSize } }

/-- What an action does, the log aside. -/
def apply (s : Settings) (w : Work) : Action → Work
  | .take _ _ => w
  | .produce r => { w with derivation := w.derivation.push r.number }
  | .note n => { w with trace := if s.feature .verboseTrace then w.trace.push n.name else w.trace }
  | .emit l => { w with lines := w.lines.push l }
  | .record d => { w with diagnostics := w.diagnostics.push d }
  | .fail d => { w with diagnostics := w.diagnostics.push d, ok := false }
  | .remark tok r => { w with remarks := w.remarks.push (tok, r) }
  | .become d => { w with current := d }
  | .label => { w with labels := w.labels + 1 }
  | .ask c => { w with table := (w.table.perform c).2 }

/-- The work after an action. -/
def after (s : Settings) (w : Work) (a : Action) : Work := { w.apply s a with log := w.log.push a }

/-- The work after some actions. -/
def run (s : Settings) (w : Work) : List Action → Work
  | [] => w
  | a :: rest => (w.after s a).run s rest

end Work

/-- Something that is done on the work under settings, with a result. -/
def Effect (α : Type) := Settings → Work → α × Work

namespace Effect

instance : Monad Effect where
  pure a := fun _ w => (a, w)
  bind m f := fun s w =>
    let first := m s w
    f first.1 s first.2

/-- A single action. -/
def act (a : Action) : Effect Unit := fun s w => ((), w.after s a)

def produce (r : Rule) : Effect Unit := act (.produce r)

def note (n : Note) : Effect Unit := act (.note n)

def emit : List Line → Effect Unit
  | [] => pure ()
  | l :: rest => do
    act (.emit l)
    emit rest

/-- A fault that leaves the translation as good as it was. -/
def record (tok : Token) (f : Fault) : Effect Unit := act (.record ⟨tok, f⟩)

/-- A fault that fails the translation. -/
def fail (tok : Token) (f : Fault) : Effect Unit := act (.fail ⟨tok, f⟩)

def remark (tok : Token) (r : Remark) : Effect Unit := act (.remark tok r)

def feature (f : Feature) : Effect Bool := fun s w => (s.feature f, w)

def current : Effect Operand := fun _ w => (w.current, w)

def setCurrent (d : Operand) : Effect Unit := act (.become d)

/-- A fresh frame slot. -/
def newTemp : Effect Int64 := fun s w => (w.table.alloc.1, w.after s (.ask .temporary))

/-- A fresh label. -/
def newLabel : Effect Label := fun s w => (.generated w.labels, w.after s .label)

/-- The binding of a name that is in force. -/
def resolve (name : Text) : Effect (Except NameError Variable) := fun _ w => (w.table.resolve name, w)

/-- The binding that a declaration of a name hides. -/
def shadowed? (name : Text) : Effect (Option Variable) := fun _ w => (w.table.shadowed? name, w)

def enterScope : Effect Unit := act (.ask .enter)

def leaveScope : Effect Unit := act (.ask .leave)

/-- Binds the name of a token, or says why it cannot be bound. -/
def declare (tok : Token) (ty : Ty) : Effect (Except NameError Variable) := fun s w =>
  ((w.table.declare tok ty).1, w.after s (.ask (.declare tok ty)))

/-- Takes the current token, which must be of a kind. -/
def take (k : Kind) (tok : Token) : Effect Unit := do
  if tok.kind ≠ k then fail tok (.expected k tok)
  act (.take (some k) tok)

end Effect

end AlgolMips
