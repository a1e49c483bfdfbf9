import AlgolMips.Lowering.Stmt
import AlgolMips.Mips.Output
import AlgolMips.Tree.Parse

/-!
# Lowering

Translation in two steps: first a program is read from its tokens, then it is lowered in one walk. Settings decide only how
the outcome is seen: whether a fault counts, whether the trace is kept, and whether the code is to be written out. The one
pass that `translate` makes over the tokens comes to the same (`translate_agrees`), which is why everything that is said
about lowering holds of it.
-/

namespace AlgolMips

open Mips

/-- What lowering a program gives, with the tokens behind the program. -/
structure Lowering where
  events : List Event
  state : GenState
  rest : List Token

namespace Lowering

def lines (t : Lowering) : List Line := t.events.filterMap Event.line?

/-- The productions in the order in which they are entered. -/
def derivation (t : Lowering) : List Nat := (t.events.filterMap Event.rule?).map Rule.number

/-- The names of the stations, recorded only on request. -/
def trace (t : Lowering) (s : Settings) : Text :=
  if s.feature .verboseTrace then Text.join " " ((t.events.filterMap Event.note?).map Note.name) else ""

def diagnostics (t : Lowering) : List Diagnostic := t.events.filterMap Event.fault?

def remarks (t : Lowering) : List (Token × Remark) := t.events.filterMap Event.remark?

def table (t : Lowering) : SymbolTable := t.state.table

/-- Whether no fault fails the program. -/
def succeeded (t : Lowering) (s : Settings) : Bool := t.diagnostics.all fun d => !d.fault.isFatal s

/-- Whether no token is left behind the program. -/
def exhausted (t : Lowering) : Bool := Parse.nextKind t.rest = .eof

/-- Whether the code is to be written out: after a success, or, unless only a success counts, when no token is left. -/
def writes (t : Lowering) (s : Settings) : Bool :=
  if s.feature .strictOutput then t.succeeded s else t.exhausted || t.succeeded s

def output (t : Lowering) : Output := { lines := t.lines }

end Lowering

/-- The code of the program that a source spells, with frame slots of the given size. -/
def lower (wordSize : Int64) (source : TokenSource) : Lowering :=
  let (program, rest) := source.parse
  let walked := program.lower (rest.headD source.eof) { frame := { wordSize } }
  ⟨walked.events, walked.state, rest⟩

end AlgolMips
