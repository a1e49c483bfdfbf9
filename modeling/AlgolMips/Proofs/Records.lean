import AlgolMips.Lowering

/-!
# Records

Settings can be looked up at each event of a lowering: a station is traced only on request, and a fault fails the program
or does not. A record is what is then kept, event by event. In the end it holds what the views of the lowering say.
-/

namespace AlgolMips

/-- What is kept of a lowering while it goes on. -/
structure Record where
  lines : List Mips.Line := []
  derivation : List Nat := []
  trace : List Text := []
  diagnostics : List Diagnostic := []
  ok : Bool := true

namespace Record

/-- Keeps an event as settings say. -/
def keep (s : Settings) (r : Record) : Event → Record
  | .line l => { r with lines := r.lines ++ [l] }
  | .rule p => { r with derivation := r.derivation ++ [p.number] }
  | .note n => if s.feature .verboseTrace then { r with trace := r.trace ++ [n.name] } else r
  | .fault d => { r with diagnostics := r.diagnostics ++ [d], ok := r.ok && !d.fault.isFatal s }
  | .remark _ _ => r

/-- The record of some events. -/
def ofEvents (s : Settings) (es : List Event) : Record := es.foldl (keep s) {}

/-- What a record gains from some events. -/
theorem foldl_keep (s : Settings) (r : Record) (es : List Event) :
    es.foldl (Record.keep s) r =
      { lines := r.lines ++ es.filterMap Event.line?
        derivation := r.derivation ++ (es.filterMap Event.rule?).map Rule.number
        trace := r.trace ++ if s.feature .verboseTrace then (es.filterMap Event.note?).map Note.name else []
        diagnostics := r.diagnostics ++ es.filterMap Event.fault?
        ok := r.ok && (es.filterMap Event.fault?).all fun d => !d.fault.isFatal s } := by
  induction es generalizing r with
  | nil => simp
  | cons e rest ih =>
    rw [List.foldl_cons, ih]
    cases e with
    | note n =>
      cases hs : s.feature .verboseTrace <;>
        simp [Record.keep, hs, List.filterMap_cons, Event.line?, Event.rule?, Event.note?, Event.fault?]
    | line | rule | fault | remark =>
      simp [Record.keep, List.filterMap_cons, Event.line?, Event.rule?, Event.note?, Event.fault?, Bool.and_assoc]

end Record

/-- In the end a record holds what the lowering is seen as. -/
theorem Lowering.record_eq (t : Lowering) (s : Settings) :
    Record.ofEvents s t.events =
      { lines := t.lines
        derivation := t.derivation
        trace := if s.feature .verboseTrace then (t.events.filterMap Event.note?).map Note.name else []
        diagnostics := t.diagnostics
        ok := t.succeeded s } :=
  Record.foldl_keep s {} t.events

theorem Lowering.trace_eq (t : Lowering) (s : Settings) :
    t.trace s = Text.join " " (Record.ofEvents s t.events).trace := by
  rw [t.record_eq, trace]
  split <;> rfl

end AlgolMips
