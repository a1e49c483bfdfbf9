import AlgolMips.Scope

/-!
# Sessions

A session is a symbol table with the frame that its slots are taken from. It is worked on by calls, one after the other,
and every call has an answer. Temporaries take slots of the same frame as variables.
-/

namespace AlgolMips

/-- A symbol table and its frame. -/
structure Session where
  table : SymbolTable := {}
  frame : Frame
deriving DecidableEq

/-- Something that a session is asked for. -/
inductive Call where
  | enter
  | leave
  | declare (tok : Token) (ty : Ty)
  | resolve (name : Text)
  | shadows (name : Text)
  | scope (id : Int)
  | temporary
deriving DecidableEq

/-- What a call gives. -/
inductive Answer where
  | entered (id : Nat)
  | left
  | declared (v : Variable)
  | found (v : Variable)
  | refused (e : NameError)
  | shadowed (v : Option Variable)
  | scope (s : Option Scope)
  | temporary (offset : Int64)
deriving DecidableEq

namespace Session

/-- A session in which only the outermost scope is open and no slot is taken. -/
def fresh (wordSize : Int64) : Session := { frame := { wordSize } }

/-- Answers a call. -/
def perform (s : Session) : Call → Answer × Session
  | .enter => (.entered s.table.enter.innermost.id, { s with table := s.table.enter })
  | .leave => (.left, { s with table := s.table.leave })
  | .declare tok ty =>
    match s.table.declare s.frame tok ty with
    | .ok (v, table, frame) => (.declared v, ⟨table, frame⟩)
    | .error e => (.refused e, s)
  | .resolve name =>
    match s.table.resolve name with
    | .ok v => (.found v, s)
    | .error e => (.refused e, s)
  | .shadows name => (.shadowed (s.table.shadowed? name), s)
  | .scope (.ofNat id) => (.scope (s.table.scope? id), s)
  | .scope (.negSucc _) => (.scope none, s)
  | .temporary => (.temporary s.frame.alloc.1, { s with frame := s.frame.alloc.2 })

/-- The session after some calls. -/
def run (s : Session) : List Call → Session
  | [] => s
  | c :: rest => run (s.perform c).2 rest

/-- The answers to some calls, in order. -/
def answers (s : Session) : List Call → List Answer
  | [] => []
  | c :: rest => (s.perform c).1 :: answers (s.perform c).2 rest

end Session

end AlgolMips
