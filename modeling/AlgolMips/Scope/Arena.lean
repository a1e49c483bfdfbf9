import AlgolMips.Scope.Session
import Std.Data.HashMap

/-!
# The arena of scopes

A symbol table as it is kept in memory. Every scope that was ever opened stands in one arena, and its place there is its
number. The open scopes and those that were left are lists of such numbers, so a scope that was left can still be looked at
while it takes no part in any search. Each scope has its names in the order of their declarations and its variables by name.
The slots of variables come from a frame, which the table shares with whoever needs temporaries.
-/

namespace AlgolMips

/-- A scope in memory. The level is the number of scopes around it. -/
structure ScopeRecord where
  id : Nat
  level : Nat
  names : Array Text := #[]
  vars : Std.HashMap Text Variable := {}
deriving Inhabited

namespace ScopeRecord

def find? (r : ScopeRecord) (name : Text) : Option Variable := r.vars[name.fold]?

/-- Binds the name of a variable. -/
def bind (r : ScopeRecord) (v : Variable) : ScopeRecord :=
  { r with names := r.names.push v.name, vars := r.vars.insert v.name v }

/-- What a scope holds: its variables in the order of their declarations. -/
def view (r : ScopeRecord) : Scope := ⟨r.id, r.level, r.names.toList.filterMap fun name => r.vars[name]?⟩

end ScopeRecord

/-- All scopes by number, the numbers of the open ones from the outermost to the innermost, the numbers of those that were
left in that order, and the frame. -/
structure Arena where
  scopes : Array ScopeRecord := #[]
  active : Array Nat := #[]
  retired : Array Nat := #[]
  frame : Frame

namespace Arena

/-- The scope with a number. -/
def record (a : Arena) (id : Nat) : ScopeRecord := a.scopes[id]?.getD default

def depth (a : Arena) : Nat := a.active.size

/-- The number of the innermost scope. -/
def currentId (a : Arena) : Nat := a.active.back?.getD 0

def current (a : Arena) : ScopeRecord := a.record a.currentId

/-- Opens a fresh scope inside the innermost one, and gives its number. -/
def enter (a : Arena) : Nat × Arena :=
  let id := a.scopes.size
  (id, { a with scopes := a.scopes.push { id, level := a.active.size }, active := a.active.push id })

/-- A table of which only the outermost scope is open. -/
def new (frame : Frame) : Arena := (enter { frame }).2

/-- Leaves the innermost scope, unless it is the outermost one. -/
def leave (a : Arena) : Arena :=
  if a.active.size ≤ 1 then a else { a with retired := a.retired.push a.currentId, active := a.active.pop }

/-- The free slot of the frame, which is taken. -/
def alloc (a : Arena) : Int64 × Arena := (a.frame.alloc.1, { a with frame := a.frame.alloc.2 })

/-- Binds the name of a token in the innermost scope, in the next slot of the frame. A name that the scope already has is
refused, and no slot is taken. -/
def declare (a : Arena) (tok : Token) (ty : Ty) : Except NameError Variable × Arena :=
  let name := tok.value.fold
  match a.current.vars[name]? with
  | some previous => (.error (.redeclared name a.current.id previous), a)
  | none =>
    let (offset, a) := a.alloc
    let v : Variable := ⟨{ tok with value := name }, ty, offset⟩
    (.ok v, { a with scopes := a.scopes.modify a.currentId (·.bind v) })

/-- The binding of a folded name in the innermost of the `n` outer open scopes that has one. -/
def lookupBelow (a : Arena) (key : Text) : Nat → Option Variable
  | 0 => none
  | n + 1 =>
    match (a.record (a.active.getD n 0)).vars[key]? with
    | some v => some v
    | none => a.lookupBelow key n

/-- The binding of a name that is in force. -/
def resolve (a : Arena) (name : Text) : Except NameError Variable :=
  match a.lookupBelow name.fold a.active.size with
  | some v => .ok v
  | none => .error (.undeclared name.fold)

/-- The binding in an enclosing scope that a declaration of the name in the innermost one hides. -/
def shadowed? (a : Arena) (name : Text) : Option Variable := a.lookupBelow name.fold (a.active.size - 1)

/-- The scope with a number, if the number is one. -/
def scope? (a : Arena) : Int → Option ScopeRecord
  | .ofNat id => a.scopes[id]?
  | .negSucc _ => none

/-- The scopes with some numbers. -/
def collect (a : Arena) (ids : Array Nat) : List ScopeRecord := ids.toList.map a.record

/-- The outermost scope as number zero, then every retired scope that has variables, under its place among the retired ones
counted from one. -/
def dump (a : Arena) : Text :=
  (a.record (a.active.getD 0 0)).view.dump 0 ++
    Text.concat ((a.collect a.retired).mapIdx fun i r => if r.names.isEmpty then Text.empty else r.view.dump (i + 1))

/-- Answers a call. -/
def perform (a : Arena) : Call → Answer × Arena
  | .enter => (.entered a.enter.1, a.enter.2)
  | .leave => (.left, a.leave)
  | .declare tok ty =>
    match a.declare tok ty with
    | (.ok v, a) => (.declared v, a)
    | (.error e, a) => (.refused e, a)
  | .resolve name =>
    match a.resolve name with
    | .ok v => (.found v, a)
    | .error e => (.refused e, a)
  | .shadows name => (.shadowed (a.shadowed? name), a)
  | .scope id => (.scope ((a.scope? id).map ScopeRecord.view), a)
  | .temporary => (.temporary a.alloc.1, a.alloc.2)

/-- The table after some calls. -/
def run (a : Arena) : List Call → Arena
  | [] => a
  | c :: rest => run (a.perform c).2 rest

/-- The answers to some calls, in order. -/
def answers (a : Arena) : List Call → List Answer
  | [] => []
  | c :: rest => (a.perform c).1 :: answers (a.perform c).2 rest

end Arena

end AlgolMips
