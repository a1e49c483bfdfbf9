import AlgolMips.Frame
import AlgolMips.Token
import AlgolMips.Text.Words
import AlgolMips.Ty

/-!
# Scopes

A symbol table holds the scopes that are open, from the innermost to the outermost, and the scopes that were left. Names
are compared in lower case. A declaration binds a name in the innermost scope and takes a frame slot; a name is looked up
from the innermost scope outwards, so that a nearer binding hides a farther one. The outermost scope is never left.
-/

namespace AlgolMips

/-- A declared name with its type and frame slot. The token is the one that declared it, its value folded. -/
structure Variable where
  token : Token
  ty : Ty
  offset : Int64
deriving DecidableEq

namespace Variable

def name (v : Variable) : Text := v.token.value

def describe (v : Variable) : Text := v.ty.name ++ " " ++ v.name ++ " " ++ Text.ofWord v.offset

end Variable

/-- The variables of one block in the order of their declarations. The level is the number of scopes around it. -/
structure Scope where
  id : Nat
  level : Nat
  vars : List Variable := []
deriving DecidableEq

namespace Scope

def find? (s : Scope) (name : Text) : Option Variable :=
  let key := name.fold
  s.vars.find? fun v => v.name = key

/-- The variables with the highest slot first. -/
def bySlot (s : Scope) : List Variable := s.vars.mergeSort fun v w => w.offset.toInt ≤ v.offset.toInt

/-- A scope as it is listed under a number. -/
def dump (s : Scope) (n : Nat) : Text :=
  Text.unlines (("Scope " ++ Text.ofNat n ++ ":") :: s.bySlot.map fun v => "    " ++ v.describe)

end Scope

/-- What can be wrong with a name. -/
inductive NameError where
  | redeclared (name : Text) (scope : Nat) (previous : Variable)
  | undeclared (name : Text)
deriving DecidableEq

def NameError.message : NameError → Text
  | redeclared name scope _ => "'" ++ name ++ "' already declared in scope " ++ Text.ofNat scope
  | undeclared name => "'" ++ name ++ "' not declared"

/-- The open scopes, innermost apart and the others from inside out, and the scopes that were left, in that order. -/
structure SymbolTable where
  innermost : Scope := ⟨0, 0, []⟩
  enclosing : List Scope := []
  retired : List Scope := []
deriving DecidableEq

namespace SymbolTable

/-- The open scopes, innermost first. -/
def openScopes (t : SymbolTable) : List Scope := t.innermost :: t.enclosing

/-- The open scopes, outermost first. -/
def active (t : SymbolTable) : List Scope := t.openScopes.reverse

/-- The number of open scopes. -/
def depth (t : SymbolTable) : Nat := t.openScopes.length

/-- A table with a fresh scope inside the innermost one. Scopes are numbered in the order in which they are opened. -/
def enter (t : SymbolTable) : SymbolTable :=
  { t with
    innermost := ⟨t.depth + t.retired.length, t.depth, []⟩
    enclosing := t.openScopes }

/-- A table without its innermost scope, which is retired. The outermost scope stays. -/
def leave (t : SymbolTable) : SymbolTable :=
  match t.enclosing with
  | [] => t
  | s :: rest => { innermost := s, enclosing := rest, retired := t.retired ++ [t.innermost] }

/-- The scope with a number, open or retired. -/
def scope? (t : SymbolTable) (id : Nat) : Option Scope := (t.openScopes ++ t.retired).find? fun s => s.id = id

/-- Binds the name of a token in the innermost scope, in the next slot of the frame. A name that the scope already binds
is refused, and no slot is taken. -/
def declare (t : SymbolTable) (f : Frame) (tok : Token) (ty : Ty) : Except NameError (Variable × SymbolTable × Frame) :=
  match t.innermost.find? tok.value with
  | some previous => .error (.redeclared tok.value.fold t.innermost.id previous)
  | none =>
    let v : Variable := ⟨{ tok with value := tok.value.fold }, ty, f.alloc.1⟩
    .ok (v, { t with innermost := { t.innermost with vars := t.innermost.vars ++ [v] } }, f.alloc.2)

/-- The binding of a name in the first of some scopes that binds it. -/
def lookup (scopes : List Scope) (name : Text) : Option Variable := scopes.findSome? fun s => s.find? name

/-- The binding of a name that is in force. -/
def resolve (t : SymbolTable) (name : Text) : Except NameError Variable :=
  match lookup t.openScopes name with
  | some v => .ok v
  | none => .error (.undeclared name.fold)

/-- The binding in an enclosing scope that a declaration of the name in the innermost one hides. -/
def shadowed? (t : SymbolTable) (name : Text) : Option Variable := lookup t.enclosing name

/-- The outermost scope. -/
def outermost (t : SymbolTable) : Scope := t.enclosing.getLastD t.innermost

/-- The outermost scope as number zero, then every retired scope that has variables, under its place among the retired
ones counted from one. -/
def dump (t : SymbolTable) : Text :=
  t.outermost.dump 0 ++
    Text.concat (t.retired.mapIdx fun i s => if s.vars.isEmpty then Text.empty else s.dump (i + 1))

end SymbolTable

end AlgolMips
