import AlgolMips.Scope
import AlgolMips.Settings

/-!
# Faults

What can be wrong with a program, as a cause and the token that it is reported at. Every fault fails the program, with
one exception: operands of a multiplicative operator that do not go together fail it only where terms are taken strictly.
-/

namespace AlgolMips

/-- The classes of faults, under which they are printed. `unknown` stands for a number that no class has. -/
inductive FaultKind where
  | syntactic
  | redeclaration
  | undeclaredName
  | typeMismatch
  | unknown (code : Int)
deriving DecidableEq

namespace FaultKind

def ofCode (n : Int) : FaultKind :=
  if n = 0 then syntactic
  else if n = 1 then redeclaration
  else if n = 2 then undeclaredName
  else if n = 3 then typeMismatch
  else unknown n

def name : FaultKind → Text
  | syntactic => "syntax error"
  | redeclaration => "redeclaration error"
  | undeclaredName => "undeclared name error"
  | typeMismatch => "type mismatch error"
  | unknown n => "kind(" ++ Text.ofInt n ++ ")"

/-- A message under its class. -/
def headed (k : FaultKind) (message : Text) : Text := k.name ++ ": " ++ message

end FaultKind

/-- The statements that a condition guards. -/
inductive Guarded where
  | conditional
  | loop
deriving DecidableEq

def Guarded.name : Guarded → Text
  | conditional => "if"
  | loop => "while"

/-- A cause of failure. -/
inductive Fault where
  /-- The grammar asks for one kind of token, and another token stands there. -/
  | expected (kind : Kind) (found : Token)
  | name (e : NameError)
  /-- A value is stored in a variable of another type. -/
  | assignment (value : Ty) (target : Variable)
  | condition (guarded : Guarded) (found : Ty)
  | addition (op : Text) (left right : Ty)
  | multiplication (op : Text) (left right : Ty)
  | comparison (left : Ty) (op : Text)
  | negation (found : Ty)
  | reading (found : Ty)
deriving DecidableEq

namespace Fault

def kind : Fault → FaultKind
  | expected .. => .syntactic
  | name (.redeclared ..) => .redeclaration
  | name (.undeclared _) => .undeclaredName
  | _ => .typeMismatch

def message : Fault → Text
  | expected k t =>
    "expected " ++ k.name ++ " but got " ++ t.kind.name ++ " (lexeme " ++ t.value.quote ++ ")"
  | name e => e.message
  | assignment value target =>
    "cannot assign " ++ value.name ++ " to '" ++ target.name ++ "' of type " ++ target.ty.name
  | condition g found => g.name ++ " condition must be " ++ Ty.logical.name ++ ", got " ++ found.name
  | addition op left right => operands op left right
  | multiplication op left right => operands op left right
  | comparison left op => "cannot compare " ++ left.name ++ " with '" ++ op ++ "'"
  | negation found => "'!' cannot be applied to " ++ found.name
  | reading found => "read expects an " ++ Ty.integer.name ++ " variable, got " ++ found.name
where
  operands (op : Text) (left right : Ty) : Text :=
    "operands of '" ++ op ++ "' have types " ++ left.name ++ " and " ++ right.name

/-- Whether a fault fails the program. -/
def isFatal (s : Settings) : Fault → Bool
  | multiplication .. => s.feature .strictTerm
  | _ => true

end Fault

/-- A fault and the token that it is reported at. -/
structure Diagnostic where
  token : Token
  fault : Fault
deriving DecidableEq

namespace Diagnostic

/-- A diagnostic in one line. -/
def describe (d : Diagnostic) : Text := d.fault.kind.headed d.fault.message

end Diagnostic

/-- A remark on a program that does not fail it. -/
inductive Remark where
  | shadows (previous : Variable)
  | trailing
deriving DecidableEq

namespace Remark

def warning : Remark → Warning
  | shadows _ => .shadow
  | trailing => .trailing

/-- The text of a remark at a token. -/
def message (r : Remark) (tok : Token) : Text :=
  match r with
  | shadows previous =>
    "declaration of '" ++ tok.value ++ "' shadows the one on line " ++ Text.ofInt previous.token.line
  | trailing => "tokens after the end of the program are ignored"

end Remark

end AlgolMips
