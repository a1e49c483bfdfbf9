import AlgolMips.Golden.Json.Read
import AlgolMips.Text.Words

/-!
# Golden results

What one run of the compiler on one source file produced, in the form in which it is stored: the output of the compiler,
the assembly with its fingerprint, and the output of the assembly under the simulator for each input it was given.
-/

namespace AlgolMips.Golden

/-- What a command printed and how it ended. The duration is in nanoseconds. -/
structure Execution where
  stdout : Text := ""
  stderr : Text := ""
  exitCode : Int := 0
  duration : Int64 := 0
  timedOut : Bool := false
deriving DecidableEq

/-- A run of the assembly on a named input. -/
structure TestRun where
  name : Text := ""
  input : Text := ""
  result : Execution := {}
deriving DecidableEq

/-- What one source file led to. -/
structure Result where
  compile : Execution := {}
  assembly : Text := ""
  assemblyHash : Text := ""
  runs : List TestRun := []
deriving DecidableEq

/-! ## Writing -/

def member (key : Text) (j : Json) : List (Text × Json) := [(key, j)]

/-- A text member that is left out where the text is empty. -/
def textMember (key t : Text) : List (Text × Json) := if t.isEmpty then [] else [(key, .string t)]

def Execution.toJson (e : Execution) : Json :=
  .record [("stdout", .string e.stdout), ("stderr", .string e.stderr), ("exitCode", .int e.exitCode),
    ("duration", .int e.duration.toInt), ("timed_out", .bool e.timedOut)]

def TestRun.toJson (r : TestRun) : Json :=
  .record (member "name" (.string r.name) ++ textMember "input" r.input ++ member "result" r.result.toJson)

def Result.toJson (r : Result) : Json :=
  .record (member "compile" r.compile.toJson ++ textMember "assembly" r.assembly ++
    textMember "assembly_hash" r.assemblyHash ++
    if r.runs.isEmpty then [] else member "runs" (.list (r.runs.map TestRun.toJson)))

/-! ## Reading -/

/-- The way to a value: the keys as they are spelled, and the places in arrays. -/
abbrev Trail := List Text

/-- A value of the wrong kind: what was found, where, and what was wanted. -/
structure DecodeError where
  found : Text
  trail : Trail
  wanted : Text
deriving DecidableEq

def DecodeError.message (e : DecodeError) : Text :=
  "json: cannot unmarshal " ++ e.found ++ " into Go " ++
    (if e.trail.isEmpty then ("value" : Text) else "struct field TargetResult." ++ Text.join "." e.trail) ++
    " of type " ++ e.wanted

/-- What a value is called in an error. -/
def Json.kind : Json → Text
  | .null => "null"
  | .bool _ => "bool"
  | .number _ => "number"
  | .string _ => "string"
  | .array _ => "array"
  | .object _ => "object"

/-- A text; nothing changes at a null. -/
def decodeText (trail : Trail) (old : Text) : Json → Except DecodeError Text
  | .string t => .ok t
  | .null => .ok old
  | j => .error ⟨j.kind, trail, "string"⟩

/-- A truth value; nothing changes at a null. -/
def decodeBool (trail : Trail) (old : Bool) : Json → Except DecodeError Bool
  | .bool b => .ok b
  | .null => .ok old
  | j => .error ⟨j.kind, trail, "bool"⟩

/-- The number that a literal of digits alone spells. -/
def wholeValue? (bs : List UInt8) : Option Nat := if bs.all Text.isDigit then some (Text.digitsValue bs) else none

/-- The integer that a literal spells, if it is one and a word can hold it. -/
def intValue? (literal : Text) : Option Int :=
  let n := match literal.bytes with
    | 0x2D :: ds => (wholeValue? ds).map fun n => -(n : Int)
    | ds => (wholeValue? ds).map fun n => (n : Int)
  n.filter fun n => Int64.minValue.toInt ≤ n ∧ n ≤ Int64.maxValue.toInt

/-- An integer; nothing changes at a null. -/
def decodeInt (trail : Trail) (wanted : Text) (old : Int) : Json → Except DecodeError Int
  | .number l =>
    match intValue? l with
    | some n => .ok n
    | none => .error ⟨"number " ++ l, trail, wanted⟩
  | .null => .ok old
  | j => .error ⟨j.kind, trail, wanted⟩

/-- A character of a key regardless of case. The long s and the sign of the kelvin count as the letters they are forms of. -/
def keyChar (c : Char) : Char :=
  if c.toNat = 0x17F then 's' else if c.toNat = 0x212A then 'k' else c.toLower

/-- The name among `known` that a key stands for: the one it spells, or else one that it spells regardless of case. -/
def fieldOf? (known : List Text) (key : Text) : Option Text :=
  (known.find? (· = key)).or (known.find? fun k => k.chars.map keyChar = key.chars.map keyChar)

/-- Decodes the members of an object one by one into a record. -/
def decodeMembers {α : Type} (step : α → Text → Json → Except DecodeError α) (a : α) :
    JsonTree .members → Except DecodeError α
  | .noMembers => .ok a
  | .member k j rest => do decodeMembers step (← step a k j) rest

/-- A record from an object, starting from what is there; nothing changes at a null. -/
def decodeRecord {α : Type} (trail : Trail) (wanted : Text) (step : α → Text → Json → Except DecodeError α) (old : α) :
    Json → Except DecodeError α
  | .object ms => decodeMembers step old ms
  | .null => .ok old
  | j => .error ⟨j.kind, trail, wanted⟩

def Execution.decode (trail : Trail) : Execution → Json → Except DecodeError Execution :=
  decodeRecord trail "main.Execution" fun e key j =>
    let trail := trail ++ [key]
    match fieldOf? ["stdout", "stderr", "exitCode", "duration", "timed_out"] key with
    | none => .ok e
    | some field =>
      if field = "stdout" then do return { e with stdout := ← decodeText trail e.stdout j }
      else if field = "stderr" then do return { e with stderr := ← decodeText trail e.stderr j }
      else if field = "exitCode" then do return { e with exitCode := ← decodeInt trail "int" e.exitCode j }
      else if field = "duration" then do
        return { e with duration := Int64.ofInt (← decodeInt trail "time.Duration" e.duration.toInt j) }
      else do return { e with timedOut := ← decodeBool trail e.timedOut j }

def TestRun.decode (trail : Trail) : TestRun → Json → Except DecodeError TestRun :=
  decodeRecord trail "main.TestRun" fun r key j =>
    let trail := trail ++ [key]
    match fieldOf? ["name", "input", "result"] key with
    | none => .ok r
    | some field =>
      if field = "name" then do return { r with name := ← decodeText trail r.name j }
      else if field = "input" then do return { r with input := ← decodeText trail r.input j }
      else do return { r with result := ← r.result.decode trail j }

/-- A result while it is read. Where its runs are given again, each new run starts from the one that stood in its place, so
those that a shorter list has no place for are kept behind it. -/
structure Draft extends Result where
  spare : List TestRun := []

/-- The runs of an array from its item number `n` on, each starting from what stood in its place, and the old runs behind
them. -/
def decodeItems (trail : Trail) (n : Nat) (old : List TestRun) :
    JsonTree .items → Except DecodeError (List TestRun × List TestRun)
  | .noItems => .ok ([], old)
  | .item j rest => do
    let r ← TestRun.decode (trail ++ [Text.ofNat n]) (old.headD {}) j
    let (rs, spare) ← decodeItems trail (n + 1) old.tail rest
    return (r :: rs, spare)

/-- The runs of a draft from an array; nothing is kept at an empty array or a null. -/
def Draft.decodeRuns (trail : Trail) (d : Draft) : Json → Except DecodeError Draft
  | .array .noItems => .ok { d with runs := [], spare := [] }
  | .array items => do
    let (runs, spare) ← decodeItems trail 0 (d.runs ++ d.spare) items
    return { d with runs := runs, spare := spare }
  | .null => .ok { d with runs := [], spare := [] }
  | j => .error ⟨j.kind, trail, "[]main.TestRun"⟩

def Draft.decode : Draft → Json → Except DecodeError Draft :=
  decodeRecord [] "main.TargetResult" fun d key j =>
    match fieldOf? ["compile", "assembly", "assembly_hash", "runs"] key with
    | none => .ok d
    | some field =>
      if field = "compile" then do return { d with compile := ← d.compile.decode [key] j }
      else if field = "assembly" then do return { d with assembly := ← decodeText [key] d.assembly j }
      else if field = "assembly_hash" then do return { d with assemblyHash := ← decodeText [key] d.assemblyHash j }
      else d.decodeRuns [key] j

def Result.decode (j : Json) : Except DecodeError Result := (Draft.decode {} j).map Draft.toResult

/-- The stored form of a result. -/
def Result.render (r : Result) : Text := r.toJson.render 0

/-- The result that a stored text holds, or what is wrong with the text. -/
def Result.parse (t : Text) : Except Text Result :=
  match Json.read t with
  | .error e => .error e.message
  | .ok j => (Result.decode j).mapError DecodeError.message

end AlgolMips.Golden
