import AlgolMips.Text.Quoted

/-!
# JSON

Values of JSON as trees, and the indented form in which they are written. Numbers are kept as they are spelled. In written
strings the characters that have a meaning in markup are escaped too, and a stray byte is written as the replacement
character.
-/

namespace AlgolMips.Golden

/-- A value, or the inside of an array or an object. -/
inductive JsonPart where
  | value
  | items
  | members
deriving DecidableEq

/-- JSON values, and the lists that arrays and objects hold. -/
inductive JsonTree : JsonPart → Type where
  | null : JsonTree .value
  | bool (b : Bool) : JsonTree .value
  | number (literal : Text) : JsonTree .value
  | string (t : Text) : JsonTree .value
  | array (items : JsonTree .items) : JsonTree .value
  | object (members : JsonTree .members) : JsonTree .value
  | noItems : JsonTree .items
  | item (head : JsonTree .value) (tail : JsonTree .items) : JsonTree .items
  | noMembers : JsonTree .members
  | member (key : Text) (value : JsonTree .value) (tail : JsonTree .members) : JsonTree .members

abbrev Json := JsonTree .value

namespace Json

def ofItems : List Json → JsonTree .items
  | [] => .noItems
  | j :: rest => .item j (ofItems rest)

def ofMembers : List (Text × Json) → JsonTree .members
  | [] => .noMembers
  | (k, j) :: rest => .member k j (ofMembers rest)

def list (js : List Json) : Json := .array (ofItems js)

def record (ms : List (Text × Json)) : Json := .object (ofMembers ms)

def int (n : Int) : Json := .number (Text.ofInt n)

/-- How a character is written in a string. -/
def escapedChar (c : Char) : List Char :=
  if c = '"' ∨ c = '\\' then ['\\', c]
  else match [(8, 'b'), (9, 't'), (10, 'n'), (12, 'f'), (13, 'r')].lookup c.toNat with
    | some l => ['\\', l]
    | none =>
      if c.toNat < 0x20 ∨ c = '<' ∨ c = '>' ∨ c = '&' ∨ c.toNat = 0x2028 ∨ c.toNat = 0x2029 then
        '\\' :: 'u' :: Text.hexDigits 4 c.toNat
      else [c]

/-- A text as a written string. -/
def quoted (t : Text) : Text := Text.ofChars ('"' :: t.chars.flatMap escapedChar ++ ['"'])

/-- Two spaces for each level. -/
def indent (level : Nat) : Text := Text.replicate (2 * level) " "

end Json

/-- The written form, each item and member on a line of its own at its level. -/
def JsonTree.render : {p : JsonPart} → Nat → JsonTree p → Text
  | _, _, .null => "null"
  | _, _, .bool b => if b then "true" else "false"
  | _, _, .number l => l
  | _, _, .string t => Json.quoted t
  | _, _, .array .noItems => "[]"
  | _, level, .array items => "[\n" ++ items.render (level + 1) ++ "\n" ++ Json.indent level ++ "]"
  | _, _, .object .noMembers => "\x7b\x7d"
  | _, level, .object members => "\x7b\n" ++ members.render (level + 1) ++ "\n" ++ Json.indent level ++ "\x7d"
  | _, _, .noItems => ""
  | _, level, .item j .noItems => Json.indent level ++ j.render level
  | _, level, .item j tail => Json.indent level ++ j.render level ++ ",\n" ++ tail.render level
  | _, _, .noMembers => ""
  | _, level, .member k j .noMembers => Json.indent level ++ Json.quoted k ++ ": " ++ j.render level
  | _, level, .member k j tail =>
    Json.indent level ++ Json.quoted k ++ ": " ++ j.render level ++ ",\n" ++ tail.render level

end AlgolMips.Golden
