import AlgolMips.Text.Quoted

/-!
# Tokens

A token has a kind, the folded text it was scanned from, and the place where it stands. Kinds have a number each, which
orders them and names the ones that the language does not use.
-/

namespace AlgolMips

/-- What a token is to the grammar. `unknown` stands for a number that no kind of the language has. -/
inductive Kind where
  | eof
  | ident
  | literal
  | typeName
  | addOp
  | mulOp
  | relOp
  | begin
  | «end»
  | «if»
  | «then»
  | «while»
  | «do»
  | inout
  | lparen
  | rparen
  | semi
  | not
  | dot
  | assign
  | unknown (code : Int)
deriving DecidableEq, Inhabited

namespace Kind

/-- The kinds of the language, in the order of their numbers. -/
def known : List Kind :=
  [eof, ident, literal, typeName, addOp, mulOp, relOp, begin, «end», «if», «then», «while», «do», inout, lparen, rparen,
    semi, not, dot, assign]

/-- The kind with a number. -/
def ofCode (n : Int) : Kind :=
  match n with
  | .ofNat i => known[i]?.getD (unknown n)
  | .negSucc _ => unknown n

/-- The number of a kind. -/
def code : Kind → Int
  | unknown n => n
  | k => known.idxOf k

/-- The name of a kind in messages. -/
def name : Kind → Text
  | eof => "EOF"
  | ident => "identifier"
  | literal => "literal"
  | typeName => "type"
  | addOp => "additive operator"
  | mulOp => "multiplicative operator"
  | relOp => "relational operator"
  | begin => "'begin'"
  | «end» => "'end'"
  | «if» => "'if'"
  | «then» => "'then'"
  | «while» => "'while'"
  | «do» => "'do'"
  | inout => "io keyword"
  | lparen => "'('"
  | rparen => "')'"
  | semi => "';'"
  | not => "'!'"
  | dot => "'.'"
  | assign => "':='"
  | unknown n => "Type(" ++ Text.ofInt n ++ ")"

/-- The words of the language that are not identifiers. -/
def keywords : List (Text × Kind) :=
  [("begin", begin), ("end", «end»), ("if", «if»), ("then", «then»), ("while", «while»), ("do", «do»),
    ("read", inout), ("write", inout), ("writeln", inout),
    ("div", mulOp), ("rem", mulOp), ("and", mulOp), ("or", addOp),
    ("integer", typeName), ("logical", typeName), ("string", typeName),
    ("true", literal), ("false", literal)]

/-- The kind of a keyword. -/
def ofKeyword? (word : Text) : Option Kind := keywords.lookup word

end Kind

/-- A token: its kind, its folded text, and the file, line, column and length in characters of the place it was read
from. Lines and columns are counted from one. -/
structure Token where
  kind : Kind := .eof
  value : Text := ""
  file : Int := 0
  line : Int := 0
  column : Int := 0
  len : Int := 0
deriving DecidableEq, Inhabited

namespace Token

def isEof (t : Token) : Bool := t.kind = .eof

/-- A token as it is listed: its kind and its quoted text. -/
def describe (t : Token) : Text :=
  if t.isEof then "EOF" else t.kind.name ++ " " ++ t.value.quote

end Token

end AlgolMips
