import AlgolMips.Settings
import AlgolMips.Text.Copies
import AlgolMips.Token

/-!
# Located messages

A message about a token names the file, line and column, and shows the source line with a mark under the token where the
line is known. A token whose place was not found by scanning may lie beyond every line: then the mark cannot be drawn, and
the message cannot be written.
-/

namespace AlgolMips

/-- A source file under the name it is reported by. -/
structure SourceFile where
  name : Text
  content : List Char

namespace Report

/-- The files that messages may point into, by number, and whether messages are coloured. -/
structure Style where
  files : List SourceFile := []
  color : Bool := false

/-- The colours of messages. -/
inductive Color where
  | red
  | green
  | yellow

def Color.code : Color → Text
  | red => "\x1b[31m"
  | green => "\x1b[32m"
  | yellow => "\x1b[33m"

namespace Style

def paint (s : Style) (c : Color) (t : Text) : Text := if s.color then c.code ++ t ++ "\x1b[0m" else t

/-- The file with a number. -/
def file? (s : Style) (n : Int) : Option SourceFile :=
  match n with
  | .ofNat i => s.files[i]?
  | .negSucc _ => none

/-- Line `n`, counted from one, of a file, without carriage returns at its end. -/
def sourceLine? (s : Style) (file n : Int) : Option Text := do
  let f ← s.file? file
  if n ≤ 0 then none
  else
    let line ← (Text.ofChars f.content).lines[n.toNat - 1]?
    return ⟨(line.bytes.reverse.dropWhile (· == 13)).reverse⟩

/-- The mark under a token: a caret, and a tilde for each further character. -/
def mark (tok : Token) : Text := "^" ++ Text.replicate (tok.len - 1).toNat "~"

/-- The source line of a token and the mark under it, or nothing where the line is not known. -/
def excerpt (s : Style) (tok : Token) : Text :=
  match s.sourceLine? tok.file tok.line with
  | none => ""
  | some line =>
    Text.unlines ["  " ++ line, "  " ++ Text.replicate (tok.column - 1).toNat " " ++ s.paint .green (mark tok)]

/-- Where a token stands. -/
def place (s : Style) (tok : Token) : Text :=
  ((s.file? tok.file).elim ("unknown" : Text) SourceFile.name) ++ ":" ++ Text.ofInt tok.line ++ ":" ++
    Text.ofInt tok.column ++ ": "

/-- An error at a token. -/
def error (s : Style) (tok : Token) (message : Text) : Text :=
  s.place tok ++ s.paint .red "error:" ++ " " ++ message ++ "\n" ++ s.excerpt tok

/-- A warning at a token, or nothing where the warning is off. -/
def warning (s : Style) (settings : Settings) (w : Warning) (tok : Token) (message : Text) : Text :=
  if settings.warning w then
    s.place tok ++ s.paint .yellow "warning:" ++ " " ++ message ++ " [-W" ++ w.name ++ "]\n" ++ s.excerpt tok
  else ""

/-- What keeps the mark under a token from being drawn, where its line is known. -/
def markFault? (s : Style) (tok : Token) : Option Text.CountFault := do
  let _ ← s.sourceLine? tok.file tok.line
  (Text.countFault? (max (Int64.ofInt tok.len) 1 - 1)).or (Text.countFault? (max (Int64.ofInt tok.column - 1) 0))

/-- An error at a token, provided that its mark can be drawn. -/
def error? (s : Style) (tok : Token) (message : Text) : Except Text.CountFault Text :=
  match s.markFault? tok with
  | some fault => .error fault
  | none => .ok (s.error tok message)

/-- A warning at a token, provided that its mark can be drawn where the warning is on. -/
def warning? (s : Style) (settings : Settings) (w : Warning) (tok : Token) (message : Text) :
    Except Text.CountFault Text :=
  match s.markFault? tok with
  | some fault => if settings.warning w then .error fault else .ok ""
  | none => .ok (s.warning settings w tok message)

end Style

end Report

end AlgolMips
