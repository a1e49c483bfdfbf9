import AlgolMips.Mips.Instr

/-!
# Lines of assembly

A program is a list of lines: instructions, labels, directives, string constants, comments and blanks. It starts with a
prolog that sets up the frame pointer and announces the start, and ends with a postlog that announces the end, exits and
holds the fixed strings.
-/

namespace AlgolMips.Mips

/-- A line of assembly. -/
inductive Line where
  | blank
  /-- A remark on the code that follows. -/
  | comment (text : Text)
  /-- A remark that starts a part of the program. -/
  | banner (text : Text)
  | label (l : Label)
  | data
  | text
  | globl (l : Label)
  /-- A string constant; the label with its colon fills at least `column` columns. -/
  | asciiz (l : Label) (column : Nat) (value : Text)
  | instr (i : Instr)
  /-- Any other line, as it stands. -/
  | verbatim (t : Text)
deriving DecidableEq, Inhabited

namespace Line

def render : Line → Text
  | blank => ""
  | comment t => "# " ++ t
  | banner t => "#" ++ t
  | label l => l.name ++ ":"
  | data => ".data"
  | text => ".text"
  | globl l => ".globl " ++ l.name
  | asciiz l column v => head l column ++ " .asciiz \"" ++ v ++ "\""
  | instr i => i.render
  | verbatim t => t
where
  /-- A label with its colon, filled with spaces. -/
  head (l : Label) (column : Nat) : Text :=
    l.name ++ ":" ++ Text.replicate (column - (l.name.size + 1)) " "

end Line

/-- Services of the simulator, by the number that asks for them. -/
inductive Service where
  | printInt
  | printString
  | readInt
  | exit
deriving DecidableEq

def Service.code : Service → Int
  | printInt => 1
  | printString => 4
  | readInt => 5
  | exit => 10

/-- The lines that ask for the service with a number. -/
def callCode (n : Int) : List Line := [.instr (.loadImm .v0 (Text.ofInt n)), .instr .syscall]

def call (s : Service) : List Line := callCode s.code

/-- The lines that place a string constant and return to the code. -/
def inlineString (l : Label) (value : Text) : List Line := [.data, .asciiz l 0 value, .text]

namespace Label

def main : Label := .named "main"
def programStart : Label := .named "ProgStart"
def programEnd : Label := .named "ProgEnd"
def true : Label := .named "True"
def false : Label := .named "False"
def lineEnd : Label := .named "endl"

end Label

/-- The fixed strings, with their labels. -/
def fixedStrings : List (Label × Text) :=
  [(.programStart, "Program Start\\n"), (.programEnd, "Program End\\n"), (.true, "True"), (.false, "False"),
    (.lineEnd, "\\n")]

def prolog : List Line :=
  [.banner "Prolog: next 7 lines start the program", .text, .globl .main, .label .main,
    .instr (.move .fp .sp), .instr (.loadAddr .a0 .programStart)] ++ call .printString ++ [.blank]

def postlog : List Line :=
  [.blank, .banner "Postlog: next 8 lines will end all programs", .instr (.loadAddr .a0 .programEnd)] ++
    call .printString ++ call .exit ++ [.data] ++ fixedStrings.map fun (l, v) => .asciiz l 10 v

/-- The text of a program, each line ended. -/
def render (ls : List Line) : Text := Text.unlines (ls.map Line.render)

end AlgolMips.Mips
