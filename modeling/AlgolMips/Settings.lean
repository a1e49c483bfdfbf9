import AlgolMips.Text.Words

/-!
# Settings

Features change how a program is compiled, warnings decide which remarks are printed. Both are switched by directives
such as `-Wall`, `-Wno-shadow` or `-Fstrict-term`, one after the other, the last one that names a switch deciding it.
-/

namespace AlgolMips

/-- A choice about the compilation. -/
inductive Feature where
  | comments
  | verboseTrace
  | strictTerm
  | strictOutput
deriving DecidableEq, Inhabited

namespace Feature

def all : List Feature := [comments, verboseTrace, strictTerm, strictOutput]

def name : Feature → Text
  | comments => "comments"
  | verboseTrace => "verbose-trace"
  | strictTerm => "strict-term"
  | strictOutput => "strict-output"

def description : Feature → Text
  | comments => "Skip `comment ... ;` sequences in the source."
  | verboseTrace => "Record a named derivation trace alongside the production numbers."
  | strictTerm => "Make type mismatches in multiplicative terms fail the translation."
  | strictOutput => "Only write the assembly file when translation succeeded."

/-- Whether a feature is on before any directive. -/
def initial : Feature → Bool
  | comments => true
  | _ => false

def ofName? (n : Text) : Option Feature := all.find? fun f => f.name = n

end Feature

/-- A class of remarks about a program that is compiled all the same. -/
inductive Warning where
  | shadow
  | unknownChar
  | trailing
  | extra
deriving DecidableEq, Inhabited

namespace Warning

def all : List Warning := [shadow, unknownChar, trailing, extra]

def name : Warning → Text
  | shadow => "shadow"
  | unknownChar => "unknown-char"
  | trailing => "trailing"
  | extra => "extra"

def description : Warning → Text
  | shadow => "Warn when a declaration hides a name from an enclosing block."
  | unknownChar => "Warn about characters the scanner could not classify."
  | trailing => "Warn about tokens following the final '.'."
  | extra => "Enable extra miscellaneous warnings."

/-- Whether a warning is on before any directive. -/
def initial : Warning → Bool
  | shadow => false
  | _ => true

def ofName? (n : Text) : Option Warning := all.find? fun w => w.name = n

end Warning

/-- What is switched on, the size of a frame slot, and where the assembly goes. -/
structure Settings where
  feature : Feature → Bool := Feature.initial
  warning : Warning → Bool := Warning.initial
  wordSize : Int64 := 4
  output : Text := "out.s"

namespace Settings

def setFeature (s : Settings) (f : Feature) (on : Bool) : Settings :=
  { s with feature := fun g => if g = f then on else s.feature g }

def setWarning (s : Settings) (w : Warning) (on : Bool) : Settings :=
  { s with warning := fun v => if v = w then on else s.warning v }

def setWarnings (s : Settings) (on : Bool) : Settings := { s with warning := fun _ => on }

end Settings

/-- A change of the settings. -/
inductive Directive where
  | feature (f : Feature) (on : Bool)
  | warning (w : Warning) (on : Bool)
  | warnings (on : Bool)
deriving DecidableEq

/-- Why a text is no directive. -/
inductive DirectiveError where
  | unrecognized (flag : Text)
  | unknownWarning (name : Text)
  | unknownFeature (name : Text)
deriving DecidableEq

def DirectiveError.message : DirectiveError → Text
  | unrecognized flag => "unrecognized flag '" ++ flag ++ "'"
  | unknownWarning name => "unknown warning '" ++ name ++ "'"
  | unknownFeature name => "unknown feature '" ++ name ++ "'"

namespace Directive

/-- A name and whether it is to be switched on: `no-` before a name switches it off. -/
def polarity (body : Text) : Text × Bool :=
  match Text.dropBeginning? "no-" body with
  | some name => (name, false)
  | none => (body, true)

def ofWarning (name : Text) (on : Bool) : Except DirectiveError Directive :=
  if name = "all" then .ok (.warnings on)
  else match Warning.ofName? name with
    | some w => .ok (.warning w on)
    | none => .error (.unknownWarning name)

def ofFeature (name : Text) (on : Bool) : Except DirectiveError Directive :=
  match Feature.ofName? name with
  | some f => .ok (.feature f on)
  | none => .error (.unknownFeature name)

/-- The directive that a word spells, with or without a dash before it. -/
def parse (flag : Text) : Except DirectiveError Directive :=
  let word := Text.trimBeginning "-" flag
  match Text.dropBeginning? "W" word, Text.dropBeginning? "F" word with
  | some body, _ => ofWarning (polarity body).1 (polarity body).2
  | none, some body => ofFeature (polarity body).1 (polarity body).2
  | none, none => .error (.unrecognized flag)

def apply (d : Directive) (s : Settings) : Settings :=
  match d with
  | feature f on => s.setFeature f on
  | warning w on => s.setWarning w on
  | warnings on => s.setWarnings on

end Directive

namespace Settings

/-- The settings after a list of words, and the error at the first word that is no directive. What the words before it
say holds all the same. -/
def applyWords (s : Settings) : List Text → Settings × Option DirectiveError
  | [] => (s, none)
  | w :: rest =>
    match Directive.parse w with
    | .ok d => applyWords (d.apply s) rest
    | .error e => (s, some e)

/-- The settings after a text of directives between blanks. -/
def applyText (s : Settings) (t : Text) : Settings × Option DirectiveError := s.applyWords t.words

/-- Whether the name of a command-line flag is about all warnings at once. -/
def isGeneralName (name : Text) : Bool := name = "Wall" || name = "Wno-all"

/-- Whether the name of a command-line flag is about one warning or one feature. -/
def isSingleName (name : Text) : Bool :=
  match Text.dropBeginning? "W" name, Text.dropBeginning? "F" name with
  | some body, _ => (Warning.ofName? (Text.trimBeginning "no-" body)).isSome
  | none, some body => (Feature.ofName? (Text.trimBeginning "no-" body)).isSome
  | none, none => false

/-- The names that are directives, each group in the order given. Those about all warnings come first, so that one about a
single warning counts wherever it stands. -/
def directiveNames (names : List Text) : List Text :=
  names.filter isGeneralName ++ names.filter fun n => !isGeneralName n && isSingleName n

/-- The settings after the named flags, and the error at the first name that is no directive after all. Names of other
flags are passed over. -/
def applyNames (s : Settings) (names : List Text) : Settings × Option DirectiveError :=
  s.applyWords ((directiveNames names).map ("-" ++ ·))

end Settings

end AlgolMips
