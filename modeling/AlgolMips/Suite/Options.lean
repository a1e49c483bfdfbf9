import AlgolMips.Options.FlagSet
import AlgolMips.Text.Numeral

/-!
# Options of the golden-file suite

Options come before everything else on the command line, with one dash or two, and with the value behind an equals sign or
in the next word.
-/

namespace AlgolMips.Suite

/-- What a suite is asked to do. The timeout is in nanoseconds. -/
structure Options where
  compiler : Text := "./awc"
  compilerArgs : Text := ""
  simulator : Text := "spim"
  generate : Text := ""
  tests : Text := "tests/*.alw"
  skip : Text := ""
  output : Text := ".test_results.json"
  timeout : Int := 5000000000
  jobs : Int := 4
  verbose : Bool := false
  dir : Text := ""
  ignored : Text := ""

/-- A mistake on the command line. -/
inductive OptionError where
  | badSyntax (word : Text)
  | undefined (name : Text)
  | needsValue (name : Text)
  | invalid (value name : Text)
deriving DecidableEq

def OptionError.message : OptionError → Text
  | badSyntax word => "bad flag syntax: " ++ word
  | undefined name => "flag provided but not defined: -" ++ name
  | needsValue name => "flag needs an argument: -" ++ name
  | invalid value name => "invalid value \"" ++ value ++ "\" for flag -" ++ name ++ ": parse error"

/-- The units of time in nanoseconds. -/
def units : List (Text × Nat) :=
  [("ns", 1), ("us", 1000), ("µs", 1000), ("μs", 1000), ("ms", 1000000), ("s", 1000000000), ("m", 60000000000),
    ("h", 3600000000000)]

/-- The digits behind a point, if there is one, and what follows. -/
def fractionOf (bs : List UInt8) : List UInt8 × List UInt8 :=
  match bs with
  | 0x2E :: rest => rest.span Text.isDigit
  | _ => ([], bs)

/-- A sum of numbers with units, of at most `fuel` of them. -/
def parseTerms : Nat → List UInt8 → Option Nat
  | _, [] => some 0
  | 0, _ => none
  | fuel + 1, bs => do
    let (whole, rest) := bs.span Text.isDigit
    let (fraction, rest) := fractionOf rest
    if whole.isEmpty && fraction.isEmpty then none
    let (name, rest) := rest.span fun b => !Text.isDigit b && b != 0x2E
    let unit ← units.lookup ⟨name⟩
    let more ← parseTerms fuel rest
    return Text.digitsValue whole * unit + Text.digitsValue fraction * unit / 10 ^ fraction.length + more

/-- The duration that a text spells, in nanoseconds. -/
def parseDuration? (t : Text) : Option Int :=
  let (sign, bs) := Text.signOf t.bytes
  if bs.isEmpty then none
  else if bs = [0x30] then some 0
  else (parseTerms bs.length bs).map fun n => sign * n

/-- The names of the options. -/
def names : List Text :=
  ["compiler", "args", "spim", "generate-golden", "test-files", "skip-files", "output", "timeout", "j", "v", "dir",
    "ignore-lines"]

namespace Options

/-- Sets an option from a text, or says that there is no such option, or that the text does not fit. -/
def assign (o : Options) (name value : Text) : Except OptionError Options :=
  let fit {α : Type} (a : Option α) (f : α → Options) : Except OptionError Options :=
    match a with
    | some a => .ok (f a)
    | none => .error (.invalid value name)
  if name = "compiler" then .ok { o with compiler := value }
  else if name = "args" then .ok { o with compilerArgs := value }
  else if name = "spim" then .ok { o with simulator := value }
  else if name = "generate-golden" then .ok { o with generate := value }
  else if name = "test-files" then .ok { o with tests := value }
  else if name = "skip-files" then .ok { o with skip := value }
  else if name = "output" then .ok { o with output := value }
  else if name = "dir" then .ok { o with dir := value }
  else if name = "ignore-lines" then .ok { o with ignored := value }
  else if name = "timeout" then fit (parseDuration? value) fun d => { o with timeout := d }
  else if name = "j" then fit value.numeral? fun n => { o with jobs := n }
  else if name = "v" then fit (AlgolMips.Options.parseBool? value) fun b => { o with verbose := b }
  else .error (.undefined name)

/-- A word as an option: its name, and its value if it stands in the word. -/
def optionOf (word : Text) : Option (Text × Option Text) :=
  match word.bytes with
  | 0x2D :: 0x2D :: b :: rest => some (Text.cut 0x3D ⟨b :: rest⟩)
  | 0x2D :: b :: rest => if b = 0x2D then none else some (Text.cut 0x3D ⟨b :: rest⟩)
  | _ => none

/-- The options at the front of a command line; the first word that is none ends them. -/
def parse (o : Options) : List Text → Except OptionError Options
  | [] => .ok o
  | word :: rest =>
    match optionOf word with
    | none => .ok o
    | some (name, given) =>
      if name.isEmpty || name.startsWith "-" then .error (.badSyntax word)
      else match given with
        | some value => do parse (← o.assign name value) rest
        | none =>
          if name = "v" then parse { o with verbose := true } rest
          else match rest with
            | value :: rest => do parse (← o.assign name value) rest
            | [] => .error (if names.contains name then .needsValue name else .undefined name)

end Options

end AlgolMips.Suite
