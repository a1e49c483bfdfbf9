import AlgolMips.Text.Quoted

/-!
# Command-line flags

A flag has a long name, perhaps a one-letter shorthand, and a value that is a switch or a text. A set of flags reads a
command line from left to right:

* `--name`, `--name=value`, and the same with one dash where the long name is known;
* `-x`, `-xVALUE` and `-x VALUE` for a shorthand, of which only the first byte counts;
* `--` ends the flags, and everything else is an argument.

Reading stops at the first mistake; the flags before it keep their new values.
-/

namespace AlgolMips.Options

/-- The value of a flag. -/
inductive FlagValue where
  | switch (on : Bool)
  | text (t : Text)
deriving DecidableEq

namespace FlagValue

def ofBool (b : Bool) : Text := if b then "true" else "false"

def render : FlagValue → Text
  | switch on => ofBool on
  | text t => t

def isSwitch : FlagValue → Bool
  | switch _ => true
  | text _ => false

end FlagValue

/-- A flag with its present value and the text of its first one. `type` names what a text stands for. -/
structure Flag where
  name : Text
  short : Text := ""
  usage : Text := ""
  value : FlagValue
  initial : Text
  type : Text := ""
deriving DecidableEq

namespace Flag

def ofText (name short value usage type : Text) : Flag := ⟨name, short, usage, .text value, value, type⟩

def ofSwitch (name short : Text) (on : Bool) (usage : Text) : Flag :=
  ⟨name, short, usage, .switch on, FlagValue.ofBool on, ""⟩

end Flag

/-- A pair of switches in a group: `<lead><name>` and `<lead>no-<name>`, each present if it has a first value. -/
structure GroupEntry where
  name : Text
  lead : Text
  usage : Text := ""
  enabled : Option Bool := none
  disabled : Option Bool := none
deriving DecidableEq

namespace GroupEntry

def onName (e : GroupEntry) : Text := e.lead ++ e.name

def offName (e : GroupEntry) : Text := e.lead ++ "no-" ++ e.name

/-- The switches of an entry. -/
def flags (e : GroupEntry) : List Flag :=
  (e.enabled.map fun on => Flag.ofSwitch e.onName "" on e.usage).toList ++
    (e.disabled.map fun on => Flag.ofSwitch e.offName "" on ("Disable '" ++ e.name ++ "'")).toList

end GroupEntry

/-- Switches that are listed together. -/
structure FlagGroup where
  name : Text
  description : Text := ""
  type : Text := ""
  header : Text := ""
  entries : List GroupEntry := []
deriving DecidableEq

/-- Flags in the order in which they were added, the shorthands that name them, groups, and what the last command line
held: its arguments and the names of the flags that it set. -/
structure FlagSet where
  flags : List Flag := []
  shorthands : List (Text × Text) := []
  groups : List FlagGroup := []
  args : List Text := []
  visited : List Text := []

/-- Why a flag cannot be added. -/
inductive FlagClash where
  | emptyName
  | redefined (name : Text)
  | shorthandRedefined (short : Text)
deriving DecidableEq

def FlagClash.message : FlagClash → Text
  | emptyName => "flag name cannot be empty"
  | redefined name => "flag redefined: " ++ name
  | shorthandRedefined short => "shorthand flag redefined: " ++ short

/-- A mistake on a command line. -/
inductive FlagError where
  | emptyName
  | unknownFlag (spelling : Text)
  | unknownShorthand (short : Text)
  | needsArgument (spelling : Text)
  | notBoolean (value : Text)
deriving DecidableEq

def FlagError.message : FlagError → Text
  | emptyName => "empty flag name"
  | unknownFlag spelling => "unknown flag: " ++ spelling
  | unknownShorthand short => "unknown shorthand flag: -" ++ short
  | needsArgument spelling => "flag needs an argument: " ++ spelling
  | notBoolean value =>
    "invalid boolean value '" ++ value ++ "': strconv.ParseBool: parsing " ++ value.quote ++ ": invalid syntax"

/-- The truth value that a text spells. -/
def parseBool? (t : Text) : Option Bool :=
  if ["1", "t", "T", "TRUE", "true", "True"].any fun s => t = Text.ofString s then some true
  else if ["0", "f", "F", "FALSE", "false", "False"].any fun s => t = Text.ofString s then some false
  else none

namespace FlagSet

/-- The flag with a long name. -/
def lookup (s : FlagSet) (name : Text) : Option Flag := s.flags.find? fun f => f.name = name

/-- The flag with a shorthand. -/
def lookupShort (s : FlagSet) (short : Text) : Option Flag := s.shorthands.lookup short >>= s.lookup

/-- Adds a flag. A flag whose shorthand is taken is added all the same, without the shorthand. -/
def add (s : FlagSet) (f : Flag) : FlagSet × Option FlagClash :=
  if f.name.isEmpty then (s, some .emptyName)
  else if (s.lookup f.name).isSome then (s, some (.redefined f.name))
  else
    let s := { s with flags := s.flags ++ [f] }
    if f.short.isEmpty then (s, none)
    else if (s.shorthands.lookup f.short).isSome then (s, some (.shorthandRedefined f.short))
    else ({ s with shorthands := s.shorthands ++ [(f.short, f.name)] }, none)

/-- Adds flags up to the first one that clashes. -/
def addAll (s : FlagSet) : List Flag → FlagSet × Option FlagClash
  | [] => (s, none)
  | f :: rest =>
    match s.add f with
    | (s, none) => addAll s rest
    | (s, some clash) => (s, some clash)

/-- Adds a group and its switches; the group is listed only if none of the switches clashes. -/
def addGroup (s : FlagSet) (g : FlagGroup) : FlagSet × Option FlagClash :=
  match s.addAll (g.entries.flatMap GroupEntry.flags) with
  | (s, none) => ({ s with groups := s.groups ++ [g] }, none)
  | (s, some clash) => (s, some clash)

/-- The value of a flag after a text was given for it. A switch is on without a text. -/
def assigned (v : FlagValue) (t : Text) : Except FlagError FlagValue :=
  match v with
  | .text _ => .ok (.text t)
  | .switch _ =>
    if t.isEmpty then .ok (.switch true)
    else match parseBool? t with
      | some on => .ok (.switch on)
      | none => .error (.notBoolean t)

/-- Gives a flag a value and notes that it was set. -/
def assign (s : FlagSet) (f : Flag) (t : Text) : Except FlagError FlagSet :=
  match assigned f.value t with
  | .error e => .error e
  | .ok v =>
    .ok { s with
      flags := s.flags.map fun g => if g.name = f.name then { g with value := v } else g
      visited := s.visited ++ [f.name] }

/-- What one word of a command line is. -/
inductive Reading where
  | argument
  | terminator
  | value (f : Flag) (t : Text)
  | needsValue (f : Flag) (spelling : Text)
  | mistake (e : FlagError)

/-- A word that names a flag in full, behind its dashes. -/
def readNamed (s : FlagSet) (dashes body : Text) : Reading :=
  match body.cut 0x3D with
  | (name, given) =>
    if name.isEmpty then .mistake .emptyName
    else match s.lookup name with
      | none => .mistake (.unknownFlag (dashes ++ name))
      | some f =>
        match given with
        | some t => .value f t
        | none => if f.value.isSwitch then .value f "" else .needsValue f (dashes ++ name)

/-- A word that names a flag by its shorthand `short`, with `rest` behind it. What follows a switch has no meaning. -/
def readShort (s : FlagSet) (short rest : Text) : Reading :=
  match s.lookupShort short with
  | none => .mistake (.unknownShorthand short)
  | some f =>
    if f.value.isSwitch then .value f ""
    else if rest.isEmpty then .needsValue f ("-" ++ short)
    else .value f rest

/-- A word of a command line. -/
def read (s : FlagSet) (word : Text) : Reading :=
  match word.bytes with
  | 0x2D :: b :: rest =>
    if b = 0x2D then if rest.isEmpty then .terminator else s.readNamed "--" ⟨rest⟩
    else if (s.lookup (Text.cut 0x3D ⟨b :: rest⟩).1).isSome then s.readNamed "-" ⟨b :: rest⟩
    else s.readShort ⟨[b]⟩ ⟨rest⟩
  | _ => .argument

/-- Reads the words that are left. -/
def parseRest (s : FlagSet) : List Text → FlagSet × Option FlagError
  | [] => (s, none)
  | word :: rest =>
    match s.read word with
    | .argument => parseRest { s with args := s.args ++ [word] } rest
    | .terminator => ({ s with args := s.args ++ rest }, none)
    | .mistake e => (s, some e)
    | .value f t =>
      match s.assign f t with
      | .ok s => parseRest s rest
      | .error e => (s, some e)
    | .needsValue f spelling =>
      match rest with
      | [] => (s, some (.needsArgument spelling))
      | t :: rest =>
        match s.assign f t with
        | .ok s => parseRest s rest
        | .error e => (s, some e)

/-- Reads a command line. -/
def parse (s : FlagSet) (words : List Text) : FlagSet × Option FlagError :=
  { s with args := [], visited := [] }.parseRest words

/-- Whether a switch is on. -/
def isOn (s : FlagSet) (name : Text) : Bool := ((s.lookup name).map Flag.value) = some (.switch true)

/-- The text of a flag. -/
def textOf (s : FlagSet) (name : Text) : Text := ((s.lookup name).map fun f => f.value.render).getD ""

/-- The names of the flags that the last command line set and that hold the value `true`. -/
def switchedOn (s : FlagSet) : List Text := s.visited.filter fun name => s.textOf name = "true"

/-- Whether a flag belongs to a group. -/
def isGrouped (s : FlagSet) (name : Text) : Bool :=
  s.groups.any fun g => g.entries.any fun e => name = e.onName || name = e.offName

/-- The flags that belong to no group, by name. -/
def ungrouped (s : FlagSet) : List Flag :=
  (s.flags.filter fun f => !s.isGrouped f.name).mergeSort fun f g => f.name.le g.name

end FlagSet

end AlgolMips.Options
