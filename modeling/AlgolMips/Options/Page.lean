import AlgolMips.Options.FlagSet
import AlgolMips.Options.Layout

/-!
# Usage and help pages

A program describes itself by a short usage page, shown after a mistake on the command line, and by a full help page.
-/

namespace AlgolMips.Options

/-- What the pages of a program say about it. -/
structure About where
  name : Text
  synopsis : Text := ""
  description : Text := ""
  authors : List Text := []
  repository : Text := ""

namespace About

/-- The synopsis with angle brackets in place of square ones. -/
def synopsisLine (a : About) : Text :=
  if a.synopsis.isEmpty then "<options>"
  else ⟨a.synopsis.bytes.map fun b => if b = 0x5B then 0x3C else if b = 0x5D then 0x3E else b⟩

end About

namespace Flag

/-- How a flag is written on a page. -/
def spelling (f : Flag) : Text :=
  if f.short.isEmpty then
    "--" ++ f.name ++ Text.onlyIf (!f.value.isSwitch && !f.type.isEmpty) ("=" ++ f.type)
  else "-" ++ f.short ++ placeholder ++ ", --" ++ f.name ++ placeholder
where
  placeholder : Text := Text.onlyIf (!f.value.isSwitch) (" <" ++ f.type ++ ">")

/-- The first value of a text flag, between bars. -/
def mark (f : Flag) : Text :=
  Text.onlyIf (!f.initial.isEmpty && !f.value.isSwitch) ("|" ++ f.initial ++ "|")

def entry (f : Flag) (c : Columns) : Text := Options.entry c f.spelling f.usage f.mark

end Flag

namespace FlagGroup

/-- What the members of a group are called. -/
def typeName (g : FlagGroup) : Text := if g.type.isEmpty then "flag" else g.type

/-- The lead of the first entry, which stands for the whole group. -/
def lead (g : FlagGroup) : Text := (g.entries.head?.map GroupEntry.lead).getD ""

def onSpelling (g : FlagGroup) : Text := "-" ++ g.lead ++ "<" ++ g.typeName ++ ">"

def offSpelling (g : FlagGroup) : Text := "-" ++ g.lead ++ "no-<" ++ g.typeName ++ ">"

/-- Whether an entry is on: switched on, and not switched off. -/
def isOn (s : FlagSet) (e : GroupEntry) : Bool :=
  (e.enabled.isSome && s.isOn e.onName) && !(e.disabled.isSome && s.isOn e.offName)

/-- The part of the help page about a group; a group without entries has none. -/
def page (s : FlagSet) (c : Columns) (g : FlagGroup) : Text :=
  if g.entries.isEmpty then ""
  else
    "\n" ++ Text.unlines [indent 1 ++ g.name,
      indent 2 ++ inColumn c.left g.onSpelling ++ " Enable a specific " ++ g.typeName,
      indent 2 ++ inColumn c.left g.offSpelling ++ " Disable a specific " ++ g.typeName] ++
    Text.onlyIf (!g.header.isEmpty) (indent 1 ++ g.header ++ "\n") ++
    Text.concat ((g.entries.mergeSort fun e f => e.name.le f.name).map fun e =>
      Options.entry c e.name e.usage (if isOn s e then "|x|" else "|-|"))

end FlagGroup

/-- The largest number of a list, or zero. -/
def largest (ns : List Nat) : Nat := ns.foldl max 0

/-- The part of a page about flags; without flags there is none. -/
def optionSection (c : Columns) (flags : List Flag) : Text :=
  if flags.isEmpty then ""
  else "\n" ++ indent 1 ++ "Options\n" ++ Text.concat (flags.map fun f => f.entry c)

/-- The short page that is shown after a mistake, on a terminal of some columns or on no terminal. -/
def usagePage (a : About) (s : FlagSet) (terminal : Option UInt16) : Text :=
  let flags := s.ungrouped
  let c : Columns :=
    { page := pageWidth terminal
      left := Int64.ofNat (largest (flags.map fun f => f.spelling.size))
      usage := largest (flags.map fun f => f.usage.size) }
  "Usage: " ++ a.name ++ " " ++ a.synopsisLine ++ "\n" ++ optionSection c flags ++
    "\nRun '" ++ a.name ++ " --help' for all available options and flags.\n"

/-- The widths of a group's left column and explanations. -/
def groupWidths (g : FlagGroup) : List Nat × List Nat :=
  if g.entries.isEmpty then ([], [])
  else (g.offSpelling.size :: g.entries.map fun e => e.name.size, g.entries.map fun e => e.usage.size)

/-- The full page, with the year of the copyright line. -/
def helpPage (a : About) (s : FlagSet) (year : Text) (terminal : Option UInt16) : Text :=
  let flags := s.ungrouped
  let widths := s.groups.map groupWidths
  let c : Columns :=
    { page := pageWidth terminal
      left := Int64.ofNat (largest (flags.map (fun f => f.spelling.size) ++ widths.flatMap Prod.fst))
      usage := largest (flags.map (fun f => f.usage.size) ++ widths.flatMap Prod.snd) }
  "\n" ++ indent 1 ++ "Copyright (c) " ++ year ++ ": " ++ Text.join ", " a.authors ++ " and contributors\n" ++
    Text.onlyIf (!a.repository.isEmpty) (indent 1 ++ "For more details refer to " ++ a.repository ++ "\n") ++
    Text.onlyIf (!a.synopsis.isEmpty)
      ("\n" ++ indent 1 ++ "Synopsis\n" ++ indent 2 ++ a.name ++ " " ++ a.synopsisLine ++ "\n") ++
    Text.onlyIf (!a.description.isEmpty)
      ("\n" ++ indent 1 ++ "Description\n" ++ indent 2 ++ a.description ++ "\n") ++
    optionSection c flags ++
    Text.concat ((s.groups.mergeSort fun g h => g.name.le h.name).map (FlagGroup.page s c))

/-- The switch that asks for the help page. -/
def helpFlag : Flag := .ofSwitch "help" "h" false "Display this information"

/-- What a program is to do after its command line was read. -/
inductive Request where
  | mistake (e : FlagError) (page : Text)
  | help (page : Text)
  | act (args : List Text)

/-- Reads the command line of a program. The switch for help is added first, which may clash. -/
def start (a : About) (s : FlagSet) (year : Text) (terminal : Option UInt16) (words : List Text) :
    FlagSet × Except FlagClash Request :=
  match s.add helpFlag with
  | (s, some clash) => (s, .error clash)
  | (s, none) =>
    match s.parse words with
    | (s, some e) => (s, .ok (.mistake e (usagePage a s terminal)))
    | (s, none) => (s, .ok (if s.isOn "help" then .help (helpPage a s year terminal) else .act s.args))

end AlgolMips.Options
