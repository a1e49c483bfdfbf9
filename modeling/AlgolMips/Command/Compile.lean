import AlgolMips.Command.Script
import AlgolMips.Options.Page
import AlgolMips.Report
import AlgolMips.Settings.Flags
import AlgolMips.Token.Scan
import AlgolMips.Translation

/-!
# The compiler command

The command reads one source file, compiles it and writes the assembly. Directives in the environment come first and
those on the command line after them. On request it also prints the tokens, the symbol table and the derivation, and
writes a listing. Faults of a program are reported and the status tells of them; a file that cannot be read or written ends
the command at once.
-/

namespace AlgolMips.Command

open Options

def about : About where
  name := "awc"
  synopsis := "[options] <input.alw>"
  description := "A single-pass compiler for a small Algol-W subset. Emits MIPS assembly for the SPIM and MARS simulators."
  authors := ["xplshn"]
  repository := "<https://github.com/xplshn/awc>"

/-- The flags besides those of the settings. -/
def ownFlags : List Flag :=
  [.ofText "output" "o" ({} : Settings).output "Place the assembly into <file>." "file",
    .ofText "listing" "l" "" "Write a numbered source listing to <file>." "file",
    .ofSwitch "tokens" "t" false "Print the token stream.",
    .ofSwitch "dump-symbols" "s" false "Print the symbol table after translation.",
    .ofSwitch "derivation" "d" false "Print the leftmost derivation."]

/-- All flags of the command. -/
def flagSet (s : Settings) : FlagSet := (s.withFlags (({} : FlagSet).addAll ownFlags).1).1

/-- Where messages stand that belong to no place in the source. -/
def nowhere : Token := { file := -1 }

/-- Ends the command with a message. -/
def fatal (message : Text) : Script := .stderr (Report.Style.error {} nowhere message) (.exit 1)

/-- A compiled source, with all that was found on the way. -/
structure Compilation where
  path : Text
  settings : Settings
  flags : FlagSet
  source : List Char

namespace Compilation

def scanned (c : Compilation) : Scanned := scan (c.settings.feature .comments) 0 c.source

def translation (c : Compilation) : Translator := translate c.settings ⟨c.scanned.tokens, 0, 0, 0⟩

def style (c : Compilation) : Report.Style := { files := [⟨c.path, c.source⟩] }

/-- Everything that is reported about the source: what could not be scanned, remarks, and diagnostics. -/
def messages (c : Compilation) : Text :=
  Text.concat (c.scanned.faults.map fun (tok, f) => c.style.warning c.settings .unknownChar tok f.message) ++
    Text.concat (c.translation.work.remarks.toList.map fun (tok, r) => c.style.warning c.settings r.warning tok (r.message tok)) ++
    Text.concat (c.translation.work.diagnostics.toList.map fun d =>
      c.style.error d.token (d.fault.message ++ " [" ++ d.fault.kind.name ++ "]"))

def tokenDump (c : Compilation) : Text :=
  Text.unlines ("Tokens:" :: c.scanned.tokens.map fun tok =>
    "  " ++ Text.ofInt tok.line ++ ":" ++ Text.ofInt tok.column ++ "\t" ++ tok.describe)

def derivationDump (c : Compilation) : Text :=
  let trace := c.translation.trace
  Text.unlines ["Leftmost Derivation:", c.translation.derivationText] ++ Text.onlyIf (!trace.isEmpty) (trace ++ "\n")

/-- What is printed before any file is written. -/
def dumps (c : Compilation) : Text :=
  "Scanning " ++ c.path ++ "...\n" ++ Text.onlyIf (c.flags.isOn "tokens") c.tokenDump ++ "Translating...\n" ++
    Text.onlyIf (c.flags.isOn "dump-symbols") ("Symbol Table:\n" ++ c.translation.work.table.dump) ++
    Text.onlyIf (c.flags.isOn "derivation") c.derivationDump

/-- The source with numbered lines, then the errors and the derivation. -/
def listing (c : Compilation) : Text :=
  Text.unlines ((foldedLines c.source).mapIdx fun i line => Text.ofNat (i + 1) ++ " " ++ line) ++ "\n" ++
    Text.unlines (c.scanned.faults.map fun (tok, f) => "lexical error: " ++ f.describe tok) ++
    c.translation.errors ++ "\n" ++ c.translation.derivationText ++ "\n"

/-- The end of the command, by whether the program was accepted. -/
def finish (c : Compilation) : Script :=
  if c.translation.work.ok then .stdout "SUCCESS\n" (.exit 0) else .stdout "FAIL\n" (.exit 1)

/-- Writes the assembly where it is to be written. -/
def writeAssembly (c : Compilation) : Script :=
  let path := c.flags.textOf "output"
  if c.translation.shouldFlush c.settings then
    .stdout ("Writing '" ++ path ++ "'...\n") <| .write path c.translation.output.text fun
      | none => c.finish
      | some f =>
        if f.action = .writing then
          fatal ("could not write '" ++ path ++ "': " ++ (Mips.FlushError.write f.message).message)
        else fatal ("could not create '" ++ path ++ "': " ++ f.message)
  else c.finish

/-- Writes the listing where one is asked for, then the assembly. -/
def writeFiles (c : Compilation) : Script :=
  let path := c.flags.textOf "listing"
  if path.isEmpty then c.writeAssembly
  else .write path c.listing fun
    | none => c.writeAssembly
    | some f =>
      fatal ("could not " ++ (if f.action = .writing then ("write" : Text) else "create") ++ " listing '" ++ path ++ "': " ++
        f.message)

def script (c : Compilation) : Script := .stderr c.messages (.stdout c.dumps c.writeFiles)

end Compilation

/-- The warning about a source whose name ends in another way than sources do. -/
def extensionWarning (s : Settings) (path : Text) : Text :=
  if Path.extension path = ".alw" then ""
  else Report.Style.warning {} s .extra nowhere ("input '" ++ path ++ "' does not have the .alw extension")

/-- Compiles the files on a command line, which have to be exactly one. -/
def compileFiles (s : Settings) (flags : FlagSet) : List Text → Script
  | [path] =>
    .stderr (extensionWarning s path) <| .read path fun
      | .ok content => Compilation.script ⟨path, s, flags, content.chars⟩
      | .error f => fatal ("could not read file '" ++ path ++ "': " ++ f.message)
  | paths => fatal ("expected exactly one input file, got " ++ Text.ofNat paths.length)

/-- The compiler with the directives of the environment and the words of the command line. The year stands on the help
page, and pages are as wide as the terminal is. -/
def compile (year : Text) (terminal : Option UInt16) (environment : Text) (words : List Text) : Script :=
  match ({} : Settings).applyText environment with
  | (_, some e) => fatal ("AWCFLAGS: " ++ e.message)
  | (s, none) =>
    match start about (flagSet s) year terminal words with
    | (_, .error clash) => fatal clash.message
    | (_, .ok (.mistake e page)) => .stderr (e.message ++ "\n" ++ page) (.exit 1)
    | (_, .ok (.help page)) => .stdout page (.exit 0)
    | (flags, .ok (.act paths)) =>
      match s.applyFlags flags with
      | (_, some e) => fatal e.message
      | (s, none) => compileFiles s flags paths

end AlgolMips.Command
