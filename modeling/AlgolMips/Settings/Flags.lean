import AlgolMips.Options.FlagSet
import AlgolMips.Settings

/-!
# Settings on the command line

Every feature and warning has a pair of switches on the command line, and two more stand for all warnings. A switch that
the command line sets is a directive, unless it was given the value false.
-/

namespace AlgolMips.Settings

open Options

def warningGroup (s : Settings) : FlagGroup where
  name := "Warning Flags"
  description := "Enable or disable specific warnings"
  type := "warning"
  header := "Available Warnings:"
  entries := Warning.all.map fun w => ⟨w.name, "W", w.description, some (s.warning w), some false⟩

def featureGroup (s : Settings) : FlagGroup where
  name := "Feature Flags"
  description := "Enable or disable translation features"
  type := "feature"
  header := "Available Features:"
  entries := Feature.all.map fun f => ⟨f.name, "F", f.description, some (s.feature f), some false⟩

/-- The switches for all warnings. -/
def generalFlags : List Flag :=
  [.ofSwitch "Wall" "" false "Enable all warnings.", .ofSwitch "Wno-all" "" false "Disable all warnings."]

/-- A set of flags with the switches of the settings added, up to the first one that clashes. -/
def withFlags (s : Settings) (fs : FlagSet) : FlagSet × Option FlagClash :=
  match fs.addAll generalFlags with
  | (fs, some clash) => (fs, some clash)
  | (fs, none) =>
    match fs.addGroup s.warningGroup with
    | (fs, some clash) => (fs, some clash)
    | (fs, none) => fs.addGroup s.featureGroup

/-- The settings after a command line was read, and what was wrong with a switch on it. -/
def applyFlags (s : Settings) (fs : FlagSet) : Settings × Option DirectiveError := s.applyNames fs.switchedOn

end AlgolMips.Settings
