import HighAsm.CommandLine
import HighAsm.Settings.Flags

/-!
# Settings as groups of switches

Every warning and every feature has a flag that enables it and one that disables it. When a command
line has both, the one that disables wins.
-/

namespace HighAsm.Settings

open CommandLine

def warningGroup (s : Settings) : FlagGroup :=
  { name := "Warning Flags"
    description := "Enable or disable specific warnings"
    kind := "warning"
    heading := "Available Warnings:"
    entries := Warning.all.map fun w =>
      { name := w.name, mark := "W", usage := w.description, initially := s.warnings w } }

def featureGroup (s : Settings) : FlagGroup :=
  { name := "Feature Flags"
    description := "Enable or disable specific features"
    kind := "feature"
    heading := "Available Features:"
    entries := Feature.all.map fun f =>
      { name := f.name, mark := "F", usage := f.description, initially := s.features f } }

def defineGroups (s : Settings) : FlagSet.Definition Unit := do
  FlagSet.defineGroup s.warningGroup
  FlagSet.defineGroup s.featureGroup

/-- The settings after a command line: every flag that is on switches something. -/
def applyGroups (s : Settings) (flags : FlagSet) : Settings :=
  let given (mark name : String) : List Bool :=
    (if flags.isOn (Text.join [mark, name]) then [true] else []) ++
      if flags.isOn (Text.join [mark, "no-", name]) then [false] else []
  let s := Warning.all.foldl (fun s w => (given "W" w.name).foldl (·.setWarning w) s) s
  Feature.all.foldl (fun s f => (given "F" f.name).foldl (·.setFeature f) s) s

end HighAsm.Settings
