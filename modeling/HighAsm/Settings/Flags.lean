import HighAsm.Settings

/-!
# Switches on the command line

`W<name>` and `F<name>` switch a warning or a feature on, `Wno-<name>` and `Fno-<name>` switch it
off. `Wall` and `Wno-all` set every warning but `pedantic`; they are applied before the others, so
that a flag with a name overrides them wherever it stands.

The target of the output is a form of output, optionally followed by a slash and a machine.
-/

namespace HighAsm

inductive Switch
  | allWarnings (on : Bool)
  | warning (w : Warning) (on : Bool)
  | feature (f : Feature) (on : Bool)
  | nothing
  deriving DecidableEq, Repr

namespace Switch

/-- The switch of a warning's name, where `all` stands for all of them. -/
def ofWarning (name : Text) (on : Bool) : Switch :=
  if name = Text.ofString "all" then allWarnings on
  else ((Warning.ofName? name).map (warning · on)).getD nothing

def ofFeature (name : Text) (on : Bool) : Switch :=
  ((Feature.ofName? name).map (feature · on)).getD nothing

/-- The switch of a flag. A flag that starts with neither letter names a warning. -/
def ofFlag (flag : Text) : Switch :=
  match flag with
  | 87 :: name =>
    if (Text.ofString "no-").isPrefixOf name then ofWarning (name.drop 3) false
    else ofWarning name true
  | 70 :: name =>
    if (Text.ofString "no-").isPrefixOf name then ofFeature (name.drop 3) false
    else ofFeature name true
  | _ => ofWarning flag true

end Switch

namespace Settings

def apply (s : Settings) : Switch → Settings
  | .allWarnings on =>
    (Warning.all.filter (· ≠ .pedantic)).foldl (fun s w => s.setWarning w on) s
  | .warning w on => s.setWarning w on
  | .feature f on => s.setFeature f on
  | .nothing => s

def goesFirst (flag : Text) : Bool :=
  flag == Text.ofString "Wall" || flag == Text.ofString "Wno-all"

def applyFlags (s : Settings) (flags : List Text) : Settings :=
  (flags.filter goesFirst ++ flags.filter fun f => !goesFirst f).foldl
    (fun s flag => s.apply (.ofFlag flag)) s

end Settings

structure Host where
  system : Text
  processor : Text

def Host.nativeTarget (host : Host) : Text :=
  if host.system = Text.ofString "darwin" ∧ host.processor = Text.ofString "amd64" then
    "amd64_apple"
  else if host.system = Text.ofString "darwin" ∧ host.processor = Text.ofString "arm64" then
    "arm64_apple"
  else if host.processor = Text.ofString "arm64" ∧
      (host.system = Text.ofString "freebsd" ∨ host.system = Text.ofString "linux") then
    "arm64"
  else if host.system = Text.ofString "linux" ∧ host.processor = Text.ofString "riscv64" then
    "rv64"
  else "amd64_sysv"

/-- Sets the form of the output and the machine it is for, and returns what the user is told. -/
def Settings.setTarget (s : Settings) (host : Host) (target : Text) : Settings × Text :=
  let (form, machine) := (Text.cut? "/" target).getD (target, [])
  let form : Text := if form.isEmpty then "listing" else form
  if form ≠ Text.ofString "qbe" then ({ s with backend := form, target := machine }, [])
  else if machine.isEmpty then
    ({ s with backend := form, target := host.nativeTarget },
      Text.join ["nhla: info: no target specified, defaulting to host target '",
        host.nativeTarget, "'\n"])
  else
    ({ s with backend := form, target := machine },
      Text.join ["nhla: info: using specified target '", machine, "'\n"])

end HighAsm
