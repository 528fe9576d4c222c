import HighAsm.Assembly
import HighAsm.Backend
import HighAsm.CommandLine.Page
import HighAsm.Interface
import HighAsm.Machine
import HighAsm.Settings.File
import HighAsm.Settings.Groups
import HighAsm.Workspace

/-!
# The assembler as a command

Assembles modules in order, and then runs procedures, prints the output, or writes it to a file.
Settings come from a file first, so that the command line can override them.
-/

namespace HighAsm.Command

open CommandLine

def assembler : Tool :=
  { name := "nhla"
    synopsis := "[options] <module.nhla> ..."
    description := Text.join ["A single-pass high level assembler. Modules are compiled in order; ",
      "each one can call the procedures of the modules before it."]
    authors := ["xplshn"]
    repository := "<https://github.com/xplshn/nhla>"
    since := 2025 }

def assemblerFlags : FlagSet.Definition Unit := do
  FlagSet.define
    { name := "output", shorthand := "o", value := .text [], expects := "file"
      usage := "Place the output into <file> ('-' for stdout)." }
  FlagSet.define
    { name := "target", shorthand := "t", value := .text "listing", expects := "backend/target"
      usage := "Set the backend and target ABI." }
  FlagSet.define
    { name := "config", shorthand := "c", value := .text [], expects := "file"
      usage := "Read settings from a TOML file." }
  FlagSet.define
    { name := "interface", value := .text [], expects := "file"
      usage := "Write the module interface as YAML." }
  FlagSet.define
    { name := "run", shorthand := "r", value := .list [], expects := "call"
      usage := "Run a procedure on the reference machine, e.g. -r 'demo(3,4)'." }
  FlagSet.define
    { name := "max-steps", value := .number 1000000, expects := "n"
      usage := "Step limit for --run." }
  FlagSet.define
    { name := "dump-ir", shorthand := "d", value := .switch false
      usage := "Dump the backend's textual form and exit." }
  FlagSet.define { name := "Wall", value := .switch false, usage := "Enable all warnings." }
  ({} : Settings).defineGroups

/-! ## Source files -/

def longLine : Nat := 65536

/-- The lines of a source file, without carriage returns at their ends; nothing when one of them is
too long. -/
def sourceLines? (t : Text) : Option (List Text) :=
  let pieces := Text.splitAt Text.newline t
  let lines := if pieces.getLast? = some [] then pieces.dropLast else pieces
  if lines.any fun l => longLine ≤ l.length then none
  else some (lines.map (Text.trimEnd (· = 13)))

/-! ## Calls -/

structure Call where
  name : Text
  args : List Int

/-- Reads a call `name(1, 2)`. The error is what is said of a text that is no call. -/
def Call.parse (t : Text) : Except Text Call := do
  let bad : Text := Text.join ["bad call '", t, "', expected name(args)"]
  match Text.cut? "(" t with
  | none => throw bad
  | some (name, rest) =>
    if !(Text.ofString ")").isSuffixOf rest then throw bad
    let args ← (Text.numerals (Text.dropEnd ")" rest)).mapError fun field =>
      Text.join ["bad argument '", field, "' in '", t, "'"]
    return ⟨name.trim.lower, args⟩

/-! ## The command -/

variable {m : Type → Type} [Monad m] [Workspace m]

/-- A command that may end early, with an exit status. -/
abbrev Exiting (m : Type → Type) := ExceptT UInt32 m

def say (parts : List Text) : Exiting m Unit := ExceptT.lift (Workspace.complain (Text.join parts))

def stop {α : Type} (message : Text) : Exiting m α := do
  say ["nhla: error: ", message, "\n"]
  throw 1

def abort {α : Type} (c : Crash) : Exiting m α := do
  say ["panic: ", c.message?.getD [], "\n"]
  throw 2

/-- Reads a settings file, and returns the settings with the target that the file names. -/
def loadSettings (path : Text) (s : Settings) : Exiting m (Text × Settings) := do
  let unreadable (cause : Text) : Text :=
    Text.join ["could not read config '", path, "': ", cause]
  match ← ExceptT.lift (Workspace.read path) with
  | .error e => stop (unreadable e.message)
  | .ok t =>
    match (Settings.load t).run s with
    | .ok target s => return (target, s)
    | .error (.toml e) _ => stop (unreadable e.message)
    | .error (.unknownKey key) _ =>
      stop (Text.join ["config '", path, "': ", (SettingsError.unknownKey key).message])
    | .error e _ => stop e.message

def chooseSettings (host : Host) (flags : FlagSet) : Exiting m Settings := do
  let target := flags.textOf "target"
  let config := flags.textOf "config"
  let (named, s) ← if config.isEmpty then pure ([], {}) else loadSettings config {}
  let target := if !named.isEmpty && target == Text.ofString "listing" then named else target
  let s := if flags.isOn "Wall" then s.applyFlags ["Wall"] else s
  let (s, notice) := (s.applyGroups flags).setTarget host target
  say [notice]
  return s

def readModule (path : Text) : Exiting m SourceFile := do
  let unreadable (cause : Text) : Text := Text.join ["could not read file '", path, "': ", cause]
  match ← ExceptT.lift (Workspace.read path) with
  | .error e => stop (unreadable e.message)
  | .ok t =>
    match sourceLines? t with
    | none => stop (unreadable "bufio.Scanner: token too long")
    | some lines => return ⟨path, lines⟩

/-- Assembles modules in order, and returns the number of warnings with what was assembled. -/
def assembleFiles (s : Settings) (a : Assembly) (warnings : Nat) :
    List Text → Exiting m (Nat × Assembly)
  | [] => return (warnings, a)
  | path :: rest => do
    let file ← readModule path
    say ["Assembling '", path, "' (", Text.ofNat file.lines.length, " lines)...\n"]
    let issue (after : Assembly) : WarningLog :=
      ({ file? := some file } : WarningLog).addAll s (after.cautions.drop a.cautions.length)
    match Assembly.assembleModule s file.lines a with
    | .ok _ after =>
      say [(issue after).printed]
      assembleFiles s after (warnings + (issue after).count) rest
    | .error (.fault line fault) after =>
      say [(issue after).printed, SourceFile.report (some file) (.diagnostic (fault.on line))]
      throw 1
    | .error (.crash c) _ => abort c

def runCalls (p : Program) (machine : Machine) : List Text → Exiting m Unit
  | [] => return
  | t :: rest => do
    match Call.parse t with
    | .error message => stop message
    | .ok call =>
      match machine.call p call.name call.args with
      | (.ok n, machine) =>
        ExceptT.lift (Workspace.print (Text.join [t, " = ", Text.ofInt n, "\n"]))
        runCalls p machine rest
      | (.error (.crash c), _) => abort c
      | (.error why, _) => stop (Text.join [t, ": ", why.message])

def renderProgram (backend : Backend) (p : Program) : Exiting m Text := do
  match backend.render p with
  | .ok t => return t
  | .error (.crash c) => abort c
  | .error e => stop ("backend failed: " ++ e.message)

def writeInterface (path lastFile : Text) (a : Assembly) : Exiting m Unit := do
  let name := Text.dropEnd (Path.extension lastFile) (Path.base lastFile)
  match ← ExceptT.lift (Workspace.write path (Interface.render name a.table)) with
  | .error e => stop ("could not write interface: " ++ e.message)
  | .ok _ => say ["Wrote module interface to '", path, "'\n"]

def defaultOutput (input : Text) : Backend → Text
  | .il => Path.stem input ++ ".s"
  | .listing => Path.stem input ++ ".lst"

def writeOutput (path : Text) (t : Text) : Exiting m Unit := do
  if path = Text.ofString "-" then ExceptT.lift (Workspace.print t)
  else
    match ← ExceptT.lift (Workspace.write path t) with
    | .error e => stop e.message
    | .ok _ => say ["Wrote '", path, "'\n"]
  say ["----------------------\nDone!\n"]

def assembleWith (host : Host) (flags : FlagSet) (files : List Text) : Exiting m Unit := do
  match files, files.getLast? with
  | first :: _, some last =>
    let s ← chooseSettings host flags
    let some backend := Backend.ofName? s.backend | stop (Backend.unsupported s.backend)
    say ["----------------------\n"]
    let (warnings, a) ← assembleFiles s (Assembly.start s) 0 files
    let p := a.builder.program
    say ["nhla: info: ", Text.ofNat p.code.size, " instructions, ", Text.ofNat p.data.size,
      " bytes of data, ", Text.ofNat warnings, " warning(s)\n"]
    let interface := flags.textOf "interface"
    if !interface.isEmpty then writeInterface interface last a
    let calls := flags.itemsOf "run"
    if !calls.isEmpty then
      match Machine.load p with
      | .error c => abort c
      | .ok machine => runCalls p { machine with maxSteps := flags.numberOf "max-steps" } calls
    else if flags.isOn "dump-ir" then
      say ["Dumping output of '", s.backend, "' backend...\n"]
      let t ← renderProgram backend p
      ExceptT.lift (Workspace.print t)
    else
      say ["Generating code with '", s.backend, "' backend...\n"]
      let t ← renderProgram backend p
      let output := flags.textOf "output"
      writeOutput (if output.isEmpty then defaultOutput first backend else output) t
  | _, _ => stop "no input files specified"

def assemble (host : Host) (width : Int) (args : List Text) : m UInt32 := do
  let requested := (do assemblerFlags; FlagSet.receive args).run {}
  match requested with
  | .error c _ =>
    Workspace.complain (Text.join ["panic: ", c.message?.getD [], "\n"])
    return 2
  | .ok (.reject e) flags =>
    Workspace.complain (Text.join [e.message, "\n", assembler.usage flags width])
    return 1
  | .ok .help flags =>
    Workspace.print (assembler.help flags width)
    return 0
  | .ok (.act files) flags =>
    match ← (assembleWith host flags files).run with
    | .ok _ => return 0
    | .error status => return status

end HighAsm.Command
