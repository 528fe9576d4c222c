import HighAsm.Assembly
import HighAsm.Backend
import HighAsm.Machine
import HighAsm.Settings.File
import HighAsm.TestCase
import HighAsm.Text.Quoted

/-!
# Running test cases

A case is assembled once, and its assertions are checked in order. Assertions that execute code
share one machine, so that what one line stores the next can see.
-/

namespace HighAsm

/-- The outcome of a case; it passed when there are no failures. -/
structure TestResult where
  name : Text
  failures : List Text
  deriving DecidableEq, Repr

namespace TestCase

structure Assembled where
  settings : Settings
  assembly : Assembly
  warnings : WarningLog
  error? : Option Diagnostic

def assemble (c : TestCase) (settings : Settings) : Except Crash Assembled :=
  let lines := Text.splitAt Text.newline (Text.trimEnd (· = Text.newline) c.input)
  let settle (a : Assembly) (error? : Option Diagnostic) : Assembled :=
    { settings, assembly := a, error?
      warnings := ({} : WarningLog).addAll settings a.cautions }
  match Assembly.assembleModule settings lines (Assembly.start settings) with
  | .ok _ a => .ok (settle a none)
  | .error (.fault line fault) a => .ok (settle a (some (fault.on line)))
  | .error (.crash c) _ => .error c

def failure (a : Assertion) (message : Text) : Text :=
  if 0 < a.line then
    Text.join ["line ", Text.ofInt a.line, ": ", a.kind.name, ": ", message]
  else message

/-- What is reported when lines are not what they should be: those wanted and those found. -/
def mismatch (want got : List Text) : Text :=
  let marked (mark : String) (line : Text) : Text := Text.join ["\n", mark, line]
  Text.join ["mismatch (-want +got):", want.flatMap (marked "- "), got.flatMap (marked "+ ")]

def compareLines (a : Assertion) (got : Text) : List Text :=
  let want := Text.lines a.content
  let got := Text.lines got
  if want = got then [] else [failure a (mismatch want got)]

def warningLines (log : WarningLog) : Text :=
  log.issued.flatMap fun (w, line) => Text.join [Text.ofInt line, ": ", w.name, "\n"]

/-! ## Executing -/

/-- What stands to the left of an arrow: a call or a variable. Its value is the accumulator after
the call, or the word of the variable. -/
def evaluate (p : Program) (table : SymbolTable) (m : Machine) (line subject : Text) :
    Except Crash (Except Text Int × Machine) :=
  let about (message : Text) : Text := Text.join [line.quoted, ": ", message]
  match Text.cut? "(" subject with
  | some (name, rest) =>
    match Text.numerals (Text.dropEnd ")" rest) with
    | .error field => .ok (.error (about (Text.join ["bad argument '", field, "'"])), m)
    | .ok args =>
      match m.call p name.trim args with
      | (.ok n, m) => .ok (.ok n, m)
      | (.error (.crash c), _) => .error c
      | (.error why, m) => .ok (.error (about why.message), m)
  | none =>
    match table.variableOf? subject with
    | some s => .ok (.ok (m.word p s.value), m)
    | none =>
      let missing := Text.join ["no variable '", subject, "' in the module interface"]
      .ok (.error (about missing), m)

/-- Executes one line `<call or variable> -> <value>` and returns what is wrong with it. -/
def executeLine (p : Program) (table : SymbolTable) (m : Machine) (line : Text) :
    Except Crash (Option Text × Machine) :=
  if line.isEmpty then .ok (none, m)
  else
    match Text.cut? "->" line with
    | none =>
      .ok (some (line.quoted ++ ": expected '<call or variable> -> <value>'"), m)
    | some (left, right) =>
      match Text.numeral right.trim with
      | .error _ => .ok (some (line.quoted ++ ": bad value"), m)
      | .ok want => do
        let subject := left.trim
        let (got, m) ← evaluate p table m line subject
        match got with
        | .error message => return (some message, m)
        | .ok n =>
          if n = want then return (none, m)
          else
            let message := Text.join [subject, " = ", Text.ofInt n, ", want ", Text.ofInt want]
            return (some message, m)

def executeLines (p : Program) (table : SymbolTable) (m : Machine) :
    List Text → Except Crash (List Text × Machine)
  | [] => .ok ([], m)
  | line :: rest => do
    let (wrong?, m) ← executeLine p table m line.trim
    let (wrong, m) ← executeLines p table m rest
    return (wrong?.toList ++ wrong, m)

/-! ## Checking -/

/-- Checks an assertion, and returns its failures and the machine after it. There is no machine
before the first assertion that executes code. -/
def check (r : Assembled) (m? : Option Machine) (a : Assertion) :
    Except Crash (List Text × Option Machine) := do
  let p := r.assembly.builder.program
  match a.kind, r.error? with
  | .compileError, none =>
    return ([failure a ("compiled without error, expected " ++ a.content.quoted)], m?)
  | .compileError, some d =>
    if Text.holds a.content d.text then return ([], m?)
    else
      let message :=
        Text.join ["got error ", d.text.quoted, ", expected ", a.content.quoted]
      return ([failure a message], m?)
  | _, some d => return ([failure a ("compile failed: " ++ d.text)], m?)
  | .listing, none =>
    match Backend.listing.render p with
    | .ok text => return (compareLines a text, m?)
    | .error (.crash c) => throw c
    | .error e => return ([failure a e.message], m?)
  | .interface, none => return (compareLines a r.assembly.table.render, m?)
  | .warnings, none => return (compareLines a (warningLines r.warnings), m?)
  | .execute, none =>
    let m ←
      match m? with
      | some m => pure m
      | none => Machine.load p
    let (wrong, m) ← executeLines p r.assembly.table m (Text.lines a.content)
    return (wrong.map (failure a), some m)
  | .other _, none => return ([], m?)

def checkAll (r : Assembled) (m? : Option Machine) : List Assertion → Except Crash (List Text)
  | [] => .ok []
  | a :: rest => do
    let (failures, m?) ← check r m? a
    return failures ++ (← checkAll r m? rest)

def settings (c : TestCase) : Except SettingsError Settings :=
  if c.config.isEmpty then .ok {}
  else
    match (Settings.load c.config).run {} with
    | .ok _ s => .ok s
    | .error e _ => .error e

def run (c : TestCase) : Except Crash TestResult := do
  match c.settings with
  | .error e => return ⟨c.name, ["bad configuration: " ++ e.message]⟩
  | .ok settings =>
    let r ← c.assemble settings
    return ⟨c.name, ← checkAll r none c.assertions⟩

def runDocument (t : Text) : Except Crash (Except TestDocumentError (List TestResult)) :=
  match ofDocument t with
  | .error e => .ok (.error e)
  | .ok cases => (cases.mapM run).map .ok

end TestCase

def TestResult.summary (results : List TestResult) : Text :=
  results.flatMap fun r =>
    if r.failures.isEmpty then Text.join ["[PASS] ", r.name, "\n"]
    else
      Text.join ["[FAIL] ", r.name, "\n", r.failures.flatMap fun f =>
        Text.join ["    ", Text.afterNewlines "    " f, "\n"]]

end HighAsm
