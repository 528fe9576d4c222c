import HighAsm.CommandLine

/-!
# Options of the test runner

Options come first on the command line, with one dash or two, and the first argument that is no
option ends them. An option that is not a switch takes what follows an equals sign, or the next
argument.
-/

namespace HighAsm.TestSuite

open CommandLine (Value)

structure Options where
  testFiles : Text := "pkg/golden/testdata/*.md"
  skipFiles : Text := []
  output : Text := ".nhtest_results.json"
  jobs : Int := 4
  verbose : Bool := false
  useCache : Bool := false
  deriving DecidableEq, Repr

namespace Options

inductive Key
  | cached | jobs | output | skipFiles | testFiles | verbose
  deriving DecidableEq, Repr

namespace Key

def all : List Key := [cached, jobs, output, skipFiles, testFiles, verbose]

def name : Key → String
  | cached => "cached"
  | jobs => "j"
  | output => "output"
  | skipFiles => "skip-files"
  | testFiles => "test-files"
  | verbose => "v"

def usage : Key → String
  | cached => "Reuse passing results of unchanged files."
  | jobs => "Number of parallel test jobs."
  | output => "Output file for the JSON test report."
  | skipFiles => "Files to skip (space-separated)."
  | testFiles => "Glob pattern(s) for files to test (space-separated)."
  | verbose => "List every test case, not only failures."

def value (o : Options) : Key → Value
  | cached => .switch o.useCache
  | jobs => .number o.jobs
  | output => .text o.output
  | skipFiles => .text o.skipFiles
  | testFiles => .text o.testFiles
  | verbose => .switch o.verbose

end Key

/-- Why a command line is rejected; a request for help is also an end. -/
inductive Refusal
  | help
  | badSyntax (arg : Text)
  | undefined (name : Text)
  | needsArgument (name : String)
  | badSwitch (t : Text) (name : String)
  | badNumber (t : Text) (name : String) (why : Text.NumeralError)
  deriving DecidableEq, Repr

def Refusal.message? : Refusal → Option Text
  | help => none
  | badSyntax arg => some ("bad flag syntax: " ++ arg)
  | undefined name => some ("flag provided but not defined: -" ++ name)
  | needsArgument name => some (Text.join ["flag needs an argument: -", name])
  | badSwitch t name =>
    some (Text.join ["invalid boolean value ", t.quoted, " for -", name, ": parse error"])
  | badNumber t name why =>
    let cause : String :=
      match why with
      | .malformed => "parse error"
      | .outOfRange => "value out of range"
    some (Text.join ["invalid value ", t.quoted, " for flag -", name, ": ", cause])

def set (o : Options) (key : Key) (t : Text) : Except Refusal Options :=
  let switch (put : Bool → Options) : Except Refusal Options :=
    if Value.onWords.any fun w => Text.ofString w == t then .ok (put true)
    else if Value.offWords.any fun w => Text.ofString w == t then .ok (put false)
    else .error (.badSwitch t key.name)
  match key with
  | .cached => switch fun on => { o with useCache := on }
  | .verbose => switch fun on => { o with verbose := on }
  | .jobs =>
    match Text.numeral t with
    | .ok n => .ok { o with jobs := n }
    | .error why => .error (.badNumber t key.name why)
  | .output => .ok { o with output := t }
  | .skipFiles => .ok { o with skipFiles := t }
  | .testFiles => .ok { o with testFiles := t }

inductive Argument
  | stop
  | option (name : Text) (value? : Option Text)
  | malformed

/-- What an argument is taken for. A name does not start with a dash or an equals sign. -/
def classify (arg : Text) : Argument :=
  let named (body : Text) : Argument :=
    match body with
    | [] | 45 :: _ | 61 :: _ => .malformed
    | _ =>
      match Text.cut? "=" body with
      | some (name, value) => .option name (some value)
      | none => .option body none
  match arg with
  | [45, 45] => .stop
  | 45 :: 45 :: body => named body
  | 45 :: b :: body => named (b :: body)
  | _ => .stop

def parseFrom (o : Options) : List Text → Except Refusal Options
  | [] => .ok o
  | arg :: rest =>
    match classify arg with
    | .stop => .ok o
    | .malformed => .error (.badSyntax arg)
    | .option name value? =>
      match Key.all.find? fun k => Text.ofString k.name == name with
      | none =>
        if name = Text.ofString "help" ∨ name = Text.ofString "h" then .error .help
        else .error (.undefined name)
      | some key =>
        match value?, (key.value o).isSwitch, rest with
        | some t, _, rest => do parseFrom (← o.set key t) rest
        | none, true, rest => do parseFrom (← o.set key "true") rest
        | none, false, t :: rest => do parseFrom (← o.set key t) rest
        | none, false, [] => .error (.needsArgument key.name)

def parse (args : List Text) : Except Refusal Options := parseFrom {} args

def usage : Text :=
  let line (key : Key) : Text :=
    let (kind, initial) : Text × Text :=
      match key.value {} with
      | .switch _ => ([], [])
      | .number n => (" int", Text.join [" (default ", Text.ofInt n, ")"])
      | .text t => (" string", if t.isEmpty then [] else Text.join [" (default ", t.quoted, ")"])
      | .list _ => ([], [])
    let head : Text := Text.join ["  -", key.name, kind]
    let gap : Text := if head.length ≤ 4 then "\t" else "\n    \t"
    Text.join [head, gap, key.usage, initial, "\n"]
  Text.join ["Usage of nhtest:\n", Key.all.flatMap line]

end Options

end HighAsm.TestSuite
