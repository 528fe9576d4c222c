import HighAsm.Crash
import HighAsm.Text.Quoted

/-!
# The command line

A flag has a name and possibly a one-letter shorthand, and holds a text, a switch, a number or a
list of texts. On the command line a flag is written as `--name=value`, `--name value`, or with a
single dash; `-s value` and `-svalue` use its shorthand. A switch needs no value. An argument with
a single dash that names a whole flag is never read as a shorthand, so that `-Wall` can be a flag.
Everything that is not a flag is an argument, and so is everything after `--`.

When the command line is rejected, the flags before the offending one keep their new values.
-/

namespace HighAsm.CommandLine

inductive Value
  | text (t : Text)
  | switch (on : Bool)
  | number (n : Int)
  | list (items : List Text)
  deriving DecidableEq, Repr

inductive UsageError
  | emptyName
  | unknownFlag (written : Text)
  | unknownShorthand (letter : Text)
  | needsArgument (written : Text)
  | badSwitch (t : Text)
  | badNumber (t : Text)
  deriving DecidableEq, Repr

def UsageError.message : UsageError → Text
  | emptyName => "empty flag name"
  | unknownFlag written => "unknown flag: " ++ written
  | unknownShorthand letter => "unknown shorthand flag: -" ++ letter
  | needsArgument written => "flag needs an argument: " ++ written
  | badSwitch t =>
    Text.join ["invalid boolean value '", t, "': strconv.ParseBool: parsing ", t.quoted,
      ": invalid syntax"]
  | badNumber t => Text.join ["invalid number '", t, "'"]

namespace Value

def onWords : List String := ["1", "t", "T", "TRUE", "true", "True"]

def offWords : List String := ["0", "f", "F", "FALSE", "false", "False"]

def isSwitch : Value → Bool
  | switch _ => true
  | _ => false

/-- The value after a flag was given a text. A switch that is given nothing goes on, and a list
grows by one item. -/
def accept (v : Value) (t : Text) : Except UsageError Value :=
  match v with
  | text _ => .ok (text t)
  | switch _ =>
    if t.isEmpty || onWords.any (fun w => Text.ofString w == t) then .ok (switch true)
    else if offWords.any fun w => Text.ofString w == t then .ok (switch false)
    else .error (.badSwitch t)
  | number _ =>
    match Text.decimal? t with
    | some n => .ok (number n)
    | none => .error (.badNumber t)
  | list items => .ok (list (items ++ [t]))

def render : Value → Text
  | text t => t
  | switch on => if on then "true" else "false"
  | number n => Text.ofInt n
  | list items => Text.joinWith ", " items

def renderDefault : Value → Text
  | list items => Text.join ["[", Text.joinWith " " items, "]"]
  | v => v.render

end Value

structure Flag where
  name : Text
  /-- One letter that stands for the name; nothing when there is none. -/
  shorthand : Text := []
  usage : Text := []
  value : Value
  initial : Text := value.renderDefault
  expects : Text := []

def Flag.isSwitch (f : Flag) : Bool := f.value.isSwitch

/-- One of several switches of the same kind: a flag that enables it and a flag that disables it. -/
structure GroupEntry where
  name : Text
  mark : Text
  usage : Text := []
  initially : Bool := false
  canEnable : Bool := true
  canDisable : Bool := true

def GroupEntry.enabling (e : GroupEntry) : Text := e.mark ++ e.name

def GroupEntry.disabling (e : GroupEntry) : Text := Text.join [e.mark, "no-", e.name]

/-- Switches of one kind under a common heading. -/
structure FlagGroup where
  name : Text
  description : Text := []
  /-- What an entry is called; nothing means `flag`. -/
  kind : Text := []
  heading : Text := []
  entries : List GroupEntry

/-- The flags of a program, in the order of their definition, with the arguments that were left
after the last parse. -/
structure FlagSet where
  flags : List Flag := []
  groups : List FlagGroup := []
  args : List Text := []

namespace FlagSet

def flag? (s : FlagSet) (name : Text) : Option Flag := s.flags.find? (·.name == name)

/-- The flag of a shorthand: the first that was defined with it. -/
def short? (s : FlagSet) (letter : Text) : Option Flag :=
  if letter.isEmpty then none else s.flags.find? (·.shorthand == letter)

def textOf (s : FlagSet) (name : Text) : Text :=
  match (s.flag? name).map Flag.value with
  | some (.text t) => t
  | _ => []

def isOn (s : FlagSet) (name : Text) : Bool := (s.flag? name).any (·.value == .switch true)

def numberOf (s : FlagSet) (name : Text) : Int :=
  match (s.flag? name).map Flag.value with
  | some (.number n) => n
  | _ => 0

def itemsOf (s : FlagSet) (name : Text) : List Text :=
  match (s.flag? name).map Flag.value with
  | some (.list items) => items
  | _ => []

/-! ## Defining flags -/

/-- Flags that are being defined. A flag whose shorthand is taken is there all the same. -/
abbrev Definition := EStateM Crash FlagSet

def define (f : Flag) : Definition Unit := do
  let s ← get
  if f.name.isEmpty then throw .unnamedFlag
  if (s.flag? f.name).isSome then throw (.duplicateFlag f.name)
  set { s with flags := s.flags ++ [f] }
  if (s.short? f.shorthand).isSome then throw (.duplicateShorthand f.shorthand)

def defineGroup (g : FlagGroup) : Definition Unit := do
  for e in g.entries do
    if e.canEnable then
      define { name := e.enabling, usage := e.usage, value := .switch false }
    if e.canDisable then
      define
        { name := e.disabling, usage := Text.join ["Disable '", e.name, "'"],
          value := .switch false }
  modify fun s => { s with groups := s.groups ++ [g] }

/-! ## Reading arguments -/

inductive Effect
  | keep
  /-- It is dropped, and everything after it is kept. -/
  | stop
  | give (flag : Flag) (t : Text)
  /-- It gives a flag the argument after it; the flag is written in this way. -/
  | giveNext (flag : Flag) (written : Text)

def splitValue (t : Text) : Text × Option Text :=
  match Text.cut? "=" t with
  | some (name, value) => (name, some value)
  | none => (t, none)

def effectNamed (s : FlagSet) (dashes body : Text) : Except UsageError Effect :=
  let (name, value?) := splitValue body
  if name.isEmpty then .error .emptyName
  else
    match s.flag? name, value? with
    | none, _ => .error (.unknownFlag (dashes ++ name))
    | some f, some t => .ok (.give f t)
    | some f, none => .ok (if f.isSwitch then .give f [] else .giveNext f (dashes ++ name))

/-- What a flag by its shorthand does. A switch pays no attention to what follows. -/
def effectShort (s : FlagSet) (letter rest : Text) : Except UsageError Effect :=
  match s.short? letter with
  | none => .error (.unknownShorthand letter)
  | some f =>
    .ok (if f.isSwitch then .give f []
      else if rest.isEmpty then .giveNext f ("-" ++ letter)
      else .give f rest)

def effect (s : FlagSet) (arg : Text) : Except UsageError Effect :=
  match arg with
  | 45 :: 45 :: body => if body.isEmpty then .ok .stop else s.effectNamed "--" body
  | 45 :: c :: rest =>
    if (s.flag? (splitValue (c :: rest)).1).isSome then s.effectNamed "-" (c :: rest)
    else s.effectShort [c] rest
  | _ => .ok .keep

abbrev Parsing := EStateM UsageError FlagSet

def give (f : Flag) (t : Text) : Parsing Unit := do
  match f.value.accept t with
  | .error e => throw e
  | .ok v =>
    modify fun s =>
      { s with flags := s.flags.map fun g => if g.name == f.name then { g with value := v } else g }

def readFrom : List Text → Parsing Unit
  | [] => pure ()
  | arg :: rest => do
    let s ← get
    match s.effect arg with
    | .error e => throw e
    | .ok .keep =>
      set { s with args := s.args ++ [arg] }
      readFrom rest
    | .ok .stop => set { s with args := s.args ++ rest }
    | .ok (.give f t) =>
      give f t
      readFrom rest
    | .ok (.giveNext f written) =>
      match rest with
      | [] => throw (.needsArgument written)
      | t :: rest =>
        give f t
        readFrom rest

def parse (arguments : List Text) : Parsing Unit := do
  modify fun s => { s with args := [] }
  readFrom arguments

/-! ## Requests -/

inductive Request
  | reject (e : UsageError)
  | help
  | act (args : List Text)

def helpFlag : Flag :=
  { name := "help", shorthand := "h", usage := "Display this information", value := .switch false }

/-- Defines the switch for help, reads a command line, and tells what it asks for. -/
def receive (arguments : List Text) : Definition Request := do
  define helpFlag
  match (parse arguments).run (← get) with
  | .error e s =>
    set s
    return .reject e
  | .ok _ s =>
    set s
    return if s.isOn "help" then .help else .act s.args

end FlagSet

end HighAsm.CommandLine
