import HighAsm.Path

/-!
# Files and output streams

A command reads and writes files and prints to two streams. `Workspace` names what it needs, so
that the same command runs on the files of a computer and on a `Disk`, a set of files that is a
value.
-/

namespace HighAsm

inductive FileError
  | missing (path : Text)
  | notDirectory (path : Text)
  /-- A directory cannot be opened for writing. -/
  | isDirectory (path : Text)
  /-- A directory can be opened but not read. -/
  | readDirectory (path : Text)
  /-- The path, or a name in it, is longer than names can be. -/
  | tooLong (path : Text)
  | other (path reason : Text)
  deriving DecidableEq, Repr

def FileError.message : FileError → Text
  | missing path => Text.join ["open ", path, ": no such file or directory"]
  | notDirectory path => Text.join ["open ", path, ": not a directory"]
  | isDirectory path => Text.join ["open ", path, ": is a directory"]
  | readDirectory path => Text.join ["read ", path, ": is a directory"]
  | tooLong path => Text.join ["open ", path, ": file name too long"]
  | other path reason => Text.join ["open ", path, ": ", reason]

/-- What a command asks of its surroundings. -/
class Workspace (m : Type → Type) where
  read : Text → m (Except FileError Text)
  write : Text → Text → m (Except FileError Unit)
  /-- The names inside a directory; nothing when there is no such directory. -/
  names? : Text → m (Option (List Text))
  holds : Text → m Bool
  print : Text → m Unit
  complain : Text → m Unit

inductive Entry
  | file (content : Text)
  | directory
  deriving DecidableEq, Repr

/-- A directory that places are counted from. -/
inductive Start
  /-- The directory that is a number of steps above the working directory. -/
  | above (steps : Nat)
  | root
  deriving DecidableEq, Repr

/-- A place of a disk: the names that lead to it from a directory. It is not known where the working
directory lies below the root, so no place has two descriptions. -/
structure Location where
  start : Start := .above 0
  names : List Text := []
  deriving DecidableEq, Repr

namespace Location

def child (p : Location) (name : Text) : Location := { p with names := p.names ++ [name] }

def parent (p : Location) : Location :=
  match p.start, p.names with
  | .above steps, [] => ⟨.above (steps + 1), []⟩
  | _, names => { p with names := names.dropLast }

def isWithin (p directory : Location) : Bool :=
  p.start = directory.start && directory.names.isPrefixOf p.names

def relative? (p : Location) : Option (List Text) :=
  if p.start = .above 0 then some p.names else none

/-- The null device, an empty file that keeps nothing. -/
def nullDevice : Location := ⟨.root, ["dev", "null"]⟩

end Location

/-- The files and directories that were put somewhere. -/
structure Disk where
  entries : List (Location × Entry) := []
  deriving DecidableEq, Repr

namespace Disk

def maxName : Nat := 255

def maxPath : Nat := 4095

/-- What stands at a place. The directories that places are counted from are always there, and so is
the null device. -/
def entry? (d : Disk) (place : Location) : Option Entry :=
  if place.names.isEmpty || place = Location.nullDevice.parent then some .directory
  else if place = Location.nullDevice then some (.file [])
  else d.entries.lookup place

def put (d : Disk) (place : Location) (e : Entry) : Disk :=
  ⟨(d.entries.filter fun (p, _) => p ≠ place) ++ [(place, e)]⟩

/-- The disk without a place of the working directory and everything below it. -/
def erase (d : Disk) (names : List Text) : Disk :=
  ⟨d.entries.filter fun (p, _) => !p.isWithin { names := names }⟩

/-- The disk with a file put at a place of the working directory, and with directories on the way to
it. -/
def plant (d : Disk) (names : List Text) (content : Text) : Disk :=
  let ways : List Location := (List.range names.length).tail.map fun n => { names := names.take n }
  let d := ways.foldl (fun d way => if (d.entry? way).isSome then d else d.put way .directory) d
  d.put { names := names } (.file content)

/-- Goes from a place along components. Everything that is gone through has to be a directory. -/
def walk (d : Disk) (path : Text) : Location → List Text → Except FileError Location
  | place, [] => .ok place
  | place, c :: rest =>
    match d.entry? place with
    | none => .error (.missing path)
    | some (.file _) => .error (.notDirectory path)
    | some .directory =>
      if c.isEmpty || c == Text.ofString "." then d.walk path place rest
      else if c == Text.ofString ".." then d.walk path place.parent rest
      else if maxName < c.length then .error (.tooLong path)
      else d.walk path (place.child c) rest

def startOf (path : Text) : Location :=
  if path.head? = some Path.slash then ⟨.root, []⟩ else {}

/-- The components of a path that can be used at all. -/
def components (path : Text) : Except FileError (List Text) :=
  if path.isEmpty then .error (.missing path)
  else if maxPath < path.length then .error (.tooLong path)
  else .ok (Path.components path)

/-- The place that a path leads to, whether or not something stands there. -/
def place (d : Disk) (path : Text) : Except FileError Location := do
  d.walk path (startOf path) (← components path)

def find (d : Disk) (path : Text) : Except FileError Entry := do
  match d.entry? (← d.place path) with
  | some e => .ok e
  | none => .error (.missing path)

def read (d : Disk) (path : Text) : Except FileError Text := do
  match ← d.find path with
  | .file content => .ok content
  | .directory => .error (.readDirectory path)

/-- The disk after a file was written. Only a directory can be meant by a path that ends in a slash,
whatever stands there. -/
def write (d : Disk) (path content : Text) : Except FileError Disk := do
  let way ← components path
  let named := (way.reverse.dropWhile (·.isEmpty)).reverse
  match d.entry? (← d.walk path (startOf path) named.dropLast) with
  | some (.file _) => .error (.notDirectory path)
  | none => .error (.missing path)
  | some .directory =>
    if named.length < way.length then .error (.isDirectory path)
    else
      let place ← d.place path
      if d.entry? place = some .directory then .error (.isDirectory path)
      else if place = Location.nullDevice then .ok d
      else .ok (d.put place (.file content))

def names? (d : Disk) (path : Text) : Option (List Text) :=
  match d.place path with
  | .error _ => none
  | .ok place =>
    if d.entry? place = some .directory then
      some (d.entries.filterMap fun (p, _) =>
        match p.names.getLast? with
        | some name => if p = place.child name then some name else none
        | none => none)
    else none

end Disk

/-- A disk, and what was printed on the two streams. -/
structure Session where
  disk : Disk := {}
  out : Text := []
  err : Text := []

instance : Workspace (StateM Session) where
  read path := return (← get).disk.read path
  write path content := do
    match (← get).disk.write path content with
    | .error e => return .error e
    | .ok d =>
      modify fun s => { s with disk := d }
      return .ok ()
  names? path := return (← get).disk.names? path
  holds path := return match (← get).disk.find path with
    | .ok _ => true
    | .error _ => false
  print t := modify fun s => { s with out := s.out ++ t }
  complain t := modify fun s => { s with err := s.err ++ t }

end HighAsm
