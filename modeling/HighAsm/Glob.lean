import HighAsm.Workspace

/-!
# File name patterns

In a pattern `*` stands for any run of bytes, `?` for a character, and a class in brackets for one
of its characters or, after `^`, for any other; a backslash takes away the meaning of what follows.
None of them stands for a slash, except a class. A pattern for paths is matched directory by
directory.

The stars cut a pattern into runs, which are matched from left to right. A run that is malformed is
only found out when a name fits all runs before it.
-/

namespace HighAsm.Glob

/-- A part of a pattern between two stars. -/
inductive Piece
  | any
  /-- The characters in the ranges, or all others. -/
  | oneOf (negated : Bool) (ranges : List (Char × Char))
  | byte (b : UInt8)
  deriving DecidableEq, Repr

/-- One end of a range, possibly after a backslash. More of the pattern has to follow. -/
def rangeEnd? (t : Text) : Option (Char × Text) :=
  let plain (t : Text) : Option (Char × Text) :=
    match t with
    | [] => none
    | b :: rest =>
      match Text.leading? b rest with
      | some (c, n) => if (rest.drop n).isEmpty then none else some (c, rest.drop n)
      | none => none
  match t with
  | 45 :: _ | 93 :: _ => none
  | 92 :: rest => plain rest
  | _ => plain t

/-- The ranges of a class up to the closing bracket, which cannot come first. The fuel bounds their
number. -/
def ranges? : Nat → Text → Option (List (Char × Char) × Text)
  | 0, _ => none
  | fuel + 1, t => do
    let (low, rest) ← rangeEnd? t
    let (high, rest) ←
      match rest with
      | 45 :: rest => rangeEnd? rest
      | _ => some (low, rest)
    match rest with
    | 93 :: rest => return ([(low, high)], rest)
    | _ =>
      let (more, rest) ← ranges? fuel rest
      return ((low, high) :: more, rest)

/-- The parts of a run; nothing when it is malformed. The fuel bounds their number. -/
def pieces? : Nat → Text → Option (List Piece)
  | _, [] => some []
  | 0, _ => none
  | fuel + 1, 63 :: rest => (pieces? fuel rest).map (.any :: ·)
  | fuel + 1, 92 :: rest =>
    match rest with
    | [] => none
    | b :: rest => (pieces? fuel rest).map (.byte b :: ·)
  | fuel + 1, 91 :: rest => do
    let (negated, rest) :=
      match rest with
      | 94 :: rest => (true, rest)
      | _ => (false, rest)
    let (ranges, rest) ← ranges? rest.length rest
    let more ← pieces? fuel rest
    return .oneOf negated ranges :: more
  | fuel + 1, b :: rest => (pieces? fuel rest).map (.byte b :: ·)

/-- A run as it is matched: its parts, or nothing when it is malformed. -/
abbrev Run := Option (List Piece)

/-- The texts between the stars of a pattern. A star in a class does not count; the flag says
whether the text starts in one. -/
def cut (inClass : Bool) : Text → List Text
  | [] => [[]]
  | 92 :: b :: rest => onto [92, b] (cut inClass rest)
  | 42 :: rest => if inClass then onto [42] (cut true rest) else [] :: cut false rest
  | b :: rest => onto [b] (cut (b == 91 || (inClass && b != 93)) rest)
where
  onto (bytes : Text) : List Text → List Text
    | run :: more => (bytes ++ run) :: more
    | [] => [bytes]

def runs (pattern : Text) : List Run :=
  (cut false pattern).map fun run => pieces? run.length run

/-- The first character of a text and the number of bytes after the first that it takes; a stray
byte stands for the replacement character. -/
def firstChar (b : UInt8) (rest : Text) : Char × Nat :=
  (Text.leading? b rest).getD (Text.replacement, 0)

/-- What is left of a name after parts without a star. -/
def after? : List Piece → Text → Option Text
  | [], name => some name
  | .any :: rest, b :: tail =>
    if b = Path.slash then none else after? rest (tail.drop (firstChar b tail).2)
  | .oneOf negated ranges :: rest, b :: tail =>
    let (c, n) := firstChar b tail
    if (ranges.any fun (low, high) => low ≤ c && c ≤ high) = negated then none
    else after? rest (tail.drop n)
  | .byte a :: rest, b :: tail => if a = b then after? rest tail else none
  | _, _ => none

/-- What is left of a name after the first place where parts without a star fit. Only bytes other
than a slash are skipped on the way to it, and at the end of a pattern nothing may be left. -/
def afterFirst? (run : List Piece) (atEnd : Bool) (name : Text) : Option Text :=
  match (after? run name).filter fun rest => !atEnd || rest.isEmpty, name with
  | some rest, _ => some rest
  | none, b :: tail => if b = Path.slash then none else afterFirst? run atEnd tail
  | none, [] => none

/-- Whether a name fits runs that follow a star each; nothing when a malformed one is reached. Every
run takes the first place where it fits: a later place would leave less for the runs after it. -/
def fitsRuns? : List Run → Text → Option Bool
  | [], name => some name.isEmpty
  | run :: rest, name => do
    match afterFirst? (← run) rest.isEmpty name with
    | some left => fitsRuns? rest left
    | none => some false

/-- Whether a name fits the runs of a pattern; nothing when a malformed one is reached. -/
def fits? (runs : List Run) (name : Text) : Option Bool := do
  match runs with
  | first :: rest =>
    match after? (← first) name with
    | some left => fitsRuns? rest left
    | none => some false
  | [] => some name.isEmpty

def isPattern (path : Text) : Bool := path.any fun b => b = 42 || b = 63 || b = 91 || b = 92

def directoryOf (pattern : Text) : Text :=
  match (Path.split pattern).1 with
  | [] => "."
  | [b] => [b]
  | path => path.dropLast

variable {m : Type → Type} [Monad m] [Workspace m]

/-- The files of a directory whose names fit the runs of a pattern, by name; nothing when a
malformed run is reached. -/
def inside (runs : List Run) (directory : Text) : m (Option (List Text)) := do
  match ← Workspace.names? directory with
  | none => return some []
  | some names =>
    let names := names.mergeSort fun a b => !decide (b < a)
    return (names.filterM (fits? runs)).map (·.map (Path.join directory))

def maxDepth : Nat := 10000

/-- The files and directories that fit a pattern for paths; nothing when a malformed run is reached.
The fuel bounds the number of directories in the pattern. -/
def expandFrom : Nat → Text → m (Option (List Text))
  | 0, _ => return none
  | fuel + 1, pattern => do
    if (fits? (runs pattern) []).isNone then return none
    let directory := directoryOf pattern
    let file := runs (Path.split pattern).2
    if !isPattern pattern then
      return some (if ← Workspace.holds pattern then [pattern] else [])
    else if !isPattern directory then
      inside file directory
    else
      match ← expandFrom fuel directory with
      | none => return none
      | some directories =>
        let found ← directories.mapM (inside file)
        return (found.mapM id).map (·.flatten)

def expand (pattern : Text) : m (Option (List Text)) := expandFrom maxDepth pattern

/-- The files and directories that fit any of several patterns, each once and by name. -/
def expandAll (patterns : List Text) : m (Option (List Text)) := do
  let found ← patterns.mapM expand
  if found.any (·.isNone) then return none
  else
    let files := (found.filterMap id).flatten.eraseDups
    return some (files.mergeSort fun a b => !decide (b < a))

end HighAsm.Glob
