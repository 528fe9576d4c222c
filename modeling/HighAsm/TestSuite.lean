import HighAsm.TestCase.Run
import HighAsm.Workspace
import HighAsm.XXH64

/-!
# Running many test documents

Every file of a suite gets one result. A file is skipped when the user asks for it, or when its
content is that of a file before it; it is not run again when an earlier report says that it passed
with the same content. Contents are compared by their hashes.

The results are listed by file, whatever order the files are run in.
-/

namespace HighAsm

inductive Status
  | pass | fail | skip | error
  deriving DecidableEq, Repr

namespace Status

def name : Status → String
  | pass => "PASS"
  | fail => "FAIL"
  | skip => "SKIP"
  | error => "ERROR"

def isFailure : Status → Bool
  | fail | error => true
  | pass | skip => false

end Status

structure FileResult where
  file : Text
  hash : Text := []
  status : Status
  message : Text := []
  duration : Int := 0
  cached : Bool := false
  cases : List TestResult := []
  deriving DecidableEq, Repr

namespace TestSuite

/-- A file with its content, or the reason why it cannot be read. -/
abbrev SourceDocument := Text × Except FileError Text

/-- The results of an earlier run that may be used again, by file. A report may name a file without
a result. -/
abbrev Earlier := List (Text × Option FileResult)

def testFile (file hash content : Text) : Except Crash FileResult := do
  match ← TestCase.runDocument content with
  | .error e => return { file, hash, status := .error, message := e.message }
  | .ok [] => return { file, hash, status := .skip, message := "No test cases" }
  | .ok cases =>
    let status := if cases.all fun c => c.failures.isEmpty then Status.pass else .fail
    return { file, hash, status, cases }

inductive Plan
  /-- The result is known without running the file. -/
  | known (result : FileResult)
  | run (file hash content : Text)
  /-- The earlier result that should tell is not there. -/
  | broken (crash : Crash)

/-- Decides whether a file has to be run, or whether an earlier result will do. -/
def consult (earlier : Earlier) (file hash content : Text) : Plan :=
  match earlier.lookup file with
  | some (some r) =>
    if r.hash = hash ∧ r.status = .pass then .known { r with cached := true }
    else .run file hash content
  | some none => .broken (.noResult file)
  | none => .run file hash content

/-- Decides what to do with a file. The hashes of the files before it come with their names, and
those of the files before the next one are returned. -/
def planFile (skipped : List Text) (earlier : Earlier) (seen : List (Text × Text)) :
    SourceDocument → Plan × List (Text × Text)
  | (file, content) =>
    if skipped.contains file then
      (.known { file, status := .skip, message := "Explicitly skipped" }, seen)
    else
      match content with
      | .error e =>
        let message := "Failed to read file for hashing: " ++ e.message
        (.known { file, status := .error, message }, seen)
      | .ok content =>
        let hash := XXH64.digest content
        match seen.lookup hash with
        | some first =>
          let message := "Content is identical to " ++ first
          (.known { file, hash, status := .skip, message }, seen)
        | none => (consult earlier file hash content, (hash, file) :: seen)

def plan (skipped : List Text) (earlier : Earlier) (seen : List (Text × Text)) :
    List SourceDocument → List Plan
  | [] => []
  | document :: rest =>
    let (decided, seen) := planFile skipped earlier seen document
    decided :: plan skipped earlier seen rest

def Plan.result : Plan → Except Crash FileResult
  | known r => .ok r
  | run file hash content => testFile file hash content
  | broken c => .error c

def runAll (skipped : List Text) (earlier : Earlier) (documents : List SourceDocument) :
    Except Crash (List FileResult) := do
  let results ← (plan skipped earlier [] documents).mapM Plan.result
  return results.mergeSort fun a b => !decide (b.file < a.file)

/-! ## Printing -/

def plain : Text := Text.colour 0

def statusColour : Status → Text
  | .pass => Text.colour 92
  | .fail | .error => Text.colour 91
  | .skip => Text.colour 93

def renderDuration (d : Int) : Text :=
  if d = 0 then "0s" else Text.ofInt ((d + 500) / 1000) ++ "µs"

/-- What a case prints; a case that passed is printed only on demand. -/
def renderCase (verbose : Bool) (c : TestResult) : Text :=
  if c.failures.isEmpty then
    if verbose then Text.join ["    ", Text.colour 92, "ok", plain, "   ", c.name, "\n"] else []
  else
    Text.join ["    ", Text.colour 91, "FAIL", plain, " ", c.name, "\n",
      c.failures.flatMap fun f =>
        Text.join ["        ", Text.afterNewlines "        " f, "\n"]]

def renderFile (verbose : Bool) (r : FileResult) : Text :=
  let note : Text := if r.cached then " (cached)" else []
  let message : Text := if r.message.isEmpty then [] else Text.join ["    ", r.message, "\n"]
  Text.join [statusColour r.status, "[", r.status.name, "]", plain, " ", r.file, note, " ",
    Text.colour 96, renderDuration r.duration, "\n", plain, message,
    r.cases.flatMap (renderCase verbose)]

def render (verbose : Bool) (results : List FileResult) : Text :=
  let count (s : Status) : Text := Text.ofNat (results.countP fun r => r.status = s)
  let cases := results.flatMap (·.cases)
  let failed := cases.countP fun c => !c.failures.isEmpty
  Text.join [results.flatMap (renderFile verbose), "\n", Text.colour 1, Text.ofNat results.length,
    " file(s): ", count .pass, " passed, ", count .fail, " failed, ", count .skip, " skipped, ",
    count .error, " errors; ", Text.ofNat cases.length, " case(s), ", Text.ofNat failed, " failed",
    plain, "\n"]

end TestSuite

end HighAsm
