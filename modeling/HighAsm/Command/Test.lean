import HighAsm.Glob
import HighAsm.TestSuite.Options
import HighAsm.TestSuite.Report

/-!
# The command that runs tests

Finds the test documents, runs them, prints what came out, and writes a report. The exit status is
one when some file failed, and two when the command line could not be read.
-/

namespace HighAsm.Command

variable {m : Type → Type} [Monad m] [Workspace m]

def remark (code : Nat) (mark : String) (message : Text) : Text :=
  Text.join [Text.colour code, "[", mark, "]", TestSuite.plain, " ", message, "\n"]

/-- The results of an earlier run, when they are asked for and can be read. -/
def earlierResults (o : TestSuite.Options) : m TestSuite.Earlier := do
  if !o.useCache then return []
  match ← Workspace.read o.output with
  | .error _ => return []
  | .ok t =>
    match TestSuite.readReport? t with
    | some earlier => return earlier
    | none =>
      Workspace.complain (remark 93 "WARN"
        (Text.join ["Could not parse ", o.output, ". Cache will not be used."]))
      return []

def testWith (o : TestSuite.Options) : m UInt32 := do
  match ← Glob.expandAll o.testFiles.words with
  | none =>
    Workspace.complain (remark 91 "ERROR" "Invalid glob pattern(s): syntax error in pattern")
    return 1
  | some [] =>
    Workspace.complain "No test files found matching the pattern(s).\n"
    return 0
  | some files =>
    let earlier ← earlierResults o
    let documents ← files.mapM fun file => return (file, ← Workspace.read file)
    match TestSuite.runAll o.skipFiles.words earlier documents with
    | .error c =>
      Workspace.complain (Text.join ["panic: ", c.message?.getD [], "\n"])
      return 2
    | .ok results =>
      Workspace.print (TestSuite.render o.verbose results)
      if let .error e ← Workspace.write o.output (TestSuite.report results) then
        Workspace.complain (remark 93 "WARN" ("Could not write report: " ++ e.message))
      return if results.any (·.status.isFailure) then 1 else 0

def test (args : List Text) : m UInt32 := do
  match TestSuite.Options.parse args with
  | .ok o => testWith o
  | .error r =>
    if let some message := r.message? then Workspace.complain (Text.join [message, "\n"])
    Workspace.complain TestSuite.Options.usage
    return if r = .help then 0 else 2

end HighAsm.Command
