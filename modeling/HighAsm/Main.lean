import HighAsm.Command.Assemble
import HighAsm.Command.Test

/-!
# The programs

One executable is both programs: under the name `nhtest` it runs tests, and under any other name it
is the assembler.
-/

namespace HighAsm

def fileError (path : Text) : IO.Error → FileError
  | .noFileOrDirectory .. => .missing path
  | .inappropriateType .. => .notDirectory path
  | .invalidArgument _ 36 _ => .tooLong path
  | e => .other path (Text.ofString (toString e))

instance : Workspace IO where
  read path := do
    try
      if ← ((← IO.currentDir) / path.decoded).isDir then return .error (.readDirectory path)
      return .ok (← IO.FS.readBinFile path.decoded).toList
    catch e => return .error (fileError path e)
  write path content := do
    try
      if ← ((← IO.currentDir) / path.decoded).isDir then return .error (.isDirectory path)
      IO.FS.writeBinFile path.decoded ⟨content.toArray⟩
      return .ok ()
    catch e => return .error (fileError path e)
  names? path := do
    try
      let entries ← ((← IO.currentDir) / path.decoded).readDir
      return some (entries.toList.map fun e => Text.ofString e.fileName)
    catch _ => return none
  holds path := do ((← IO.currentDir) / path.decoded).pathExists
  print t := do (← IO.getStdout).write ⟨t.toArray⟩
  complain t := do (← IO.getStderr).write ⟨t.toArray⟩

end HighAsm

open HighAsm in
def main (args : List String) : IO UInt32 := do
  let args := args.map Text.ofString
  if (← IO.appPath).fileStem = some "nhtest" then Command.test args
  else Command.assemble ⟨"linux", "amd64"⟩ (CommandLine.pageWidth none) args
