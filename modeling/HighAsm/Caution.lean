import HighAsm.Diagnostic
import HighAsm.Settings

/-!
# Cautions and warnings

A caution is a remark on source text that is accepted. Assembling collects all of them; which are
issued as warnings depends on the settings, and a `WarningLog` keeps count of those.
-/

namespace HighAsm

structure Caution where
  warning : Warning
  line : Int
  message : Text
  deriving DecidableEq, Repr

namespace Caution

def overflow (line : Int) (spelling : Text) : Caution :=
  ⟨.overflow, line, Text.join ["constant ", spelling, " does not fit in a word"]⟩

def argCount (line : Int) (name : String) (declared : Int) (given : Nat) : Caution :=
  ⟨.argCount, line, Text.join ["'", name, "' takes ", Text.ofInt declared, " arguments, ",
    Text.ofNat given, " given"]⟩

def unreachable (line : Int) : Caution :=
  ⟨.unreachableCode, line, "statement after endproc is never executed"⟩

def missingEndproc (line : Int) : Caution :=
  ⟨.missingEndproc, line, "procedure has no endproc, it returns where the next one begins"⟩

def implicitLocal (line : Int) (name : String) : Caution :=
  ⟨.implicitLocal, line, Text.join ["'", name, "' declared by assignment"]⟩

def render (c : Caution) (file? : Option SourceFile) : Text :=
  Text.join [SourceFile.label file?, ":", Text.ofInt c.line, ": ", Text.colour 33, "warning:",
    Text.colour 0, " ", c.message, " [-W", c.warning.name, "]\n",
    SourceFile.echo file? c.line]

end Caution

/-- The warnings issued so far, and the file that the next ones refer to. -/
structure WarningLog where
  file? : Option SourceFile := none
  issued : List (Warning × Int) := []
  printed : Text := []

namespace WarningLog

def count (log : WarningLog) : Nat := log.issued.length

def add (settings : Settings) (log : WarningLog) (c : Caution) : WarningLog :=
  if settings.warns c.warning then
    { log with
      issued := log.issued ++ [(c.warning, c.line)]
      printed := log.printed ++ c.render log.file? }
  else log

def addAll (settings : Settings) (log : WarningLog) (cs : List Caution) : WarningLog :=
  cs.foldl (add settings) log

end WarningLog

end HighAsm
