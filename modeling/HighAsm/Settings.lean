import HighAsm.Program

/-!
# Settings of an assembly

The sizes and bases of the machine, the names with a meaning of their own, and two families of
switches: language features and warnings. A warning is issued when its own switch is on; the
switch `pedantic` issues all of them.
-/

namespace HighAsm

inductive Feature
  | implicitLocals | hexLiterals | variableOffsets | indexVariable
  deriving DecidableEq, Repr

inductive Warning
  | implicitLocal | argCount | unreachableCode | missingEndproc | overflow | pedantic
  deriving DecidableEq, Repr

namespace Feature

def all : List Feature := [implicitLocals, hexLiterals, variableOffsets, indexVariable]

def name : Feature → String
  | implicitLocals => "implicit-locals"
  | hexLiterals => "hex-literals"
  | variableOffsets => "variable-offsets"
  | indexVariable => "index-variable"

def description : Feature → String
  | implicitLocals => "Create a local on its first direct store (`x+1>y`)."
  | hexLiterals => "Recognize `0x` hexadecimal constants."
  | variableOffsets => "Allow variables as indirection offsets (`a[i]`, `a?i`)."
  | indexVariable => "Store the loop index of `for` into a variable named `index`."

def ofName? (name : Text) : Option Feature := all.find? fun f => Text.ofString f.name == name

end Feature

namespace Warning

def all : List Warning :=
  [implicitLocal, argCount, unreachableCode, missingEndproc, overflow, pedantic]

def name : Warning → String
  | implicitLocal => "implicit-local"
  | argCount => "arg-count"
  | unreachableCode => "unreachable-code"
  | missingEndproc => "missing-endproc"
  | overflow => "overflow"
  | pedantic => "pedantic"

def description : Warning → String
  | implicitLocal => "Warn when a local is created by a store."
  | argCount => "Warn when a call passes a different number of arguments than declared."
  | unreachableCode => "Warn about statements after `endproc`."
  | missingEndproc => "Warn when a procedure has no `endproc`."
  | overflow => "Warn when a constant does not fit in a word."
  | pedantic => "Issue all warnings."

def initially : Warning → Bool
  | implicitLocal | pedantic => false
  | argCount | unreachableCode | missingEndproc | overflow => true

def ofName? (name : Text) : Option Warning := all.find? fun w => Text.ofString w.name == name

end Warning

structure Settings where
  wordSize : Int := 2
  maxParams : Int := 4
  codeBase : Int := 0x1000
  dataBase : Int := 0x2000
  /-- The variable that receives the index of a counted loop. -/
  indexName : String := "index"
  /-- The variable that all modules share. -/
  resultName : String := "$return"
  features : Feature → Bool := fun _ => true
  warnings : Warning → Bool := Warning.initially
  backend : Text := []
  /-- The machine the output is for, where the form of the output has several. -/
  target : Text := []

namespace Settings

def warns (s : Settings) (w : Warning) : Bool :=
  s.warnings w || (w != .pedantic && s.warnings .pedantic)

def setFeature (s : Settings) (f : Feature) (on : Bool) : Settings :=
  { s with features := fun g => if g = f then on else s.features g }

def setWarning (s : Settings) (w : Warning) (on : Bool) : Settings :=
  { s with warnings := fun v => if v = w then on else s.warnings v }

/-- The largest unsigned value of a word, in 64-bit arithmetic; nothing when words have a negative
size. -/
def maxWord? (s : Settings) : Option Int :=
  let bits := wrap64 (8 * s.wordSize)
  if bits < 0 then none
  else if 64 ≤ bits then some (-1)
  else some (wrap64 (wrap64 (Nat.pow 2 bits.toNat) - 1))

def emptyProgram (s : Settings) : Program :=
  { codeBase := s.codeBase, dataBase := s.dataBase, wordSize := s.wordSize,
    maxParams := s.maxParams }

end Settings

end HighAsm
