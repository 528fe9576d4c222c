import HighAsm.Text.Number

/-!
# Broken preconditions

Some operations have no result at all when their caller breaks a rule: a jump to be patched has to
be there, a register number has to name a register. A `Crash` says which rule was broken. Crashes
are not diagnostics: no source text that the assembler accepts or rejects leads to one.
-/

namespace HighAsm

/-- A rule of an internal interface that a caller has broken. -/
inductive Crash
  | noJump (address : Int)
  | noLoopHead (address : Int)
  | undefinedOperator (code : Int := 99)
  | undefinedTest
  | noRegister (register : Int)
  | badSize (size : Int)
  | outsideCode
  | badPosition (position : Int)
  | negativeWordSize
  | noResult (file : Text)
  | unnamedFlag
  | duplicateFlag (name : Text)
  | duplicateShorthand (name : Text)
  deriving DecidableEq, Repr

/-- What is said of a crash; some are told by their place alone. -/
def Crash.message? : Crash → Option Text
  | noJump a => some (Text.join ["codegen: no jump at $", Text.hex 4 a, " to patch"])
  | noLoopHead a => some (Text.join ["codegen: no loop head at $", Text.hex 4 a])
  | undefinedOperator code => some ("ir: unknown operator " ++ Text.ofInt code)
  | unnamedFlag => some "flag name cannot be empty"
  | duplicateFlag name => some ("flag redefined: " ++ name)
  | duplicateShorthand name => some ("shorthand flag redefined: " ++ name)
  | undefinedTest | noRegister _ | badSize _ | outsideCode | badPosition _ | negativeWordSize
  | noResult _ => none

end HighAsm
