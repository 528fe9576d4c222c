import HighAsm.Instruction

/-!
# Programs

A program is code at consecutive addresses, a data image, and the procedures and string constants
found in them. Code addresses are counted modulo 2^64, with signed representatives.
-/

namespace HighAsm

/-- Where the code of a procedure begins, and how many parameters it declares. -/
structure Procedure where
  name : String
  entry : Int
  params : Int
  deriving DecidableEq, Repr

structure Program where
  code : Array Instr := #[]
  codeBase : Int := 0x1000
  data : Array UInt8 := #[]
  dataBase : Int := 0x2000
  wordSize : Int := 2
  maxParams : Int := 4
  /-- In the order in which their code was begun. -/
  procedures : List Procedure := []
  /-- The string constants with their addresses, in the order in which they were stored. -/
  strings : List (Int × Text) := []
  deriving DecidableEq, Repr

namespace Program

def codeEnd (p : Program) : Int := wrap64 (p.codeBase + p.code.size)

def dataEnd (p : Program) : Int := wrap64 (p.dataBase + p.data.size)

def index? (p : Program) (address : Int) : Option Nat :=
  let offset := wrap64 (address - p.codeBase)
  if 0 ≤ offset ∧ offset < p.code.size then some offset.toNat else none

def instr? (p : Program) (address : Int) : Option Instr :=
  (p.index? address).bind fun i => p.code[i]?

def procedureAt? (p : Program) (address : Int) : Option Procedure :=
  p.procedures.find? (·.entry == address)

def procedureNamed? (p : Program) (name : Text) : Option Procedure :=
  p.procedures.find? fun proc => Text.ofString proc.name == name

/-- Where the code of the first of some procedures stops: at the entry of the next one, or at the
end of the code. -/
def stopAmong (p : Program) : List Procedure → Int
  | _ :: next :: _ => next.entry
  | _ => p.codeEnd

def stopAt (p : Program) (i : Nat) : Int := p.stopAmong (p.procedures.drop i)

/-- The entry after a position among the procedures, or the end of the code past the last one.
Nothing is returned when even the position after it is negative. -/
def entryAfter? (p : Program) (i : Int) : Option Int :=
  let next := wrap64 (i + 1)
  if next < 0 then none else some ((p.procedures[next.toNat]?.map (·.entry)).getD p.codeEnd)

/-- Where the code of the first procedure with an entry stops, or the end of the code when no
procedure begins there. -/
def stopOf (p : Program) (entry : Int) : Int :=
  p.stopAmong (p.procedures.dropWhile (·.entry != entry))

def bytesOf (p : Program) : Width → Int
  | .byte => 1
  | .word => p.wordSize

def targetOf? : Instr → Option Int
  | .jump _ target => some target
  | .loopHead leave => some leave
  | .loopNext body => some body
  | _ => none

def targets (p : Program) : List Int := p.code.toList.filterMap targetOf?

def string? (p : Program) (address : Int) : Option Text :=
  (p.strings.find? (·.1 == address)).map (·.2)

/-- The program with a string constant known at an address, instead of any other one there. -/
def recordString (p : Program) (address : Int) (text : Text) : Program :=
  { p with strings := p.strings.filter (·.1 != address) ++ [(address, text)] }

end Program

end HighAsm
