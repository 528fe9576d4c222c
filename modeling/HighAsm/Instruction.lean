import HighAsm.Text

/-!
# Instructions of the accumulator machine

The machine has one accumulator, one temporary register, a bank of parameter registers and a byte
memory. Every instruction takes one code address. The operators work on 64-bit two's complement
integers; the machine then narrows each result to its word size.
-/

namespace HighAsm

/-- The representative of an integer among the signed 64-bit integers. Small integers are their
own. -/
def wrap64 (n : Int) : Int :=
  if n.natAbs < 0x4000000000000000 then n else n.bmod 0x10000000000000000

theorem wrap64_eq_bmod (n : Int) : wrap64 n = n.bmod 0x10000000000000000 := by
  unfold wrap64
  split
  · exact (Int.bmod_eq_of_le (by omega) (by omega)).symm
  · rfl

/-- An operator that combines the accumulator with an operand. A code that names no operator is kept
as it is. -/
inductive BinOp
  | add | sub | mul | div | rem | and | or | xor
  | undefined (code : Int := 99)
  deriving DecidableEq, Repr

namespace BinOp

def code : BinOp → Int
  | add => 0
  | sub => 1
  | mul => 2
  | div => 3
  | rem => 4
  | and => 5
  | or => 6
  | xor => 7
  | undefined code => code

def isDefined : BinOp → Bool
  | undefined _ => false
  | _ => true

def bitwise (f : BitVec 64 → BitVec 64 → BitVec 64) (x y : Int) : Int :=
  (f (BitVec.ofInt 64 x) (BitVec.ofInt 64 y)).toInt

/-- The value of an operator on two 64-bit integers. Division truncates toward zero, and dividing
by zero gives zero. Nothing is returned for a code that names no operator. -/
def eval? (op : BinOp) (x y : Int) : Option Int :=
  match op with
  | add => some (wrap64 (x + y))
  | sub => some (wrap64 (x - y))
  | mul => some (wrap64 (x * y))
  | div => some (wrap64 (x.tdiv y))
  | rem => some (if y = 0 then 0 else x.tmod y)
  | and => some (bitwise (· &&& ·) x y)
  | or => some (bitwise (· ||| ·) x y)
  | xor => some (bitwise (· ^^^ ·) x y)
  | undefined _ => none

end BinOp

/-- The condition on the accumulator under which a jump is taken. A code that names no condition
jumps always. -/
inductive Test
  | always | zero | nonZero | nonNegative | undefined
  deriving DecidableEq, Repr

def Test.taken (test : Test) (acc : Int) : Bool :=
  match test with
  | .zero => acc == 0
  | .nonZero => acc != 0
  | .nonNegative => 0 ≤ acc
  | .always | .undefined => true

inductive Width
  | word | byte
  deriving DecidableEq, Repr

/-- What an instruction reads: a constant, or the word at the address of a variable. -/
inductive Operand
  | const (value : Int)
  | var (address : Int)
  deriving DecidableEq, Repr

/-- One instruction. Code addresses stand for themselves; they are not relative. -/
inductive Instr
  | load (source : Operand)
  | loadIndirect (width : Width)
  | binary (op : BinOp) (right : Operand)
  | store (address : Int)
  /-- The temporary register goes to where the accumulator points, and to the accumulator. -/
  | storeIndirect (width : Width)
  | copyToTemp
  | loadParam (register : Int) (source : Operand)
  | storeParam (register : Int) (address : Int)
  /-- Control goes to the target when the test holds of the accumulator. -/
  | jump (test : Test) (target : Int)
  /-- A positive accumulator starts a loop of that many rounds; otherwise control leaves. -/
  | loopHead (leave : Int)
  /-- The accumulator becomes the number of rounds that remain after this one. -/
  | loopIndex
  /-- A round ends; control goes back to the body while rounds remain. -/
  | loopNext (body : Int)
  /-- Control goes to a procedure, to come back to the next address. -/
  | call (entry : Int)
  | ret
  | undefined
  deriving DecidableEq, Repr

end HighAsm
