import HighAsm.CellTree
import HighAsm.Text

/-!
# Memory

The memory of the machine is a tree of bytes. An address is taken modulo the number of bytes, except
where a stretch of memory is asked for as a whole.
-/

namespace HighAsm

abbrev Memory := CellTree UInt8 16

namespace Memory

def size : Nat := 65536

def zeros : Memory := CellTree.fill 0 16

def cell (address : Int) : Nat := (address % 65536).toNat

def byte (m : Memory) (address : Int) : UInt8 := m.get (cell address)

def setByte (m : Memory) (address : Int) (value : UInt8) : Memory := m.set (cell address) value

def lowByte (n : Int) : UInt8 := UInt8.ofNat (n % 256).toNat

/-- Bytes from a cell on, as many as there are cells after it. -/
def load (m : Memory) (start : Nat) : List UInt8 → Memory
  | [] => m
  | b :: rest => if start < size then load (m.set start b) (start + 1) rest else m

/-- A number of bytes from an address on, if all of them lie in memory. -/
def dump? (m : Memory) (address count : Int) : Option (List UInt8) :=
  if 0 ≤ address ∧ 0 ≤ count ∧ address + count ≤ size then
    some ((List.range count.toNat).map fun i => m.get (address.toNat + i))
  else none

/-- The bytes from a cell on before the first zero, among a number of cells. -/
def textFrom (m : Memory) (start : Nat) : Nat → Text
  | 0 => []
  | cells + 1 =>
    let b := m.get start
    if b = 0 then [] else b :: textFrom m (start + 1) cells

/-- The text at an address, which ends before the first zero byte or at the end of memory. -/
def text (m : Memory) (address : Int) : Text :=
  m.textFrom (cell address) (size - cell address)

end Memory

end HighAsm
