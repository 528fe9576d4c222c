import HighAsm.CellTree

/-!
# Parameter registers

A bank has a fixed number of registers, which are zero at first. They are the cells of a tree that
is just deep enough, so a large bank costs no more than the registers that are written.
-/

namespace HighAsm

structure Registers where
  count : Nat
  cells : CellTree Int (count.log2 + 1)

namespace Registers

/-- The most registers, of 8 bytes each, that an address space of 48 bits has room for. -/
def maxCount : Nat := 0x200000000000

def zeros (count : Nat) : Registers := ⟨count, CellTree.fill 0 _⟩

def get? (r : Registers) (register : Int) : Option Int :=
  if 0 ≤ register ∧ register < r.count then some (r.cells.get register.toNat) else none

def set? (r : Registers) (register value : Int) : Option Registers :=
  if 0 ≤ register ∧ register < r.count then
    some { r with cells := r.cells.set register.toNat value }
  else none

def fill (r : Registers) (first : Nat) : List Int → Registers
  | [] => r
  | value :: rest => fill { r with cells := r.cells.set first value } (first + 1) rest

@[simp]
theorem get?_zeros (count : Nat) (register : Int) :
    (zeros count).get? register = if 0 ≤ register ∧ register < count then some 0 else none := by
  simp [get?, zeros]

/-- A register that was written holds what was written, and every other register what it held
before. -/
theorem get?_set? {r s : Registers} {register value : Int} (h : r.set? register value = some s)
    (other : Int) :
    s.get? other = if register = other then some value else r.get? other := by
  have limit : r.count < Nat.pow 2 (r.count.log2 + 1) := Nat.lt_log2_self
  have own {n : Int} (inside : 0 ≤ n ∧ n < r.count) :
      n.toNat % Nat.pow 2 (r.count.log2 + 1) = n.toNat :=
    Nat.mod_eq_of_lt (Nat.lt_of_le_of_lt (by omega) limit)
  unfold set? at h
  split at h
  · next inside =>
    obtain rfl := Option.some.inj h
    by_cases bank : 0 ≤ other ∧ other < r.count
    · have same : register.toNat = other.toNat ↔ register = other := by omega
      simp only [get?, bank, and_self, if_true, CellTree.get_set, own inside, own bank, same]
      split <;> rfl
    · have apart : register ≠ other := by omega
      simp only [get?, bank, apart, if_false]
  · contradiction

end Registers

end HighAsm
