import HighAsm.Expression
import HighAsm.Machine

/-!
# Words and expressions by their bits

What an expression means, without reference to instructions. A word is the signed reading of its
bits, one byte of them or two, the low byte first. Terms, operators and stores act on a running
value and on memory, strictly from left to right. The machine's own arithmetic, which goes through
64-bit integers and remainders, is shown to compute the same words.
-/

namespace HighAsm

/-- The number of bits in a word of a number of bytes. -/
def wordBits (size : Int) : Nat := if size = 1 then 8 else 16

/-- The signed word in the low bits of an integer. -/
def signedWord (size n : Int) : Int := (BitVec.ofInt (wordBits size) n).toInt

namespace Memory

/-- The signed word at an address, its low byte first. -/
def wordAt (size : Int) (m : Memory) (address : Int) : Int :=
  if size = 1 then (m.byte address).toBitVec.toInt
  else ((m.byte (address + 1)).toBitVec ++ (m.byte address).toBitVec).toInt

/-- The memory with the low eight bits of an integer at an address. -/
def putByte (m : Memory) (address value : Int) : Memory :=
  m.setByte address (UInt8.ofBitVec (BitVec.ofInt 8 value))

/-- The memory with a word at an address, its low byte first. -/
def putWord (size : Int) (m : Memory) (address value : Int) : Memory :=
  if 1 < size then (m.putByte address value).putByte (address + 1) (value >>> (8 : Nat))
  else m.putByte address value

end Memory

/-- The word that an operator makes of two integers. Division truncates toward zero, and dividing
by zero gives zero. A code that names no operator leaves the first one. -/
def BinOp.combine (size : Int) (op : BinOp) (x y : Int) : Int :=
  match op with
  | add => signedWord size (x + y)
  | sub => signedWord size (x - y)
  | mul => signedWord size (x * y)
  | div => if y = 0 then 0 else signedWord size (x.tdiv y)
  | rem => if y = 0 then 0 else signedWord size (x.tmod y)
  | and => (BitVec.ofInt (wordBits size) x &&& BitVec.ofInt (wordBits size) y).toInt
  | or => (BitVec.ofInt (wordBits size) x ||| BitVec.ofInt (wordBits size) y).toInt
  | xor => (BitVec.ofInt (wordBits size) x ^^^ BitVec.ofInt (wordBits size) y).toInt
  | undefined _ => x

/-- The word of a constant, or the word at a variable. -/
def Operand.wordIn (size : Int) (m : Memory) : Operand → Int
  | const n => signedWord size n
  | var address => m.wordAt size address

/-- The address that a variable points to at an offset, which is itself a word. -/
def Memory.pointer (size : Int) (m : Memory) (base : Int) (offset : Operand) : Int :=
  signedWord size (m.wordAt size base + offset.wordIn size m)

/-- The value of a term. A byte is unsigned, a word signed. -/
def Term.valueIn (size : Int) (m : Memory) : Term → Int
  | simple operand => operand.wordIn size m
  | indexed base offset .word => m.wordAt size (m.pointer size base offset)
  | indexed base offset .byte => (m.byte (m.pointer size base offset)).toNat

/-- The memory after a value was stored to a place. -/
def Place.put (size : Int) (m : Memory) (value : Int) : Place → Memory
  | direct address => m.putWord size address value
  | indexed base offset .word => m.putWord size (m.pointer size base offset) value
  | indexed base offset .byte => m.putByte (m.pointer size base offset) value

/-- One operation on a running value and memory. A store leaves the value as it is. -/
def Operation.apply (size : Int) (state : Int × Memory) : Operation → Int × Memory
  | combine op right => (op.combine size state.1 (right.wordIn size state.2), state.2)
  | store place => (state.1, place.put size state.2 state.1)

/-- The value of an expression and the memory that its stores leave, from left to right. -/
def Expression.evaluate (size : Int) (e : Expression) (m : Memory) : Int × Memory :=
  e.operations.foldl (Operation.apply size) (e.first.valueIn size m, m)

/-! ## The machine's arithmetic -/

theorem signedWord_eq_bmod (size n : Int) :
    signedWord size n = if size = 1 then n.bmod 256 else n.bmod 65536 := by
  rw [signedWord, BitVec.toInt_ofInt, wordBits]
  split <;> rfl

theorem Machine.wrap_eq (p : Program) (n : Int) : Machine.wrap p n = signedWord p.wordSize n :=
  (signedWord_eq_bmod p.wordSize n).symm

theorem Memory.lowByte_eq (n : Int) : lowByte n = UInt8.ofBitVec (BitVec.ofInt 8 n) := by
  apply UInt8.toNat_inj.mp
  rw [lowByte, UInt8.toNat_ofNat', UInt8.toNat_ofBitVec, BitVec.toNat_ofInt]
  omega

theorem Machine.setByte_eq (m : Machine) (address value : Int) :
    m.setByte address value = { m with memory := m.memory.putByte address value } := by
  rw [Machine.setByte, Memory.putByte, Memory.lowByte_eq]

section

variable (p : Program) (m : Machine)

theorem Machine.word_eq (address : Int) :
    m.word p address = m.memory.wordAt p.wordSize address := by
  unfold Machine.word Memory.wordAt
  split
  · exact (BitVec.toInt_eq_toNat_bmod _).symm
  · rw [BitVec.toInt_eq_toNat_bmod, BitVec.toNat_append,
      ← Nat.shiftLeft_add_eq_or_of_lt (BitVec.isLt _), Nat.shiftLeft_eq]
    simp only [UInt8.toNat_toBitVec]
    congr 1
    omega

theorem Machine.setWord_eq (address value : Int) :
    m.setWord p address value =
      { m with memory := m.memory.putWord p.wordSize address value } := by
  have high : value >>> (8 : Nat) = value / (256 : Int) := Int.shiftRight_eq_div_pow value 8
  unfold Machine.setWord Memory.putWord
  split
  · simp only [Memory.putByte, Memory.lowByte_eq, high]
  · simp only [Memory.putByte, Memory.lowByte_eq]

theorem Machine.value_eq (operand : Operand) :
    m.value p operand = operand.wordIn p.wordSize m.memory := by
  cases operand with
  | const n => exact Machine.wrap_eq p n
  | var address => exact Machine.word_eq p m address

end

/-- The low bits do not depend on whether higher bits were cut off before. -/
theorem signedWord_wrap64 (size n : Int) : signedWord size (wrap64 n) = signedWord size n := by
  rw [wrap64_eq_bmod, signedWord_eq_bmod, signedWord_eq_bmod]
  split
  · exact Int.bmod_bmod_of_dvd (by decide)
  · exact Int.bmod_bmod_of_dvd (by decide)

theorem wordBits_le (size : Int) : wordBits size ≤ 64 := by
  unfold wordBits
  split <;> omega

theorem ofInt_setWidth (size x : Int) :
    (BitVec.ofInt 64 x).setWidth (wordBits size) = BitVec.ofInt (wordBits size) x := by
  have divides : 2 ^ wordBits size ∣ 2 ^ 64 := Nat.pow_dvd_pow 2 (wordBits_le size)
  rw [← BitVec.signExtend_eq_setWidth_of_le _ (wordBits_le size), BitVec.signExtend]
  apply BitVec.eq_of_toInt_eq
  rw [BitVec.toInt_ofInt, BitVec.toInt_ofInt, BitVec.toInt_ofInt, Int.bmod_bmod_of_dvd divides]

/-- Bits of 64-bit integers narrowed afterwards are the bits of the words. -/
theorem signedWord_bitwise {f : BitVec 64 → BitVec 64 → BitVec 64} {size : Int}
    {g : BitVec (wordBits size) → BitVec (wordBits size) → BitVec (wordBits size)}
    (narrow : ∀ a b, (f a b).setWidth (wordBits size) =
      g (a.setWidth (wordBits size)) (b.setWidth (wordBits size))) (x y : Int) :
    signedWord size (BinOp.bitwise f x y) =
      (g (BitVec.ofInt (wordBits size) x) (BitVec.ofInt (wordBits size) y)).toInt := by
  rw [signedWord, BinOp.bitwise, ← ofInt_setWidth size x, ← ofInt_setWidth size y, ← narrow,
    ← BitVec.signExtend_eq_setWidth_of_le _ (wordBits_le size), BitVec.signExtend]

/-- On a code that names an operator, narrowing the machine's 64-bit result gives the word of the
operator. -/
theorem BinOp.eval?_narrowed {op : BinOp} (defined : op.isDefined) (p : Program) (x y : Int) :
    ∃ n, op.eval? x y = some n ∧ Machine.wrap p n = op.combine p.wordSize x y := by
  cases op with
  | add | sub | mul => exact ⟨_, rfl, by rw [Machine.wrap_eq, signedWord_wrap64]; rfl⟩
  | div =>
    refine ⟨_, rfl, ?_⟩
    rw [Machine.wrap_eq, signedWord_wrap64, BinOp.combine]
    split
    · next zero => rw [zero, Int.tdiv_zero, signedWord_eq_bmod]; simp
    · rfl
  | rem =>
    refine ⟨_, rfl, ?_⟩
    rw [Machine.wrap_eq, BinOp.combine]
    split
    · rw [signedWord_eq_bmod]; simp
    · rfl
  | and =>
    refine ⟨_, rfl, ?_⟩
    rw [Machine.wrap_eq]
    exact signedWord_bitwise (fun _ _ => BitVec.setWidth_and) x y
  | or =>
    refine ⟨_, rfl, ?_⟩
    rw [Machine.wrap_eq]
    exact signedWord_bitwise (fun _ _ => BitVec.setWidth_or) x y
  | xor =>
    refine ⟨_, rfl, ?_⟩
    rw [Machine.wrap_eq]
    exact signedWord_bitwise (fun _ _ => BitVec.setWidth_xor) x y
  | undefined => contradiction

end HighAsm
