import HighAsm.Proofs.BlobAccess
import HighAsm.Proofs.Liveness

/-!
# What the block of an instruction does

The machine computes with words of 16 bits and lowered code with words of 32 bits, of which it
narrows those that may have become too large. The registers of the machine are temporaries, its
memory is the blob. `Mirrors` says how far temporaries and storage have the same in them as the
registers and the memory of the machine: memory always, and of the registers those that are known,
because a function begins with registers of its own. An instruction that moves data and reads known
registers only is mirrored by its block, unless it accesses the word at the two ends of memory.
-/

namespace HighAsm

/-! ## Words of 16 bits in words of 32 -/

/-- The integer is one that a word of two bytes can hold. -/
def InWord (n : Int) : Prop := -0x8000 ≤ n ∧ n < 0x8000

theorem inWord_toInt (x : BitVec 16) : InWord x.toInt := ⟨x.le_toInt, x.toInt_lt⟩

theorem inWord_signedWord (n : Int) : InWord (signedWord 2 n) := inWord_toInt _

theorem inWord_wordAt (m : Memory) (address : Int) : InWord (m.wordAt 2 address) := inWord_toInt _

theorem inWord_wordIn (m : Memory) (source : Operand) : InWord (source.wordIn 2 m) := by
  cases source with
  | const n => exact inWord_signedWord n
  | var address => exact inWord_wordAt m address

theorem inWord_byte (b : UInt8) : InWord b.toNat := by
  have small := b.toNat_lt
  constructor <;> omega

theorem inWord_combine {op : BinOp} (defined : op.isDefined) (x y : Int) :
    InWord (op.combine 2 x y) := by
  cases op with
  | add | sub | mul => exact inWord_signedWord _
  | and | or | xor => exact inWord_toInt _
  | div | rem =>
    simp only [BinOp.combine]
    split
    · exact ⟨by decide, by decide⟩
    · exact inWord_signedWord _
  | undefined => contradiction

theorem toInt_ofInt_word {n : Int} (fits : InWord n) : (BitVec.ofInt 32 n).toInt = n := by
  obtain ⟨lower, upper⟩ := fits
  rw [BitVec.toInt_ofInt]
  exact Int.bmod_eq_of_le (by omega) (by omega)

theorem setWidth_ofInt (n : Int) : (BitVec.ofInt 32 n).setWidth 16 = BitVec.ofInt 16 n := by
  apply BitVec.eq_of_toNat_eq
  rw [BitVec.toNat_setWidth, BitVec.toNat_ofInt, BitVec.toNat_ofInt]
  omega

theorem narrow_ofInt (n : Int) :
    ((BitVec.ofInt 32 n).setWidth 16).signExtend 32 = BitVec.ofInt 32 (signedWord 2 n) := by
  rw [setWidth_ofInt]
  rfl

theorem ofInt_sub (x y : Int) :
    BitVec.ofInt 32 (x - y) = BitVec.ofInt 32 x - BitVec.ofInt 32 y := by
  rw [Int.sub_eq_add_neg, BitVec.ofInt_add, BitVec.ofInt_neg, ← BitVec.sub_eq_add_neg]

namespace IL

section Arithmetic

variable {op : BinOp} {x y : Int}

/-- An operation on words of 32 bits, narrowed, is the operation on words of 16 bits. -/
theorem operate?_narrowed (defined : op.isDefined) (whole : ¬ (op = .div ∨ op = .rem))
    (x y : Int) :
    ∃ z, operate? op (BitVec.ofInt 32 x) (BitVec.ofInt 32 y) = some z ∧
      (z.setWidth 16).signExtend 32 = BitVec.ofInt 32 (op.combine 2 x y) := by
  cases op with
  | add =>
    refine ⟨_, rfl, ?_⟩
    rw [← BitVec.ofInt_add, narrow_ofInt]
    rfl
  | sub =>
    refine ⟨_, rfl, ?_⟩
    rw [← ofInt_sub, narrow_ofInt]
    rfl
  | mul =>
    refine ⟨_, rfl, ?_⟩
    rw [← BitVec.ofInt_mul, narrow_ofInt]
    rfl
  | and =>
    refine ⟨_, rfl, ?_⟩
    rw [BitVec.setWidth_and, setWidth_ofInt, setWidth_ofInt]
    rfl
  | or =>
    refine ⟨_, rfl, ?_⟩
    rw [BitVec.setWidth_or, setWidth_ofInt, setWidth_ofInt]
    rfl
  | xor =>
    refine ⟨_, rfl, ?_⟩
    rw [BitVec.setWidth_xor, setWidth_ofInt, setWidth_ofInt]
    rfl
  | div => exact absurd (.inl rfl) whole
  | rem => exact absurd (.inr rfl) whole
  | undefined => contradiction

theorem ofInt_eq_zero_iff (fits : InWord y) : BitVec.ofInt 32 y = 0 ↔ y = 0 := by
  constructor
  · intro zero
    rw [← toInt_ofInt_word fits, zero]
    rfl
  · rintro rfl
    rfl

/-- Words of 16 bits have no quotient that is too large. -/
theorem hasQuotient_ofInt (left : InWord x) (right : InWord y) (nonZero : y ≠ 0) :
    hasQuotient (BitVec.ofInt 32 x) (BitVec.ofInt 32 y) = true := by
  have divisor : BitVec.ofInt 32 y ≠ 0 := mt (ofInt_eq_zero_iff right).mp nonZero
  have dividend : BitVec.ofInt 32 x ≠ BitVec.intMin 32 := by
    intro least
    have value := toInt_ofInt_word left
    rw [least] at value
    obtain ⟨lower, -⟩ := left
    have minimum : (BitVec.intMin 32).toInt = -0x80000000 := by decide
    omega
  rw [hasQuotient, bne_iff_ne.mpr divisor, beq_eq_false_iff_ne.mpr dividend]
  rfl

/-- The quotient or remainder of words of 16 bits, narrowed. -/
theorem quotient_narrowed (divides : op = .div ∨ op = .rem) (left : InWord x) (right : InWord y)
    (nonZero : y ≠ 0) :
    ∃ z, operate? op (BitVec.ofInt 32 x) (BitVec.ofInt 32 y) = some z ∧
      (z.setWidth 16).signExtend 32 = BitVec.ofInt 32 (op.combine 2 x y) := by
  have exists_ := hasQuotient_ofInt left right nonZero
  rcases divides with rfl | rfl
  · refine ⟨(BitVec.ofInt 32 x).sdiv (BitVec.ofInt 32 y), if_pos exists_, ?_⟩
    have quotient : (BitVec.ofInt 32 x).sdiv (BitVec.ofInt 32 y) = BitVec.ofInt 32 (x.tdiv y) := by
      apply BitVec.eq_of_toInt_eq
      rw [BitVec.toInt_sdiv, toInt_ofInt_word left, toInt_ofInt_word right, BitVec.toInt_ofInt]
    rw [quotient, narrow_ofInt, BinOp.combine, if_neg nonZero]
  · refine ⟨(BitVec.ofInt 32 x).srem (BitVec.ofInt 32 y), if_pos exists_, ?_⟩
    have remainder : (BitVec.ofInt 32 x).srem (BitVec.ofInt 32 y) = BitVec.ofInt 32 (x.tmod y) := by
      rw [← toInt_ofInt_word left, ← toInt_ofInt_word right, ← BitVec.toInt_srem,
        toInt_ofInt_word left, toInt_ofInt_word right, BitVec.ofInt_toInt]
    rw [remainder, narrow_ofInt, BinOp.combine, if_neg nonZero]

/-- A divisor of zero is replaced by one, and the quotient is masked away then. -/
theorem masked_quotient (divides : op = .div ∨ op = .rem) (left : InWord x) (right : InWord y)
    {isZero : BitVec 32}
    (test : (if Comparison.equal.holds (BitVec.ofInt 32 y) (BitVec.ofInt 32 0) then 1 else 0) =
      isZero) :
    ∃ q, operate? op (BitVec.ofInt 32 x) (BitVec.ofInt 32 y + isZero) = some q ∧
      ((q &&& (isZero - BitVec.ofInt 32 1)).setWidth 16).signExtend 32 =
        BitVec.ofInt 32 (op.combine 2 x y) := by
  have compared :
      Comparison.equal.holds (BitVec.ofInt 32 y) (BitVec.ofInt 32 0) = decide (y = 0) := by
    rw [Bool.eq_iff_iff, decide_eq_true_iff, ← ofInt_eq_zero_iff right]
    exact beq_iff_eq
  rw [compared] at test
  by_cases zero : y = 0
  · rw [decide_eq_true zero, if_pos rfl] at test
    subst test zero
    have one : InWord 1 := ⟨by decide, by decide⟩
    obtain ⟨q, quotient, -⟩ := quotient_narrowed divides left one (by decide)
    refine ⟨q, quotient, ?_⟩
    have none_ : op.combine 2 x 0 = 0 := by
      rcases divides with rfl | rfl <;> rfl
    have mask : (1 : BitVec 32) - BitVec.ofInt 32 1 = 0 := rfl
    rw [none_, mask]
    exact congrArg _ (congrArg _ BitVec.and_zero)
  · rw [decide_eq_false zero, if_neg Bool.false_ne_true] at test
    subst test
    obtain ⟨q, quotient, narrowed⟩ := quotient_narrowed divides left right zero
    refine ⟨q, ?_, ?_⟩
    · exact (congrArg _ (BitVec.add_zero _)).trans quotient
    · have mask : (0 : BitVec 32) - BitVec.ofInt 32 1 = BitVec.allOnes 32 := rfl
      rw [mask, BitVec.and_allOnes, narrowed]

end Arithmetic

/-! ## Memory in storage -/

/-- The blob holds the bytes of a memory, and the rest of storage is as it was. -/
structure Storage.Holds (blob : BitVec 64) (outer : Storage) (memory : Memory) (storage : Storage) :
    Prop where
  cells : ∀ k < Memory.size, storage (blob + BitVec.ofNat 64 k) = memory.get k
  outside : ∀ address, ¬ InBlob blob address → storage address = outer address

namespace Storage.Holds

variable {blob : BitVec 64} {outer storage : Storage} {memory : Memory}

theorem byte (holds : Holds blob outer memory storage) (address : Int) :
    storage (cellAt blob address) = memory.byte address := holds.cells _ (Memory.cell_lt address)

theorem put (holds : Holds blob outer memory storage) (address : Int) (bits : BitVec 8) :
    Holds blob outer (memory.setByte address (UInt8.ofBitVec bits))
      (storage.put (cellAt blob address) bits) where
  cells k inside := by
    have small := Memory.cell_lt address
    unfold Memory.size at small inside
    have same : blob + BitVec.ofNat 64 k = cellAt blob address ↔ Memory.cell address = k := by
      rw [cellAt, BitVec.add_right_inj, ← BitVec.toNat_inj, BitVec.toNat_ofNat, BitVec.toNat_ofNat]
      omega
    simp only [Storage.put, Memory.get_setByte _ _ _ inside, same]
    split
    · rfl
    · exact holds.cells k inside
  outside other away := by
    have small := Memory.cell_lt address
    have inside : InBlob blob (cellAt blob address) := (inBlob_iff (Nat.le_of_lt small)).mpr small
    have apart : other ≠ cellAt blob address := by
      rintro rfl
      exact away inside
    rw [Storage.put, if_neg apart]
    exact holds.outside other away

theorem putByte (holds : Holds blob outer memory storage) (address n : Int) :
    Holds blob outer (memory.putByte address n)
      (storage.put (cellAt blob address) ((BitVec.ofInt 32 n).setWidth 8)) := by
  have low : (BitVec.ofInt 32 n).setWidth 8 = BitVec.ofInt 8 n := by
    apply BitVec.eq_of_toNat_eq
    rw [BitVec.toNat_setWidth, BitVec.toNat_ofInt, BitVec.toNat_ofInt]
    omega
  rw [low]
  exact holds.put address _

end Storage.Holds

theorem cellAt_succ {blob : BitVec 64} {address : Int} (inner : Memory.cell address ≠ 0xffff) :
    cellAt blob address + 1 = cellAt blob (address + 1) := by
  have next : Memory.cell (address + 1) = Memory.cell address + 1 := by
    unfold Memory.cell at inner ⊢
    omega
  rw [cellAt, cellAt, next, BitVec.ofNat_add, BitVec.add_assoc]
  rfl

section Halves

variable {blob : BitVec 64} {outer storage : Storage} {memory : Memory} {address : Int}

theorem Storage.Holds.half (holds : Holds blob outer memory storage)
    (inner : Memory.cell address ≠ 0xffff) :
    (storage.half (cellAt blob address)).signExtend 32 =
      BitVec.ofInt 32 (memory.wordAt 2 address) := by
  rw [Storage.half, cellAt_succ inner, holds.byte, holds.byte]
  rfl

theorem Storage.Holds.putHalf (holds : Holds blob outer memory storage)
    (inner : Memory.cell address ≠ 0xffff) {bits : BitVec 16} {n : Int}
    (low : bits = BitVec.ofInt 16 n) :
    Holds blob outer (memory.putWord 2 address n) (storage.putHalf (cellAt blob address) bits) := by
  have lowByte : bits.setWidth 8 = BitVec.ofInt 8 n := by
    rw [low]
    apply BitVec.eq_of_toNat_eq
    rw [BitVec.toNat_setWidth, BitVec.toNat_ofInt, BitVec.toNat_ofInt]
    omega
  have highByte : (bits >>> (8 : Nat)).setWidth 8 = BitVec.ofInt 8 (n >>> (8 : Nat)) := by
    rw [low]
    apply BitVec.eq_of_toNat_eq
    rw [BitVec.toNat_setWidth, BitVec.toNat_ushiftRight, BitVec.toNat_ofInt, BitVec.toNat_ofInt,
      Int.shiftRight_eq_div_pow, Nat.shiftRight_eq_div_pow]
    omega
  rw [Storage.putHalf, cellAt_succ inner, lowByte, highByte]
  exact (holds.put address _).put (address + 1) _

end Halves

end IL

/-! ## Registers in temporaries -/

/-- The value of a register. -/
def Core.register (c : Core) : Register → Option Int
  | .acc => some c.acc
  | .temp => some c.temp
  | .param number => c.params.get? number

namespace Lowering

open IL

/-- The temporary for a register. Parameters are read from where the function was given them, and
written to where they are passed on. -/
def tempOf : Bool → Register → Temp
  | _, .acc => .acc
  | _, .temp => .tmp
  | true, .param number => .param number
  | false, .param number => .arg number

/-- A word stands for the value of a register. Of a parameter the low half counts. -/
def Stands (n : Int) (x : BitVec 32) : Register → Prop
  | .acc | .temp => InWord n ∧ x = BitVec.ofInt 32 n
  | .param _ => x.setWidth 16 = BitVec.ofInt 16 n

/-- The data of lowered code is that of the machine, as far as the registers are known. Whatever
they are, there are words in the accumulator and in all the registers for the arguments of a
call. -/
structure Mirrors (blob : BitVec 64) (outer : Storage) (limit : Nat) (given : Bool)
    (known : Register → Prop) (c : Core) (d : Data) : Prop where
  holds : Storage.Holds blob outer c.memory d.storage
  hasAcc : (acc.word? d).isSome
  hasArgs : ∀ number < limit, ((var (.arg number)).word? d).isSome
  registers : ∀ reg, known reg → ∃ n x, c.register reg = some n ∧
    (var (tempOf given reg)).word? d = some x ∧ Stands n x reg

/-- No counter of a loop has changed. -/
def SameCounters (d d' : Data) : Prop := ∀ head, d'.temps (.counter head) = d.temps (.counter head)

theorem SameCounters.assign {d d' : Data} (same : SameCounters d d') {t : Temp}
    (other : ∀ head, t ≠ .counter head) (x : Datum) : SameCounters d (d'.assign t x) :=
  fun head => (if_neg (other head).symm).trans (same head)

namespace Mirrors

variable {blob : BitVec 64} {outer : Storage} {limit : Nat} {given : Bool}
  {known known' : Register → Prop} {c c' : Core} {d : Data}
  (mirrors : Mirrors blob outer limit given known c d)

include mirrors

theorem acc (reads : known .acc) : InWord c.acc ∧ acc.word? d = some (BitVec.ofInt 32 c.acc) := by
  obtain ⟨n, x, value, word, fits, rfl⟩ := mirrors.registers .acc reads
  cases value
  exact ⟨fits, word⟩

theorem temp (reads : known .temp) :
    InWord c.temp ∧ (var .tmp).word? d = some (BitVec.ofInt 32 c.temp) := by
  obtain ⟨n, x, value, word, fits, rfl⟩ := mirrors.registers .temp reads
  cases value
  exact ⟨fits, word⟩

theorem mono (fewer : ∀ reg, known' reg → known reg) :
    Mirrors blob outer limit given known' c d :=
  { mirrors with registers := fun reg knows => mirrors.registers reg (fewer reg knows) }

/-- Where no register is known, only memory counts. -/
theorem forget (same : c'.memory = c.memory) (none_ : ∀ reg, ¬ known' reg) (given' : Bool) :
    Mirrors blob outer limit given' known' c' d :=
  ⟨same ▸ mirrors.holds, mirrors.hasAcc, mirrors.hasArgs, fun reg knows => absurd knows (none_ reg)⟩

/-- An assignment is mirrored if the temporary stands for what is known of its register. -/
theorem assign {t : Temp} {x : Datum} (same : c'.memory = c.memory)
    (others : ∀ reg, known' reg → tempOf given reg ≠ t →
      known reg ∧ c'.register reg = c.register reg)
    (written : ∀ reg, known' reg → tempOf given reg = t →
      ∃ n, c'.register reg = some n ∧ Stands n x.low reg) :
    Mirrors blob outer limit given known' c' (d.assign t x) where
  holds := same ▸ mirrors.holds
  hasAcc := by
    rw [Value.word?_assign]
    split
    · rfl
    · exact mirrors.hasAcc
  hasArgs number inside := by
    rw [Value.word?_assign]
    split
    · rfl
    · exact mirrors.hasArgs number inside
  registers reg knows := by
    rw [Value.word?_assign]
    split
    · next target =>
      obtain ⟨n, value, stands⟩ := written reg knows target
      exact ⟨n, _, value, rfl, stands⟩
    · next other =>
      obtain ⟨knew, value⟩ := others reg knows other
      rw [value]
      exact mirrors.registers reg knew

theorem assign_fresh (number : Nat) (x : Datum) :
    Mirrors blob outer limit given known c (d.assign (.fresh number) x) := by
  refine mirrors.assign rfl (fun reg knows _ => ⟨knows, rfl⟩) fun reg _ target => ?_
  cases reg <;> cases given <;> contradiction

theorem assign_counter (head : Int) (x : Datum) :
    Mirrors blob outer limit given known c (d.assign (.counter head) x) := by
  refine mirrors.assign rfl (fun reg knows _ => ⟨knows, rfl⟩) fun reg _ target => ?_
  cases reg <;> cases given <;> contradiction

theorem assign_acc {n : Int} (fits : InWord n) :
    Mirrors blob outer limit given (fun reg => reg = .acc ∨ known reg) { c with acc := n }
      (d.assign .acc (.word (BitVec.ofInt 32 n))) := by
  refine mirrors.assign rfl ?_ ?_
  · rintro (_ | _ | number) knows other
    · exact absurd rfl other
    · exact ⟨knows.resolve_left nofun, rfl⟩
    · exact ⟨knows.resolve_left nofun, rfl⟩
  · rintro (_ | _ | number) - target
    · exact ⟨n, rfl, fits, rfl⟩
    · contradiction
    · cases given <;> contradiction

/-- What goes to the accumulator is not known. -/
theorem assign_unknown (x : BitVec 32) :
    Mirrors blob outer limit given (fun reg => reg ≠ .acc ∧ known reg) c
      (d.assign .acc (.word x)) := by
  refine mirrors.assign rfl (fun reg knows _ => ⟨knows.2, rfl⟩) ?_
  rintro (_ | _ | number) knows target
  · exact absurd rfl knows.1
  · contradiction
  · cases given <;> contradiction

theorem assign_tmp {n : Int} (fits : InWord n) :
    Mirrors blob outer limit given (fun reg => reg = .temp ∨ known reg) { c with temp := n }
      (d.assign .tmp (.word (BitVec.ofInt 32 n))) := by
  refine mirrors.assign rfl ?_ ?_
  · rintro (_ | _ | number) knows other
    · exact ⟨knows.resolve_left nofun, rfl⟩
    · exact absurd rfl other
    · exact ⟨knows.resolve_left nofun, rfl⟩
  · rintro (_ | _ | number) - target
    · contradiction
    · exact ⟨n, rfl, fits, rfl⟩
    · cases given <;> contradiction

theorem stored {memory : Memory} {storage : Storage}
    (holds : Storage.Holds blob outer memory storage) :
    Mirrors blob outer limit given known { c with memory := memory }
      { d with storage := storage } :=
  ⟨holds, mirrors.hasAcc, mirrors.hasArgs, mirrors.registers⟩

end Mirrors

theorem Mirrors.assign_arg {blob : BitVec 64} {outer : Storage} {limit : Nat}
    {known : Register → Prop} {c : Core} {d : Data}
    (mirrors : Mirrors blob outer limit false known c d) {number n : Int} {bank : Registers}
    (written : c.params.set? number n = some bank) :
    Mirrors blob outer limit false (fun reg => reg = .param number ∨ known reg)
      { c with params := bank } (d.assign (.arg number) (.word (BitVec.ofInt 32 n))) := by
  refine mirrors.assign rfl ?_ ?_
  · rintro (_ | _ | other) knows apart
    · exact ⟨knows.resolve_left nofun, rfl⟩
    · exact ⟨knows.resolve_left nofun, rfl⟩
    · have differs : other ≠ number := fun same => apart (congrArg Temp.arg same)
      refine ⟨knows.resolve_left fun same => differs (Register.param.inj same), ?_⟩
      exact (Registers.get?_set? written other).trans (if_neg differs.symm)
  · rintro (_ | _ | other) - target
    · contradiction
    · contradiction
    · obtain rfl : other = number := Temp.arg.inj target
      refine ⟨n, ?_, setWidth_ofInt n⟩
      exact (Registers.get?_set? written other).trans (if_pos rfl)

/-! ## Blocks -/

section Blocks

variable {blob : BitVec 64} {outer : Storage} {limit used : Nat} {given : Bool}
  {known : Register → Prop} {c c' : Core} {d : Data}

theorem mirrors_operand (mirrors : Mirrors blob outer limit given known c d) {source : Operand}
    (clear : ∀ a, source.access? = some a → ¬ a.Wraps) (used : Nat) :
    ∃ d', IL.Instr.effects? blob (operand used source).instrs d = some d' ∧
      Mirrors blob outer limit given known c d' ∧ SameCounters d d' ∧
      (operand used source).value.word? d' = some (BitVec.ofInt 32 (source.wordIn 2 c.memory)) := by
  have same : SameCounters d d := fun _ => rfl
  cases source with
  | const n =>
    refine ⟨d, rfl, mirrors, same, ?_⟩
    rw [Operand.wordIn, signedWord_eq_bmod]
    rfl
  | var address =>
    have inner : Memory.cell address ≠ 0xffff := fun last => clear _ rfl ⟨rfl, last⟩
    refine ⟨_, ?_, (mirrors.assign_fresh (used + 1) (.long (cellAt blob address))).assign_fresh
      (used + 2) (.word (BitVec.ofInt 32 (c.memory.wordAt 2 address))),
      (same.assign (by simp) _).assign (by simp) _, ?_⟩
    · rw [operand, loadFrom, IL.Instr.effects?_append, effects?_pointerTo, Option.bind_some,
        ← mirrors.holds.half inner]
      simp [IL.Instr.effects?, IL.Instr.effect?, pointerTo, Datum.long?]
    · simp [operand, loadFrom, pointerTo, Datum.low, Operand.wordIn]

/-- What an operand is stays the same when later temporaries are assigned. -/
theorem word?_operand_assign {source : Operand} {number : Nat}
    (later : (operand used source).used < number) (d : Data) (x : Datum) :
    (operand used source).value.word? (d.assign (.fresh number) x) =
      (operand used source).value.word? d := by
  cases source with
  | const n => rfl
  | var address =>
    have apart : Temp.fresh (used + 1 + 1) ≠ .fresh number := by
      simp only [operand, loadFrom, pointerTo] at later
      simp only [ne_eq, Temp.fresh.injEq]
      omega
    simp only [operand, loadFrom, pointerTo, Value.word?_assign, if_neg apart]

/-- The code of a division, behind that of its divisor. -/
theorem effects?_divide {op : BinOp} {value : Value} {number : Nat} {x y z q : BitVec 32}
    (lhs : acc.word? d = some x) (rhs : value.word? d = some y)
    (stays : ∀ w, value.word? (d.assign (.fresh (number + 1)) w) = value.word? d)
    (test : (if Comparison.equal.holds y (BitVec.ofInt 32 0) then 1 else 0) = z)
    (quotient : operate? op x (y + z) = some q) :
    IL.Instr.effects? blob
      [.compare (.fresh (number + 1)) .equal value (.int 0),
        .arith (.fresh (number + 2)) .add value (var (.fresh (number + 1))),
        .arith (.fresh (number + 3)) op acc (var (.fresh (number + 2))),
        .arith (.fresh (number + 4)) .sub (var (.fresh (number + 1))) (.int 1),
        .arith .acc .and (var (.fresh (number + 3))) (var (.fresh (number + 4))),
        .signHalf .acc acc] d =
      some ((((((d.assign (.fresh (number + 1)) (.word z)).assign
        (.fresh (number + 2)) (.word (y + z))).assign
        (.fresh (number + 3)) (.word q)).assign
        (.fresh (number + 4)) (.word (z - BitVec.ofInt 32 1))).assign
        .acc (.word (q &&& (z - BitVec.ofInt 32 1)))).assign
        .acc (.word (((q &&& (z - BitVec.ofInt 32 1)).setWidth 16).signExtend 32))) := by
  have add (a b : BitVec 32) : operate? .add a b = some (a + b) := rfl
  have sub (a b : BitVec 32) : operate? .sub a b = some (a - b) := rfl
  have and (a b : BitVec 32) : operate? .and a b = some (a &&& b) := rfl
  simp only [IL.Instr.effects?, IL.Instr.effect?, lhs, rhs, stays, test, add, sub, and, quotient,
    Value.word?_assign, Value.word?_int, Datum.low, Option.bind_some, Option.map_some,
    Temp.fresh.injEq, Nat.reduceEqDiff, Nat.left_eq_add, reduceCtorEq, if_true, if_false]

theorem mirrors_binary (mirrors : Mirrors blob outer limit given known c d) (reads : known .acc)
    {op : BinOp} (defined : op.isDefined) {right : Operand}
    (clear : ∀ a, right.access? = some a → ¬ a.Wraps) (used : Nat) :
    ∃ d', IL.Instr.effects? blob (binary used op right).1 d = some d' ∧
      Mirrors blob outer limit given (fun reg => reg = .acc ∨ known reg)
        { c with acc := op.combine 2 c.acc (right.wordIn 2 c.memory) } d' ∧
      SameCounters d d' := by
  obtain ⟨d₁, effects, mirrors₁, counters, rhs⟩ := mirrors_operand mirrors clear used
  obtain ⟨fits, lhs⟩ := mirrors₁.acc reads
  have result := inWord_combine defined c.acc (right.wordIn 2 c.memory)
  have again : ∀ reg, reg = .acc ∨ known reg → reg = .acc ∨ reg ≠ .acc ∧ known reg := by
    intro reg knows
    tauto
  unfold binary
  split
  · next divides =>
    obtain ⟨q, quotient, narrowed⟩ :=
      masked_quotient divides fits (inWord_wordIn c.memory right) rfl
    have row : IL.Instr.effects? blob _ d₁ = _ :=
      effects?_divide lhs rhs (word?_operand_assign (Nat.lt_succ_self _) d₁) rfl quotient
    rw [narrowed] at row
    rw [IL.Instr.effects?_append, effects, Option.bind_some, row]
    refine ⟨_, rfl, ?_, ?_⟩
    · exact ((((mirrors₁.assign_fresh _ _).assign_fresh _ _).assign_fresh _ _).assign_fresh _
        _).assign_unknown _ |>.assign_acc result |>.mono again
    · exact ((((counters.assign (by simp) _).assign (by simp) _).assign (by simp) _).assign
        (by simp) _).assign (by simp) _ |>.assign (by simp) _
  · next whole =>
    obtain ⟨z, value, narrowed⟩ :=
      operate?_narrowed defined whole c.acc (right.wordIn 2 c.memory)
    have row : IL.Instr.effects? blob
        [.arith .acc op acc (operand used right).value, .signHalf .acc acc] d₁ =
        some ((d₁.assign .acc (.word z)).assign .acc
          (.word (BitVec.ofInt 32 (op.combine 2 c.acc (right.wordIn 2 c.memory))))) := by
      rw [← narrowed]
      simp only [IL.Instr.effects?, IL.Instr.effect?, lhs, rhs, value, Value.word?_assign,
        Datum.low, Option.bind_some, Option.map_some, if_true]
    rw [IL.Instr.effects?_append, effects, Option.bind_some, row]
    exact ⟨_, rfl, ((mirrors₁.assign_unknown z).assign_acc result).mono again,
      (counters.assign (by simp) _).assign (by simp) _⟩

theorem word?_storage (d : Data) (storage : Storage) (t : Temp) :
    (var t).word? { d with storage := storage } = (var t).word? d := rfl

theorem mirrors_pointerTo (mirrors : Mirrors blob outer limit given known c d) (used : Nat)
    (address : Int) :
    ∃ d', IL.Instr.effects? blob (pointerTo used address).instrs d = some d' ∧
      Mirrors blob outer limit given known c d' ∧ SameCounters d d' ∧
      (pointerTo used address).value.long? d' = some (cellAt blob address) := by
  have same : SameCounters d d := fun _ => rfl
  refine ⟨_, effects?_pointerTo address, mirrors.assign_fresh _ _, same.assign (by simp) _, ?_⟩
  simp [pointerTo, Datum.long?]

theorem mirrors_pointerAcc (mirrors : Mirrors blob outer limit given known c d) (reads : known .acc)
    (used : Nat) :
    ∃ d', IL.Instr.effects? blob (pointerAcc used).instrs d = some d' ∧
      Mirrors blob outer limit given known c d' ∧ SameCounters d d' ∧
      (pointerAcc used).value.long? d' = some (cellAt blob c.acc) := by
  obtain ⟨fits, held⟩ := mirrors.acc reads
  have same : SameCounters d d := fun _ => rfl
  have effects : IL.Instr.effects? blob (pointerAcc used).instrs d = _ := effects?_pointerAcc
  rw [held, Option.map_some, toInt_ofInt_word fits] at effects
  refine ⟨_, effects, ((mirrors.assign_fresh _ _).assign_fresh _ _).assign_fresh _ _,
    ((same.assign (by simp) _).assign (by simp) _).assign (by simp) _, ?_⟩
  simp [pointerAcc, Datum.long?]

/-- An instruction uses the parameters that a function was given, or those that it passes on. -/
def Instr.Uses (given : Bool) : Instr → Prop
  | .loadParam _ _ | .call _ => given = false
  | .storeParam _ _ => given = true
  | _ => True

/-- A block leaves data behind as an instruction leaves a machine. -/
def Moved (blob : BitVec 64) (outer : Storage) (limit : Nat) (given : Bool)
    (known : Register → Prop) (i : Instr) (b : IL.Block) (c' : Core) (d : Data) : Prop :=
  b.exit? = none ∧ ∃ d', IL.Instr.effects? blob b.instrs d = some d' ∧
    Mirrors blob outer limit given (fun reg => i.Writes reg ∨ known reg) c' d' ∧
    SameCounters d d'

section Moving

variable {ctx : Context} {used' : Nat} {address : Int} {b : IL.Block}
  (mirrors : Mirrors blob outer limit given known c d)
include mirrors

theorem load_moved {source : Operand} (ok : instr ctx used address (.load source) = .ok (b, used'))
    (effect : (Instr.load source).effect? 2 c = some c')
    (clear : ∀ a, source.access? = some a → ¬ a.Wraps) :
    Moved blob outer limit given known (.load source) b c' d := by
  cases ok
  cases effect
  obtain ⟨d₁, effects, mirrors₁, counters, value⟩ := mirrors_operand mirrors clear used
  refine ⟨rfl, _, ?_, mirrors₁.assign_acc (inWord_wordIn c.memory source),
    counters.assign (by simp) _⟩
  simp [IL.Instr.effects?_append, effects, IL.Instr.effects?, IL.Instr.effect?, value]

theorem loadIndirect_moved {width : Width}
    (ok : instr ctx used address (.loadIndirect width) = .ok (b, used'))
    (effect : (Instr.loadIndirect width).effect? 2 c = some c') (reads : known .acc)
    (clear : ∀ a, (Instr.loadIndirect width).access? c.acc = some a → ¬ a.Wraps) :
    Moved blob outer limit given known (.loadIndirect width) b c' d := by
  cases ok
  obtain ⟨d₁, effects, mirrors₁, counters, pointer⟩ := mirrors_pointerAcc mirrors reads used
  refine ⟨rfl, ?_⟩
  simp only [loadFrom, IL.Instr.effects?_append, effects, IL.Instr.effects?, Option.bind_some]
  cases width with
  | byte =>
    cases effect
    have value : (d₁.storage (cellAt blob c.acc)).toBitVec.setWidth 32 =
        BitVec.ofInt 32 (c.memory.byte c.acc).toNat := by
      rw [mirrors₁.holds.byte, BitVec.ofInt_natCast, ← UInt8.toNat_toBitVec, BitVec.ofNat_toNat]
    simp only [IL.Instr.effect?, pointer, value, Value.word?_assign, Datum.low, if_true,
      Option.map_some, Option.bind_some]
    exact ⟨_, rfl, (mirrors₁.assign_fresh _ _).assign_acc (inWord_byte _),
      (counters.assign (by simp) _).assign (by simp) _⟩
  | word =>
    cases effect
    have inner : Memory.cell c.acc ≠ 0xffff := fun last => clear _ rfl ⟨rfl, last⟩
    have value := mirrors₁.holds.half inner
    simp only [IL.Instr.effect?, pointer, value, Value.word?_assign, Datum.low, if_true,
      Option.map_some, Option.bind_some]
    exact ⟨_, rfl, (mirrors₁.assign_fresh _ _).assign_acc (inWord_wordAt _ _),
      (counters.assign (by simp) _).assign (by simp) _⟩

theorem store_moved {target : Int} (ok : instr ctx used address (.store target) = .ok (b, used'))
    (effect : (Instr.store target).effect? 2 c = some c') (reads : known .acc)
    (clear : ∀ a, (Instr.store target).access? c.acc = some a → ¬ a.Wraps) :
    Moved blob outer limit given known (.store target) b c' d := by
  cases ok
  cases effect
  obtain ⟨d₁, effects, mirrors₁, counters, pointer⟩ := mirrors_pointerTo mirrors used target
  have held := (mirrors₁.acc reads).2
  have stored := mirrors₁.stored
    (mirrors₁.holds.putHalf (fun last => clear _ rfl ⟨rfl, last⟩) (setWidth_ofInt c.acc))
  refine ⟨rfl, ?_⟩
  simp only [IL.Instr.effects?_append, effects, IL.Instr.effects?, IL.Instr.effect?, pointer,
    held, Option.map_some, Option.bind_some]
  exact ⟨_, rfl, stored.mono fun _ knows => knows.resolve_left id, counters⟩

theorem storeIndirect_moved {width : Width}
    (ok : instr ctx used address (.storeIndirect width) = .ok (b, used'))
    (effect : (Instr.storeIndirect width).effect? 2 c = some c') (readsAcc : known .acc)
    (readsTemp : known .temp)
    (clear : ∀ a, (Instr.storeIndirect width).access? c.acc = some a → ¬ a.Wraps) :
    Moved blob outer limit given known (.storeIndirect width) b c' d := by
  cases ok
  obtain ⟨d₁, effects, mirrors₁, counters, pointer⟩ := mirrors_pointerAcc mirrors readsAcc used
  obtain ⟨fits, held⟩ := mirrors₁.temp readsTemp
  refine ⟨rfl, ?_⟩
  cases width with
  | byte =>
    cases effect
    have holds := mirrors₁.holds.putByte c.acc c.temp
    simp only [IL.Instr.effects?_append, effects, IL.Instr.effects?, IL.Instr.effect?, pointer,
      held, word?_storage, Option.map_some, Option.bind_some]
    exact ⟨_, rfl, (mirrors₁.stored holds).assign_acc fits, counters.assign (by simp) _⟩
  | word =>
    cases effect
    have holds := mirrors₁.holds.putHalf (fun last => clear _ rfl ⟨rfl, last⟩)
      (setWidth_ofInt c.temp)
    simp only [IL.Instr.effects?_append, effects, IL.Instr.effects?, IL.Instr.effect?, pointer,
      held, word?_storage, Option.map_some, Option.bind_some]
    exact ⟨_, rfl, (mirrors₁.stored holds).assign_acc fits, counters.assign (by simp) _⟩

theorem copyToTemp_moved (ok : instr ctx used address .copyToTemp = .ok (b, used'))
    (effect : Instr.copyToTemp.effect? 2 c = some c') (reads : known .acc) :
    Moved blob outer limit given known .copyToTemp b c' d := by
  cases ok
  cases effect
  obtain ⟨fits, held⟩ := mirrors.acc reads
  have counters : SameCounters d d := fun _ => rfl
  refine ⟨rfl, _, ?_, mirrors.assign_tmp fits, counters.assign (by simp) _⟩
  simp [IL.Instr.effects?, IL.Instr.effect?, held]

end Moving

/-- A register that is passed on is assigned to, where none was given. -/
theorem loadParam_moved {ctx : Context} {used' : Nat} {address : Int} {b : IL.Block} {number : Int}
    {source : Operand} (mirrors : Mirrors blob outer limit false known c d)
    (ok : instr ctx used address (.loadParam number source) = .ok (b, used'))
    (effect : (Instr.loadParam number source).effect? 2 c = some c')
    (clear : ∀ a, source.access? = some a → ¬ a.Wraps) :
    Moved blob outer limit false known (.loadParam number source) b c' d := by
  obtain ⟨_, -, ok⟩ := bind_ok_iff.mp ok
  cases ok
  obtain ⟨bank, written, rfl⟩ := Option.map_eq_some_iff.mp effect
  obtain ⟨d₁, effects, mirrors₁, counters, value⟩ := mirrors_operand mirrors clear used
  refine ⟨rfl, _, ?_, mirrors₁.assign_arg written, counters.assign (by simp) _⟩
  simp [IL.Instr.effects?_append, effects, IL.Instr.effects?, IL.Instr.effect?, value]

/-- A parameter that was given is stored. -/
theorem storeParam_moved {ctx : Context} {used' : Nat} {address : Int} {b : IL.Block}
    {number target : Int} (mirrors : Mirrors blob outer limit true known c d)
    (ok : instr ctx used address (.storeParam number target) = .ok (b, used'))
    (effect : (Instr.storeParam number target).effect? 2 c = some c')
    (reads : known (.param number))
    (clear : ∀ a, (Instr.storeParam number target).access? c.acc = some a → ¬ a.Wraps) :
    Moved blob outer limit true known (.storeParam number target) b c' d := by
  obtain ⟨_, -, ok⟩ := bind_ok_iff.mp ok
  cases ok
  obtain ⟨n, held, rfl⟩ := Option.map_eq_some_iff.mp effect
  obtain ⟨d₁, effects, mirrors₁, counters, pointer⟩ := mirrors_pointerTo mirrors used target
  obtain ⟨_, x, value, word, low⟩ := mirrors₁.registers (.param number) reads
  obtain rfl := Option.some.inj (held.symm.trans value)
  have stored := mirrors₁.stored (mirrors₁.holds.putHalf (fun last => clear _ rfl ⟨rfl, last⟩) low)
  refine ⟨rfl, ?_⟩
  simp only [IL.Instr.effects?_append, effects, IL.Instr.effects?, IL.Instr.effect?, pointer,
    show (var (.param number)).word? d₁ = some x from word, Option.map_some, Option.bind_some]
  exact ⟨_, rfl, stored.mono fun _ knows => knows.resolve_left id, counters⟩

/-- The block of an instruction that moves data does what the instruction does. -/
theorem block_mirrors {p : Program} {ctx : Context} {used' : Nat} {address : Int} {i : Instr}
    {b : IL.Block} (ok : instr ctx used address i = .ok (b, used'))
    (effect : i.effect? 2 c = some c') (uses : Instr.Uses given i)
    (reads : ∀ reg, i.Reads p reg → known reg) (clear : ∀ a, i.access? c.acc = some a → ¬ a.Wraps)
    (mirrors : Mirrors blob outer limit given known c d) :
    Moved blob outer limit given known i b c' d := by
  cases i with
  | load source => exact load_moved mirrors ok effect clear
  | loadIndirect width => exact loadIndirect_moved mirrors ok effect (reads _ rfl) clear
  | binary op right =>
    cases ok
    obtain ⟨defined, same⟩ := Option.ite_none_right_eq_some.mp effect
    cases same
    exact ⟨rfl, mirrors_binary mirrors (reads .acc rfl) defined clear used⟩
  | store target => exact store_moved mirrors ok effect (reads _ rfl) clear
  | storeIndirect width =>
    exact storeIndirect_moved mirrors ok effect (reads .acc (.inl rfl)) (reads .temp (.inr rfl))
      clear
  | copyToTemp => exact copyToTemp_moved mirrors ok effect (reads _ rfl)
  | loadParam number source =>
    obtain rfl : given = false := uses
    exact loadParam_moved mirrors ok effect clear
  | storeParam number target =>
    obtain rfl : given = true := uses
    exact storeParam_moved mirrors ok effect (reads _ rfl) clear
  | jump _ _ | loopHead _ | loopIndex | loopNext _ | call _ | ret | undefined => contradiction

end Blocks

end Lowering

end HighAsm
