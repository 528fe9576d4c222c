import HighAsm.Builder
import HighAsm.Machine

/-!
# Addresses of code

Instructions are numbered by their position in the code, and an address is a position counted from
the code base, modulo 2^64. While the code is shorter than 2^63 instructions, which is the longest
that a signed 64-bit length can describe, different positions have different addresses and looking
up an address finds the instruction of its position. Everything else about control flow is then
said in positions.
-/

namespace HighAsm

open List

theorem wrap64_wrap64_add (x y : Int) : wrap64 (wrap64 x + y) = wrap64 (x + y) := by
  simp only [wrap64_eq_bmod, Int.bmod_add_bmod]

theorem wrap64_wrap64_sub (x y : Int) : wrap64 (wrap64 x - y) = wrap64 (x - y) := by
  simp only [wrap64_eq_bmod, Int.bmod_sub_bmod]

theorem wrap64_natCast {n : Nat} (small : n < 0x8000000000000000) : wrap64 (n : Int) = n := by
  rw [wrap64_eq_bmod]
  exact Int.bmod_eq_of_le (by omega) (by omega)

/-- The address of a position in code that begins at a base. -/
def codeAddress (base : Int) (position : Nat) : Int := wrap64 (base + position)

theorem codeAddress_succ (base : Int) (position : Nat) :
    wrap64 (codeAddress base position + 1) = codeAddress base (position + 1) := by
  rw [codeAddress, wrap64_wrap64_add, codeAddress]
  congr 1
  omega

theorem codeAddress_sub_base {position : Nat} (base : Int) (small : position < 0x8000000000000000) :
    wrap64 (codeAddress base position - base) = position := by
  rw [codeAddress, wrap64_wrap64_sub, show base + (position : Int) - base = position by omega,
    wrap64_natCast small]

theorem codeAddress_inj {base : Int} {i j : Nat} (smallLeft : i < 0x8000000000000000)
    (smallRight : j < 0x8000000000000000) :
    codeAddress base i = codeAddress base j ↔ i = j := by
  constructor
  · intro same
    have offsets := congrArg (fun address => wrap64 (address - base)) same
    simp only [codeAddress_sub_base base smallLeft, codeAddress_sub_base base smallRight] at offsets
    omega
  · rintro rfl
    rfl

namespace Program

/-- Every instruction has an address of its own, because the length of the code is a signed 64-bit
number. -/
def Addressable (p : Program) : Prop := p.code.size < 0x8000000000000000

instance (p : Program) : Decidable p.Addressable :=
  inferInstanceAs (Decidable (p.code.size < 0x8000000000000000))

theorem codeEnd_eq (p : Program) : p.codeEnd = codeAddress p.codeBase p.code.size := rfl

theorem index?_eq_some_iff {p : Program} {address : Int} {position : Nat} :
    p.index? address = some position ↔
      wrap64 (address - p.codeBase) = position ∧ position < p.code.size := by
  rw [index?]
  split
  · next inside =>
    rw [Option.some.injEq]
    omega
  · next outside =>
    simp only [reduceCtorEq, false_iff]
    omega

theorem index?_codeAddress {p : Program} (addressable : p.Addressable) {position : Nat}
    (inside : position < p.code.size) :
    p.index? (codeAddress p.codeBase position) = some position := by
  simp only [index?, codeAddress_sub_base _ (Nat.lt_trans inside addressable)]
  rw [if_pos (by omega), Int.toNat_natCast]

theorem instr?_codeAddress {p : Program} (addressable : p.Addressable) {position : Nat} {i : Instr}
    (here : p.code[position]? = some i) : p.instr? (codeAddress p.codeBase position) = some i := by
  obtain ⟨inside, -⟩ := Array.getElem?_eq_some_iff.mp here
  rw [instr?, index?_codeAddress addressable inside, Option.bind_some, here]

/-- The program with other code, and nothing else changed. -/
def withCode (p : Program) (code : List Instr) : Program := { p with code := code.toArray }

section WithCode

variable (p : Program) (code other : List Instr)

@[simp] theorem toList_withCode : (p.withCode code).code.toList = code := by
  rw [withCode, toList_toArray]

@[simp] theorem size_withCode : (p.withCode code).code.size = code.length := size_toArray ..

@[simp] theorem codeBase_withCode : (p.withCode code).codeBase = p.codeBase := rfl

@[simp] theorem withCode_withCode : (p.withCode code).withCode other = p.withCode other := rfl

theorem withCode_toList : p.withCode p.code.toList = p := by
  rw [withCode, Array.toArray_toList]

end WithCode

/-- Instructions stand in the code of a program from a position on. -/
def HasCode (p : Program) (position : Nat) (code : List Instr) : Prop :=
  ∀ k < code.length, p.code[position + k]? = code[k]?

instance (p : Program) (position : Nat) (code : List Instr) : Decidable (p.HasCode position code) :=
  inferInstanceAs (Decidable (∀ k < code.length, p.code[position + k]? = code[k]?))

namespace HasCode

variable {p : Program} {position : Nat} {first second code : List Instr} {i : Instr}

theorem append_iff : p.HasCode position (first ++ second) ↔
    p.HasCode position first ∧ p.HasCode (position + first.length) second := by
  constructor
  · intro both
    constructor
    · intro k inside
      rw [both k (by simp only [length_append]; omega), getElem?_append_left inside]
    · intro k inside
      have shifted := both (first.length + k) (by simp only [length_append]; omega)
      rw [getElem?_append_right (by omega), Nat.add_sub_cancel_left] at shifted
      rw [Nat.add_assoc, shifted]
  · rintro ⟨left, right⟩ k inside
    rw [length_append] at inside
    by_cases early : k < first.length
    · rw [left k early, getElem?_append_left early]
    · have shifted := right (k - first.length) (by omega)
      rw [getElem?_append_right (by omega), ← shifted]
      congr 1
      omega

theorem left (both : p.HasCode position (first ++ second)) : p.HasCode position first :=
  (append_iff.mp both).1

theorem right (both : p.HasCode position (first ++ second)) :
    p.HasCode (position + first.length) second :=
  (append_iff.mp both).2

theorem head (all : p.HasCode position (i :: code)) : p.code[position]? = some i :=
  all 0 (by simp only [length_cons]; omega)

theorem tail (all : p.HasCode position (i :: code)) : p.HasCode (position + 1) code :=
  right (show p.HasCode position ([i] ++ code) from all)

/-- A program whose code is a list with a part in it has that part at its place. -/
theorem of_toList {before after : List Instr}
    (whole : p.code.toList = before ++ code ++ after) : p.HasCode before.length code := by
  intro k inside
  rw [← Array.getElem?_toList, whole, append_assoc, getElem?_append_right (by omega),
    Nat.add_sub_cancel_left, getElem?_append_left inside]

end HasCode

end Program

namespace Builder

theorem append_eq_withCode (p : Program) (i : Instr) :
    append p i = p.withCode (p.code.toList ++ [i]) := by
  rw [Program.withCode, ← Array.toList_push, Array.toArray_toList, append]

/-- Emitting instructions appends them to the code and changes nothing else of the program. -/
theorem emitAll_program (b : Builder) (code : List Instr) :
    (b.emitAll code).program = b.program.withCode (b.program.code.toList ++ code) := by
  induction code generalizing b with
  | nil => rw [append_nil, Program.withCode_toList]; rfl
  | cons i rest ih =>
    have step : b.emitAll (i :: rest) = (b.emit i).emitAll rest := rfl
    have one : (b.emit i).program = b.program.withCode (b.program.code.toList ++ [i]) :=
      append_eq_withCode b.program i
    rw [step, ih, one]
    simp

theorem address_emitAll (b : Builder) (code : List Instr) :
    (b.emitAll code).address =
      codeAddress b.program.codeBase (b.program.code.size + code.length) := by
  rw [address, emitAll_program, Program.codeEnd_eq]
  simp

end Builder

end HighAsm
