import HighAsm.Lowering
import HighAsm.Proofs.CodeAddress
import HighAsm.Proofs.Success

/-!
# The form of lowered code

Lowering goes through the procedures and their instructions in order. What it has come to when it
succeeds is said here once: a module has a function for every procedure, a function has a block for
every instruction between a first and a last one, and the block of an instruction is what
`Lowering.instr` makes of it.
-/

namespace HighAsm.Lowering

open List

/-- The address a number of instructions further on. -/
def further (address : Int) : Nat → Int
  | 0 => address
  | count + 1 => further (wrap64 (address + 1)) count

theorem further_codeAddress (base : Int) (position count : Nat) :
    further (codeAddress base position) count = codeAddress base (position + count) := by
  induction count generalizing position with
  | zero => rfl
  | succ count ih =>
    rw [further, codeAddress_succ, ih]
    congr 1
    omega

theorem codeAddress_pred (base : Int) (position : Nat) :
    wrap64 (codeAddress base (position + 1) - 1) = codeAddress base position := by
  rw [codeAddress, wrap64_wrap64_sub, codeAddress]
  congr 1
  omega

theorem wrap64_further_sub (address base : Int) (count : Nat) :
    wrap64 (further address count - base) = wrap64 (address - base + count) := by
  induction count generalizing address with
  | zero => rw [further, Int.natCast_zero, Int.add_zero]
  | succ count ih =>
    rw [further, ih, ← wrap64_wrap64_add, wrap64_wrap64_sub, wrap64_wrap64_add]
    congr 1
    omega

/-- Between a position and one with a greater address the addresses do not wrap. -/
theorem codeAddress_between {base : Int} {q stop j : Nat} (small : stop < 0x8000000000000000)
    (ordered : codeAddress base q < codeAddress base stop) (from_ : q ≤ j) (until_ : j ≤ stop) :
    codeAddress base j = codeAddress base q + (j - q : Nat) := by
  simp only [codeAddress, wrap64_eq_bmod, Int.bmod_def] at ordered ⊢
  omega

/-- Positions follow each other as addresses do. -/
theorem index?_further {p : Program} {address : Int} {q k : Nat} (addressable : p.Addressable)
    (found : p.index? address = some q) (inside : q + k < p.code.size) :
    p.index? (further address k) = some (q + k) := by
  simp only [Program.index?] at found
  split at found
  · have start : wrap64 (address - p.codeBase) = (q : Int) := by
      have := Option.some.inj found
      omega
    have small : q + k < 0x8000000000000000 := Nat.lt_trans inside addressable
    have there : wrap64 (further address k - p.codeBase) = ((q + k : Nat) : Int) := by
      rw [wrap64_further_sub, ← wrap64_wrap64_add, start, ← Int.natCast_add, wrap64_natCast small]
    simp only [Program.index?, there]
    rw [if_pos (by omega), Int.toNat_natCast]
  · contradiction

/-- The block of a procedure's end. -/
def lastBlock (stop : Int) : IL.Block := ⟨.code stop, [], some (.ret acc)⟩

section Success

variable {p : Program} {c : Context} {used used' : Nat} {address stop : Int} {i : Instr}
  {instrs : List Instr} {b : IL.Block} {body : List IL.Block} {proc : Procedure} {f : IL.Function}

theorem label_ok_iff {target : Int} {l : IL.Label} :
    label c target = .ok l ↔ (c.entry ≤ target ∧ target ≤ c.stop) ∧ l = .code target := by
  unfold label
  split
  · next outside =>
    simp only [reduceCtorEq, false_iff]
    omega
  · next inside =>
    rw [Except.ok.injEq, eq_comm]
    exact ⟨fun same => ⟨by omega, same⟩, fun both => both.2⟩

theorem checkRegister_ok_iff {register : Int} {u : Unit} :
    checkRegister c register = .ok u ↔ register < c.program.maxParams := by
  unfold checkRegister
  split
  · next outside =>
    simp only [reduceCtorEq, false_iff]
    omega
  · next inside => simpa using inside

theorem instr_binary (c : Context) (used : Nat) (address : Int) (op : BinOp) (right : Operand) :
    instr c used address (.binary op right) =
      .ok (⟨.code address, (binary used op right).1, none⟩, (binary used op right).2) := rfl

theorem instr_call {entry : Int} {callee : Procedure}
    (found : c.program.procedureAt? entry = some callee) (used : Nat) (address : Int) :
    instr c used address (.call entry) = .ok (⟨.code address,
      [.call .acc (functionName callee)
        ((List.range c.program.maxParams.toNat).map fun (i : Nat) => var (.arg i))], none⟩,
      used) := by
  simp only [instr, found]

theorem instr_label (ok : instr c used address i = .ok (b, used')) : b.label = .code address := by
  cases i with
  | load | loadIndirect | binary | store | storeIndirect | copyToTemp | loopIndex | ret =>
    cases ok
    rfl
  | loadParam | storeParam | loopHead | loopNext =>
    obtain ⟨_, -, ok⟩ := bind_ok_iff.mp ok
    cases ok
    rfl
  | jump test =>
    obtain ⟨_, -, ok⟩ := bind_ok_iff.mp ok
    cases test <;>
      · cases ok
        rfl
  | call entry =>
    simp only [instr] at ok
    split at ok
    · contradiction
    · cases ok
      rfl
  | undefined => contradiction

theorem blocks_ok (ok : blocks c used address instrs = .ok (body, used')) :
    body.length = instrs.length ∧ ∀ k i, instrs[k]? = some i →
      ∃ b u u', body[k]? = some b ∧ instr c u (further address k) i = .ok (b, u') := by
  induction instrs generalizing used address body with
  | nil =>
    cases ok
    exact ⟨rfl, by simp⟩
  | cons i rest ih =>
    obtain ⟨⟨b, u⟩, first, ok⟩ := bind_ok_iff.mp ok
    obtain ⟨⟨more, u'⟩, others, ok⟩ := bind_ok_iff.mp ok
    cases ok
    obtain ⟨length, pointwise⟩ := ih others
    refine ⟨by rw [length_cons, length_cons, length], fun k j here => ?_⟩
    cases k with
    | zero =>
      cases here
      exact ⟨b, used, u, rfl, first⟩
    | succ k => exact pointwise k j here

theorem slice_cases (ok : slice p address stop = .ok instrs) :
    (stop ≤ address ∧ instrs = []) ∨ (address < stop ∧ ∃ q, p.index? address = some q ∧
      q + (stop - address).toNat ≤ p.code.size ∧
      instrs = (p.code.toList.drop q).take (stop - address).toNat) := by
  unfold slice at ok
  split at ok
  · next empty => exact .inl ⟨empty, (Except.ok.inj ok).symm⟩
  · next some_ =>
    split at ok
    · contradiction
    · next q found =>
      dsimp only at ok
      split at ok
      · contradiction
      · next fits =>
        exact .inr ⟨by omega, q, found, by omega, (Except.ok.inj ok).symm⟩

theorem slice_ok (addressable : p.Addressable) (ok : slice p address stop = .ok instrs) {k : Nat}
    (here : instrs[k]? = some i) : p.instr? (further address k) = some i := by
  obtain ⟨-, rfl⟩ | ⟨-, q, found, fits, rfl⟩ := slice_cases ok
  · contradiction
  · rw [getElem?_take, getElem?_drop, Array.getElem?_toList] at here
    split at here
    · next inside =>
      have position := index?_further addressable found (show q + k < p.code.size by omega)
      rw [Program.instr?, position, Option.bind_some, here]
    · contradiction

theorem function_ok (ok : function p used proc stop = .ok (f, used')) :
    (0 ≤ p.maxParams ∧ p.maxParams ≤ maxParams) ∧ ∃ instrs body,
      slice p proc.entry stop = .ok instrs ∧
      blocks ⟨p, proc.name, proc.entry, stop⟩ used proc.entry instrs = .ok (body, used') ∧
      f = ⟨functionName.isGlobal proc, functionName proc, p.maxParams.toNat,
        prologue p.maxParams.toNat (loopHeads proc.entry instrs) :: body ++ [lastBlock stop]⟩ := by
  unfold function at ok
  split at ok
  · contradiction
  · next few =>
    obtain ⟨instrs, cut, ok⟩ := bind_ok_iff.mp ok
    obtain ⟨⟨body, u⟩, lowered, ok⟩ := bind_ok_iff.mp ok
    cases ok
    exact ⟨by omega, instrs, body, cut, lowered, rfl⟩

theorem function_of_blocks (few : 0 ≤ p.maxParams ∧ p.maxParams ≤ maxParams)
    (cut : slice p proc.entry stop = .ok instrs)
    (lowered : blocks ⟨p, proc.name, proc.entry, stop⟩ used proc.entry instrs = .ok (body, used')) :
    function p used proc stop = .ok (⟨functionName.isGlobal proc, functionName proc,
      p.maxParams.toNat,
      prologue p.maxParams.toNat (loopHeads proc.entry instrs) :: body ++ [lastBlock stop]⟩,
      used') := by
  unfold function
  rw [if_neg (by omega)]
  exact bind_ok_iff.mpr ⟨_, cut, bind_ok_iff.mpr ⟨_, lowered, rfl⟩⟩

theorem functions_ok {procs : List Procedure} {fs : List IL.Function}
    (ok : functions p used procs = .ok fs) :
    fs.length = procs.length ∧ ∀ k proc, procs[k]? = some proc →
      ∃ f u u', fs[k]? = some f ∧ function p u proc (p.stopAmong (procs.drop k)) = .ok (f, u') := by
  induction procs generalizing used fs with
  | nil =>
    cases ok
    exact ⟨rfl, by simp⟩
  | cons proc rest ih =>
    obtain ⟨⟨f, u⟩, first, ok⟩ := bind_ok_iff.mp ok
    obtain ⟨more, others, ok⟩ := bind_ok_iff.mp ok
    cases ok
    obtain ⟨length, pointwise⟩ := ih others
    refine ⟨by rw [length_cons, length_cons, length], fun k other here => ?_⟩
    cases k with
    | zero =>
      cases here
      exact ⟨f, used, u, rfl, first⟩
    | succ k => exact pointwise k other here

theorem program_ok {m : IL.Module} (ok : program p = .ok m) :
    p.wordSize = 2 ∧ memory p = .ok m.memory ∧ functions p 0 p.procedures = .ok m.functions := by
  unfold program at ok
  split at ok
  · contradiction
  · next words =>
    obtain ⟨items, image, ok⟩ := bind_ok_iff.mp ok
    obtain ⟨fs, lowered, ok⟩ := bind_ok_iff.mp ok
    cases ok
    exact ⟨Decidable.not_not.mp words, image, lowered⟩

theorem exists_function {m : IL.Module} (ok : program p = .ok m) (known : f ∈ m.functions) :
    ∃ proc u u' stop, proc ∈ p.procedures ∧ function p u proc stop = .ok (f, u') := by
  obtain ⟨-, -, lowered⟩ := program_ok ok
  obtain ⟨length, pointwise⟩ := functions_ok lowered
  obtain ⟨k, inside, rfl⟩ := getElem_of_mem known
  obtain ⟨f, u, u', same, made⟩ :=
    pointwise k _ (getElem?_eq_getElem (Nat.lt_of_lt_of_eq inside length))
  rw [getElem?_eq_getElem inside, Option.some.injEq] at same
  exact ⟨_, u, u', _, getElem_mem _, same ▸ made⟩

/-- A block of a function is its first or its last one, or the block of an instruction of the
program. -/
theorem block_cases (addressable : p.Addressable) (ok : function p used proc stop = .ok (f, used'))
    (member : b ∈ f.blocks) :
    (∃ params heads, b = prologue params heads) ∨ b = lastBlock stop ∨
      ∃ c u u' a i, c.program = p ∧ p.instr? a = some i ∧ instr c u a i = .ok (b, u') := by
  obtain ⟨-, instrs, body, cut, lowered, rfl⟩ := function_ok ok
  obtain ⟨length, pointwise⟩ := blocks_ok lowered
  rw [mem_append, mem_cons, mem_singleton] at member
  rcases member with (first | middle) | last
  · exact .inl ⟨_, _, first⟩
  · obtain ⟨k, inside, rfl⟩ := getElem_of_mem middle
    have here := getElem?_eq_getElem (Nat.lt_of_lt_of_eq inside length)
    obtain ⟨b, u, u', same, made⟩ := pointwise k _ here
    rw [getElem?_eq_getElem inside, Option.some.injEq] at same
    exact .inr (.inr ⟨_, u, u', _, _, rfl, slice_ok addressable cut here, same ▸ made⟩)
  · exact .inr (.inl last)

end Success

end HighAsm.Lowering
