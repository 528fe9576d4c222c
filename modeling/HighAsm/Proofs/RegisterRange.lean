import HighAsm.Proofs.Accesses
import HighAsm.Proofs.Calls

/-!
# What the registers hold

Whatever a machine is made to do, its accumulator, its temporary register, its parameter registers
and the counters of its loops stay within bounds: they hold words of the program, and of all
instructions only the load of a byte can bring in anything else. A byte is unsigned, so where words
have one byte themselves, the greatest word is less than the greatest byte. What is stored comes
back narrowed to a word.
-/

namespace HighAsm

open List

namespace Program

variable {p : Program} {n : Int}

/-- An integer is a word of a program: narrowing leaves it as it is. -/
def IsWord (p : Program) (n : Int) : Prop := Machine.wrap p n = n

/-- The least word of a program. -/
def leastWord (p : Program) : Int := if p.wordSize = 1 then -128 else -32768

/-- The greatest word of a program. -/
def greatestWord (p : Program) : Int := if p.wordSize = 1 then 127 else 32767

/-- Some instruction of a program loads the byte that the accumulator points to. -/
def LoadsBytes (p : Program) : Prop := .loadIndirect .byte ∈ p.code

instance (p : Program) : Decidable p.LoadsBytes :=
  inferInstanceAs (Decidable (_ ∈ p.code))

/-- An integer is no greater than words are, or than the bytes that a program loads. -/
def IsValue (p : Program) (n : Int) : Prop :=
  p.leastWord ≤ n ∧ (n ≤ p.greatestWord ∨ p.LoadsBytes ∧ n ≤ 255)

theorem isWord_iff : p.IsWord n ↔ p.leastWord ≤ n ∧ n ≤ p.greatestWord := by
  unfold IsWord Machine.wrap leastWord greatestWord
  split
  · rw [Int.bmod_def]
    omega
  · rw [Int.bmod_def]
    omega

theorem wrap_isWord (p : Program) (n : Int) : p.IsWord (Machine.wrap p n) := by
  unfold IsWord
  rw [Machine.wrap_eq, Machine.wrap_eq, signedWord_eq_bmod, signedWord_eq_bmod]
  split
  · exact Int.bmod_bmod
  · exact Int.bmod_bmod

theorem IsWord.isValue (word : p.IsWord n) : p.IsValue n :=
  have ⟨least, greatest⟩ := isWord_iff.mp word
  ⟨least, .inl greatest⟩

theorem zero_isWord (p : Program) : p.IsWord 0 := by
  rw [isWord_iff, leastWord, greatestWord]
  split <;> omega

theorem byte_isValue (loads : p.LoadsBytes) (b : UInt8) : p.IsValue b.toNat := by
  have small : b.toNat < 256 := b.toNat_lt
  have negative : p.leastWord ≤ 0 := (isWord_iff.mp p.zero_isWord).1
  exact ⟨by omega, .inr ⟨loads, by omega⟩⟩

/-- Counting down a positive value gives a value. -/
theorem IsValue.pred (value : p.IsValue n) (positive : 0 < n) : p.IsValue (n - 1) := by
  have negative : p.leastWord ≤ 0 := (isWord_iff.mp p.zero_isWord).1
  obtain ⟨-, greatest | ⟨loads, greatest⟩⟩ := value
  · exact ⟨by omega, .inl (by omega)⟩
  · exact ⟨by omega, .inr ⟨loads, by omega⟩⟩

/-- A value that is no word is a byte above the words. -/
theorem IsValue.isWord_or (value : p.IsValue n) : p.IsWord n ∨ 128 ≤ n ∧ n ≤ 255 := by
  rw [isWord_iff]
  obtain ⟨least, greatest | ⟨-, greatest⟩⟩ := value
  · exact .inl ⟨least, greatest⟩
  · unfold greatestWord
    split <;> omega

theorem IsValue.isWord (value : p.IsValue n) (wide : p.wordSize = 2 ∨ ¬p.LoadsBytes) :
    p.IsWord n := by
  rw [isWord_iff]
  obtain ⟨least, greatest | ⟨loads, greatest⟩⟩ := value
  · exact ⟨least, greatest⟩
  · have two : p.wordSize = 2 := wide.resolve_right (not_not_intro loads)
    rw [greatestWord, two]
    exact ⟨least, by omega⟩

end Program

/-- What holds of the values and of every register of a bank holds of every register after the
values were filled in. -/
theorem Registers.forall_fill {P : Int → Prop} {bank : Registers} {first : Nat} {values : List Int}
    (fits : first + values.length ≤ bank.count) (all : ∀ value ∈ values, P value)
    (held : ∀ register n, bank.get? register = some n → P n) {register n : Int}
    (get : (bank.fill first values).get? register = some n) : P n := by
  induction values generalizing bank first with
  | nil => exact held register n get
  | cons value rest ih =>
    rw [length_cons] at fits
    have ⟨now, later⟩ := forall_mem_cons.mp all
    have set := set?_natCast (show first < bank.count by omega) value
    refine ih (by simp only; omega) later (fun other k written => ?_) get
    rw [get?_set? set] at written
    split at written
    · exact Option.some.inj written ▸ now
    · exact held other k written

namespace Machine

variable {p : Program} {m : Machine}

theorem word_isWord (p : Program) (m : Machine) (address : Int) : p.IsWord (m.word p address) := by
  unfold Program.IsWord wrap word
  split
  · exact Int.bmod_bmod
  · exact Int.bmod_bmod

theorem value_isWord (p : Program) (m : Machine) (source : Operand) :
    p.IsWord (m.value p source) := by
  cases source with
  | const n => exact p.wrap_isWord n
  | var address => exact m.word_isWord p address

/-! ## Within bounds -/

/-- Every register holds a value, parameter registers hold words, and counters are positive. -/
structure Bounded (p : Program) (m : Machine) : Prop where
  acc : p.IsValue m.acc
  temp : p.IsValue m.temp
  params : ∀ register n, m.params.get? register = some n → p.IsWord n
  counters : ∀ frame ∈ m.frames, ∀ n ∈ frame.loops, 0 < n ∧ p.IsValue n

namespace Bounded

variable (bounded : m.Bounded p)

include bounded

theorem with_acc {n : Int} (value : p.IsValue n) : Bounded p { m with acc := n } :=
  { bounded with acc := value }

theorem with_memory (memory : Memory) : Bounded p { m with memory := memory } :=
  { bounded with }

theorem setWord (address value : Int) : (m.setWord p address value).Bounded p := by
  rw [setWord_eq]
  exact bounded.with_memory _

/-- The counters of the innermost frame replaced by others within the bounds. -/
theorem with_loops {frame : Frame} {rest : List Frame}
    (frames : m.frames = frame :: rest) {loops : List Int}
    (counters : ∀ n ∈ loops, 0 < n ∧ p.IsValue n) :
    Bounded p { m with frames := { frame with loops := loops } :: rest } := by
  refine { bounded with counters := ?_ }
  have below := bounded.counters
  rw [frames] at below
  exact forall_mem_cons.mpr ⟨counters, (forall_mem_cons.mp below).2⟩

theorem leave : m.leave.machine.Bounded p := by
  unfold Machine.leave
  split
  · next frame below others frames =>
    refine { bounded with counters := ?_ }
    have below := bounded.counters
    rw [frames] at below
    exact (forall_mem_cons.mp below).2
  · exact { bounded with counters := nofun }

/-- No instruction of a program brings a register out of its bounds. -/
theorem execute {i : Instr} (member : i ∈ p.code) (pc : Int) :
    (m.execute p pc i).machine.Bounded p := by
  cases i with
  | load source => exact bounded.with_acc (m.value_isWord p source).isValue
  | loadIndirect width =>
    cases width with
    | byte => exact bounded.with_acc (Program.byte_isValue member _)
    | word => exact bounded.with_acc (m.word_isWord p m.acc).isValue
  | binary op right =>
    simp only [Machine.execute]
    split
    · exact bounded.with_acc (p.wrap_isWord _).isValue
    · exact bounded
  | store address => exact bounded.setWord address m.acc
  | storeIndirect width =>
    cases width with
    | byte => exact (bounded.with_memory _).with_acc bounded.temp
    | word =>
      simp only [Machine.execute, setWord_eq]
      exact (bounded.with_memory _).with_acc bounded.temp
  | copyToTemp => exact { bounded with temp := bounded.acc }
  | loadParam register source =>
    simp only [Machine.execute]
    split
    · next params set =>
      refine { bounded with params := fun other n get => ?_ }
      rw [Outcome.machine, Registers.get?_set? set] at get
      split at get
      · exact Option.some.inj get ▸ m.value_isWord p source
      · exact bounded.params other n get
    · exact bounded
  | storeParam register address =>
    simp only [Machine.execute]
    split
    · exact bounded.setWord address _
    · exact bounded
  | jump test target => exact bounded
  | loopHead exit =>
    simp only [Machine.execute]
    split
    · exact bounded
    · next positive =>
      split
      · next frame rest frames =>
        have open_ := bounded.counters frame (frames ▸ mem_cons_self)
        exact bounded.with_loops frames
          (forall_mem_cons.mpr ⟨⟨Int.not_le.mp positive, bounded.acc⟩, open_⟩)
      · exact bounded
  | loopIndex =>
    simp only [Machine.execute]
    split
    · next counter loops rest frames =>
      obtain ⟨positive, value⟩ :=
        bounded.counters _ (frames ▸ mem_cons_self) counter mem_cons_self
      exact bounded.with_acc (value.pred positive)
    · exact bounded
  | loopNext body =>
    simp only [Machine.execute]
    split
    · next frames =>
      obtain ⟨⟨positive, value⟩, others⟩ :=
        forall_mem_cons.mp (bounded.counters _ (frames ▸ mem_cons_self))
      split
      · next more =>
        exact bounded.with_loops frames
          (forall_mem_cons.mpr ⟨⟨more, value.pred positive⟩, others⟩)
      · exact bounded.with_loops frames others
    · exact bounded
  | call entry =>
    simp only [Machine.execute]
    split
    · exact bounded
    · refine { bounded with counters := ?_ }
      exact forall_mem_cons.mpr ⟨forall_mem_nil _, bounded.counters⟩
  | ret => exact bounded.leave
  | undefined => exact bounded

theorem round (pc : Int) : (m.round p pc).machine.Bounded p := by
  unfold Machine.round
  split
  · exact bounded.leave
  · split
    · exact bounded
    · next i found =>
      obtain ⟨position, -, here⟩ := Option.bind_eq_some_iff.mp found
      have counted : Bounded p { m with steps := m.steps + 1 } := { bounded with }
      dsimp only
      split
      · exact counted
      · exact counted.execute (Array.mem_of_getElem? here) pc

theorem run (rounds : Nat) (pc : Int) : (Machine.run p rounds m pc).2.Bounded p := by
  induction rounds generalizing m pc with
  | zero => exact bounded
  | succ rounds ih =>
    have one := bounded.round pc
    unfold Machine.run
    split
    · next pc' m' next =>
      rw [next] at one
      exact ih one pc'
    · next m' done =>
      rw [done] at one
      exact one
    · next why m' stopped =>
      rw [stopped] at one
      exact one

theorem entered (entry : Int) {args : List Int}
    (few : args.length ≤ m.params.count) : (m.entered p entry args).Bounded p where
  acc := bounded.acc
  temp := bounded.temp
  params _ _ get := by
    refine Registers.forall_fill (by simpa using few) (fun value member => ?_) bounded.params get
    obtain ⟨n, -, rfl⟩ := mem_map.mp member
    exact p.wrap_isWord n
  counters := forall_mem_cons.mpr ⟨nofun, nofun⟩

theorem callAt (entry : Int) (args : List Int) : (m.callAt p entry args).2.Bounded p := by
  by_cases few : args.length ≤ m.params.count
  · have whole := (bounded.entered entry few).run (rounds m.maxSteps) entry
    rw [callAt_eq_answer p entry few]
    unfold answer
    split
    · next m' ended =>
      rw [ended] at whole
      exact whole
    · next why m' ended =>
      rw [ended] at whole
      exact whole
  · rw [Machine.callAt, if_pos (Nat.not_le.mp few)]
    exact bounded

end Bounded

/-- The machine that a program is loaded into, if it can have that many registers. -/
def initial (p : Program) : Machine :=
  { memory := Memory.zeros.load (Memory.cell p.dataBase) p.data.toList
    params := Registers.zeros p.maxParams.toNat }

theorem load_ok_iff :
    load p = .ok m ↔
      (0 ≤ p.maxParams ∧ p.maxParams ≤ Registers.maxCount) ∧ initial p = m := by
  unfold load
  split
  · next unfit =>
    refine iff_of_false (by simp) fun ⟨fits, _⟩ => ?_
    omega
  · next fits =>
    rw [Except.ok.injEq]
    exact (and_iff_right (by omega)).symm

theorem initial_bounded (p : Program) : (initial p).Bounded p := by
  have zero := p.zero_isWord
  refine ⟨zero.isValue, zero.isValue, fun register n get => ?_, nofun⟩
  rw [initial, Registers.get?_zeros] at get
  split at get
  · exact Option.some.inj get ▸ zero
  · contradiction

/-! ## States that can be reached -/

/-- The states that a machine comes to from the loaded program on, between calls and in their
course, when it is called and its memory is written from outside. -/
inductive Reached (p : Program) : Machine → Prop
  | loaded {m : Machine} (loaded : load p = .ok m) : Reached p m
  | limited {m : Machine} (reached : Reached p m) (maxSteps : Int) :
    Reached p { m with maxSteps := maxSteps }
  | wordWritten {m : Machine} (reached : Reached p m) (address value : Int) :
    Reached p (m.setWord p address value)
  | byteWritten {m : Machine} (reached : Reached p m) (address value : Int) :
    Reached p (m.setByte address value)
  | called {m : Machine} (reached : Reached p m) (name : Text) (args : List Int) :
    Reached p (m.call p name args).2
  | calledAt {m : Machine} (reached : Reached p m) (entry : Int) (args : List Int) :
    Reached p (m.callAt p entry args).2
  /-- The state after a number of rounds of a call. -/
  | during {m : Machine} (reached : Reached p m) (entry : Int) {args : List Int}
    (few : args.length ≤ m.params.count) (rounds : Nat) :
    Reached p (run p rounds (m.entered p entry args) entry).2

theorem Reached.bounded (reached : m.Reached p) : m.Bounded p := by
  induction reached with
  | loaded loaded =>
    obtain ⟨-, rfl⟩ := load_ok_iff.mp loaded
    exact initial_bounded p
  | limited _ maxSteps ih => exact { ih with }
  | wordWritten _ address value ih => exact ih.setWord address value
  | byteWritten _ address value ih => exact ih.with_memory _
  | called _ name args ih =>
    unfold Machine.call
    split
    · exact ih
    · exact ih.callAt _ args
  | calledAt _ entry args ih => exact ih.callAt entry args
  | during _ entry few rounds ih => exact (ih.entered entry few).run rounds entry

/-- An integer that a machine holds in a register or as the counter of an open loop. -/
inductive Holds (m : Machine) : Int → Prop
  | acc : Holds m m.acc
  | temp : Holds m m.temp
  | param {register n : Int} (get : m.params.get? register = some n) : Holds m n
  | counter {frame : Frame} {n : Int} (active : frame ∈ m.frames) (running : n ∈ frame.loops) :
    Holds m n

theorem Bounded.isValue (bounded : m.Bounded p) {n : Int} (holds : m.Holds n) : p.IsValue n := by
  cases holds with
  | acc => exact bounded.acc
  | temp => exact bounded.temp
  | param get => exact (bounded.params _ n get).isValue
  | counter active running => exact (bounded.counters _ active n running).2

/-! ## Storing and loading -/

theorem byte_setByte (memory : Memory) (address : Int) (b : UInt8) (other : Int) :
    (memory.setByte address b).byte other =
      if Memory.cell address = Memory.cell other then b else memory.byte other :=
  Memory.get_setByte memory address b (Memory.cell_lt other)

/-- A word that was stored is loaded as it was stored, narrowed to its bits. -/
theorem word_setWord (sized : p.wordSize = 1 ∨ p.wordSize = 2) (address value : Int) :
    (m.setWord p address value).word p address = wrap p value := by
  have low (n : Int) : ((Memory.lowByte n).toNat : Int) = n % 256 := by
    rw [Memory.lowByte, UInt8.toNat_ofNat']
    omega
  have apart : Memory.cell (address + 1) ≠ Memory.cell address := by
    unfold Memory.cell
    omega
  rcases sized with one | two
  · have narrowed : (value % 256).bmod 256 = value.bmod 256 := Int.emod_bmod value 256
    simp [setWord, word, wrap, one, byte_setByte, low, narrowed]
  · have whole : ((Memory.lowByte value).toNat + 256 * (Memory.lowByte (value / 256)).toNat : Nat) =
        value % 65536 := by
      rw [Int.natCast_add, Int.natCast_mul, low, low]
      omega
    have narrowed : (value % 65536).bmod 65536 = value.bmod 65536 := Int.emod_bmod value 65536
    simp [setWord, word, wrap, two, byte_setByte, apart, whole, narrowed]

/-! ## Words stay words -/

/-- Where words have two bytes, or no bytes are loaded, a machine holds nothing but words, so that
storing the accumulator and loading it again does not change it. In any case the parameter registers
hold words, every other register and counter a word or a byte above the words, and storing the
accumulator and loading it again narrows it to a word. -/
theorem held_values_are_words (sized : p.wordSize = 1 ∨ p.wordSize = 2) (reached : m.Reached p) :
    (p.wordSize = 2 ∨ ¬p.LoadsBytes →
      (∀ n, m.Holds n → wrap p n = n) ∧
        ∀ address, (m.setWord p address m.acc).word p address = m.acc) ∧
    (∀ register n, m.params.get? register = some n → wrap p n = n) ∧
    (∀ n, m.Holds n → wrap p n = n ∨ 128 ≤ n ∧ n ≤ 255) ∧
    ∀ address, (m.setWord p address m.acc).word p address = wrap p m.acc := by
  have bounded := reached.bounded
  refine ⟨fun wide => ?_, bounded.params, fun n holds => (bounded.isValue holds).isWord_or,
    fun address => word_setWord sized address m.acc⟩
  have words (n : Int) (holds : m.Holds n) : p.IsWord n := (bounded.isValue holds).isWord wide
  exact ⟨words, fun address => (word_setWord sized address m.acc).trans (words m.acc .acc)⟩

/-- A byte is loaded through a pointer, and another one is stored in a variable and loaded again. -/
def peekText : List Text :=
  ["proc peek(p)", "p?0", "proc copy(p)", "p?0>$x", "$x"].map Text.ofString

/-- The program that `peekText` is assembled to with words of one byte. -/
def peekProgram : Program :=
  { code := #[.storeParam 0 0x2002, .load (.var 0x2002), .binary .add (.const 0),
      .loadIndirect .byte, .storeParam 0 0x2003, .load (.var 0x2003), .binary .add (.const 0),
      .loadIndirect .byte, .store 0x2001, .load (.var 0x2001)]
    data := #[0, 0, 0, 0]
    wordSize := 1
    procedures := [⟨"peek", 0x1000, 1⟩, ⟨"copy", 0x1004, 1⟩] }

/-- The machine after `peek` was called on a byte of 200. -/
def peekedMachine : Machine :=
  (((initial peekProgram).setByte 0 200).call peekProgram (Text.ofString "peek") [0]).2

theorem peekedMachine_reached : peekedMachine.Reached peekProgram :=
  .called (.byteWritten (.loaded (load_ok_iff.mpr ⟨by decide, rfl⟩)) 0 200) _ [0]

/-- The machine in the first round of a loop that was started with 300. -/
def loopingMachine : Machine :=
  (run nestedProgram 3 ((initial nestedProgram).entered nestedProgram 0x100b [300]) 0x100b).2

theorem loopingMachine_reached : loopingMachine.Reached nestedProgram :=
  .during (.loaded (load_ok_iff.mpr ⟨by decide, rfl⟩)) 0x100b (by decide) 3

theorem held_values_are_words_looping :
    (loopingMachine.Holds 300 ∧ (∀ n, loopingMachine.Holds n → wrap nestedProgram n = n) ∧
      ∀ address, (loopingMachine.setWord nestedProgram address loopingMachine.acc).word
        nestedProgram address = loopingMachine.acc) ∧
    (peekedMachine.Holds 200 ∧
      (∀ n, peekedMachine.Holds n → wrap peekProgram n = n ∨ 128 ≤ n ∧ n ≤ 255) ∧
      ∀ address, (peekedMachine.setWord peekProgram address peekedMachine.acc).word
        peekProgram address = -56) := by
  have counting : loopingMachine.frames = [⟨-1, 0x1012, [300]⟩] := by decide +kernel
  have peeked : peekedMachine.acc = 200 := by decide +kernel
  have words := held_values_are_words (by decide) loopingMachine_reached
  have values := held_values_are_words (by decide) peekedMachine_reached
  refine ⟨⟨.counter (counting ▸ List.mem_cons_self) List.mem_cons_self, words.1 (by decide)⟩,
    peeked ▸ .acc, values.2.2.1, fun address => ?_⟩
  rw [values.2.2.2 address, peeked]
  decide

/-- With words of one byte, a loaded byte above the words stays as it is in the accumulator, and
storing it in a variable and loading it again changes it. -/
theorem peekedMachine_holds_no_word :
    Assembly.program? { wordSize := 1 } [peekText] = some peekProgram ∧
    peekedMachine.Reached peekProgram ∧ peekedMachine.acc = 200 ∧
    wrap peekProgram peekedMachine.acc = -56 ∧
    (peekedMachine.setWord peekProgram 0x2001 peekedMachine.acc).word peekProgram 0x2001 = -56 :=
  ⟨by decide +kernel, peekedMachine_reached, by decide +kernel, by decide +kernel,
    by decide +kernel⟩

end Machine

end HighAsm
