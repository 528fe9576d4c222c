import HighAsm.Proofs.Limits
import HighAsm.Proofs.Words

/-!
# Accesses to memory

Which cells of memory an instruction touches when words have two bytes: those of the variable that
it names, or those that the accumulator points to. Addresses count modulo the size of memory, so the
word at the last address has its low byte in the last cell and its high byte in the first.
-/

namespace HighAsm

namespace Memory

theorem cell_lt (address : Int) : cell address < size := by
  unfold cell size
  omega

theorem get_set (m : Memory) (value : UInt8) {k j : Nat} (inside : k < size) (small : j < size) :
    (m.set k value).get j = if k = j then value else m.get j := by
  have whole : Nat.pow 2 16 = size := rfl
  rw [CellTree.get_set, whole, Nat.mod_eq_of_lt inside, Nat.mod_eq_of_lt small]

theorem get_setByte (m : Memory) (address : Int) (value : UInt8) {k : Nat} (inside : k < size) :
    (m.setByte address value).get k = if cell address = k then value else m.get k :=
  get_set m value (cell_lt address) inside

end Memory

/-- An access to memory: whether it writes, how much it moves, and where. -/
structure Access where
  writes : Bool
  width : Width
  address : Int
  deriving DecidableEq, Repr

namespace Access

/-- The cells that an access touches. -/
def cells (a : Access) : List Nat :=
  match a.width with
  | .byte => [Memory.cell a.address]
  | .word => [Memory.cell a.address, Memory.cell (a.address + 1)]

/-- The two bytes of the word lie at the two ends of memory. -/
def Wraps (a : Access) : Prop := a.width = .word ∧ Memory.cell a.address = 0xffff

instance (a : Access) : Decidable a.Wraps :=
  inferInstanceAs (Decidable (a.width = .word ∧ Memory.cell a.address = 0xffff))

theorem cells_lt (a : Access) : ∀ k ∈ a.cells, k < Memory.size := by
  obtain ⟨writes, _ | _, address⟩ := a <;> simp [cells, Memory.cell_lt]

end Access

/-- The word that an operand reads from memory. -/
def Operand.access? : Operand → Option Access
  | const _ => none
  | var address => some ⟨false, .word, address⟩

namespace Instr

/-- The access that an instruction makes while the accumulator holds a value. -/
def access? (acc : Int) : Instr → Option Access
  | load source => source.access?
  | loadIndirect width => some ⟨false, width, acc⟩
  | binary _ right => right.access?
  | store address => some ⟨true, .word, address⟩
  | storeIndirect width => some ⟨true, width, acc⟩
  | loadParam _ source => source.access?
  | storeParam _ address => some ⟨true, .word, address⟩
  | copyToTemp | jump _ _ | loopHead _ | loopIndex | loopNext _ | call _ | ret | undefined => none

/-- The instruction accesses memory where the accumulator points. -/
def Indirect : Instr → Prop
  | loadIndirect _ | storeIndirect _ => True
  | _ => False

/-- The cells that an instruction touches while the accumulator holds a value. -/
def cells (acc : Int) (i : Instr) : List Nat := (i.access? acc).elim [] Access.cells

theorem cells_lt (acc : Int) (i : Instr) : ∀ k ∈ i.cells acc, k < Memory.size := by
  unfold cells
  cases i.access? acc with
  | none => simp
  | some access => exact access.cells_lt

end Instr

namespace Machine

/-- The outcome with another memory. -/
def Outcome.withMemory (memory : Memory) : Outcome → Outcome
  | next pc m => next pc { m with memory := memory }
  | done m => done { m with memory := memory }
  | stopped why m => stopped why { m with memory := memory }

/-- Some cells are all of memory that an instruction has to do with. On a memory that agrees in them
the machine does the same and leaves the same in them, and the other cells stay as they are. -/
def TouchesOnly (p : Program) (m : Machine) (pc : Int) (i : Instr) (cells : List Nat) : Prop :=
  ∀ memory : Memory, (∀ k ∈ cells, memory.get k = m.memory.get k) →
    ∃ memory', execute p { m with memory := memory } pc i =
        (execute p m pc i).withMemory memory' ∧
      ∀ k < Memory.size, memory'.get k =
        if k ∈ cells then (execute p m pc i).machine.memory.get k else memory.get k

section Touching

variable {p : Program} {m : Machine} {memory : Memory}

theorem wordAt_congr (address : Int)
    (agree : ∀ k ∈ (Access.mk false .word address).cells, memory.get k = m.memory.get k) :
    memory.wordAt 2 address = m.memory.wordAt 2 address := by
  have low : memory.byte address = m.memory.byte address := agree _ (by simp [Access.cells])
  have high : memory.byte (address + 1) = m.memory.byte (address + 1) :=
    agree _ (by simp [Access.cells])
  simp only [Memory.wordAt, low, high]

theorem wordIn_congr (source : Operand)
    (agree : ∀ k ∈ source.access?.elim [] Access.cells, memory.get k = m.memory.get k) :
    source.wordIn 2 memory = source.wordIn 2 m.memory := by
  cases source with
  | const n => rfl
  | var address => exact wordAt_congr address agree

theorem get_putByte (address value : Int) {k : Nat} (inside : k < Memory.size) :
    (memory.putByte address value).get k =
      if k ∈ (Access.mk true .byte address).cells then (m.memory.putByte address value).get k
      else memory.get k := by
  simp only [Memory.putByte, Memory.get_setByte _ _ _ inside, Access.cells, List.mem_singleton]
  grind

theorem get_putWord (address value : Int) {k : Nat} (inside : k < Memory.size) :
    (memory.putWord 2 address value).get k =
      if k ∈ (Access.mk true .word address).cells then (m.memory.putWord 2 address value).get k
      else memory.get k := by
  have split (m : Memory) : m.putWord 2 address value =
      (m.putByte address value).putByte (address + 1) (value >>> (8 : Nat)) := rfl
  simp only [split, Memory.putByte, Memory.get_setByte _ _ _ inside, Access.cells, List.mem_cons,
    List.not_mem_nil]
  grind

/-- An instruction that leaves memory as it is, and does the same on another memory, touches only
cells in which the two agree. -/
theorem touches_of_reads {pc : Int} {i : Instr}
    (agree : ∀ k ∈ i.cells m.acc, memory.get k = m.memory.get k)
    (same : execute p { m with memory := memory } pc i = (execute p m pc i).withMemory memory)
    (kept : (execute p m pc i).machine.memory = m.memory) :
    ∃ memory', execute p { m with memory := memory } pc i =
        (execute p m pc i).withMemory memory' ∧
      ∀ k < Memory.size, memory'.get k =
        if k ∈ i.cells m.acc then (execute p m pc i).machine.memory.get k else memory.get k := by
  refine ⟨memory, same, ?_⟩
  intro k _
  rw [kept]
  split
  · next touched => exact agree k touched
  · rfl

/-- An instruction touches no more than the cells of its access. -/
theorem execute_touchesOnly (twoBytes : p.wordSize = 2) (pc : Int) (i : Instr) :
    m.TouchesOnly p pc i (i.cells m.acc) := by
  intro memory agree
  cases i with
  | load source =>
    apply touches_of_reads agree
    · simp only [execute, value_eq, twoBytes, wordIn_congr source agree]
      rfl
    · rfl
  | loadIndirect width =>
    cases width with
    | byte =>
      have same : memory.byte m.acc = m.memory.byte m.acc :=
        agree _ (List.mem_singleton.mpr rfl)
      apply touches_of_reads agree
      · simp only [execute, same]
        rfl
      · rfl
    | word =>
      apply touches_of_reads agree
      · simp only [execute, word_eq, twoBytes, wordAt_congr m.acc agree]
        rfl
      · rfl
  | binary op right =>
    apply touches_of_reads agree
    · simp only [execute, value_eq, twoBytes, wordIn_congr right agree]
      cases op.eval? m.acc (right.wordIn 2 m.memory) <;> rfl
    · simp only [execute]
      cases op.eval? m.acc (m.value p right) <;> rfl
  | store address =>
    refine ⟨memory.putWord 2 address m.acc, ?_, ?_⟩
    · simp only [execute, setWord_eq, twoBytes]
      rfl
    · intro k inside
      simp only [execute, setWord_eq, twoBytes]
      exact get_putWord address m.acc inside
  | storeIndirect width =>
    cases width with
    | byte =>
      refine ⟨memory.putByte m.acc m.temp, ?_, ?_⟩
      · simp only [execute, setByte_eq]
        rfl
      · intro k inside
        simp only [execute, setByte_eq]
        exact get_putByte m.acc m.temp inside
    | word =>
      refine ⟨memory.putWord 2 m.acc m.temp, ?_, ?_⟩
      · simp only [execute, setWord_eq, twoBytes]
        rfl
      · intro k inside
        simp only [execute, setWord_eq, twoBytes]
        exact get_putWord m.acc m.temp inside
  | loadParam register source =>
    apply touches_of_reads agree
    · simp only [execute, value_eq, twoBytes, wordIn_congr source agree]
      cases m.params.set? register (source.wordIn 2 m.memory) <;> rfl
    · simp only [execute]
      cases m.params.set? register (m.value p source) <;> rfl
  | storeParam register address =>
    simp only [execute]
    cases m.params.get? register with
    | none =>
      refine ⟨memory, rfl, ?_⟩
      intro k _
      split
      · next touched => exact agree k touched
      · rfl
    | some n =>
      refine ⟨memory.putWord 2 address n, ?_, ?_⟩
      · simp only [setWord_eq, twoBytes]
        rfl
      · intro k inside
        simp only [setWord_eq, twoBytes]
        exact get_putWord address n inside
  | copyToTemp | jump _ _ | undefined => exact touches_of_reads agree rfl rfl
  | loopHead =>
    apply touches_of_reads agree <;>
      · simp only [execute]
        split
        · rfl
        · obtain ⟨_, _, _, _, _, _ | _, _⟩ := m <;> rfl
  | loopIndex =>
    apply touches_of_reads agree <;>
      · obtain ⟨_, _, _, _, _, _ | ⟨⟨_, _, _ | _⟩, _⟩, _⟩ := m <;> rfl
  | loopNext =>
    apply touches_of_reads agree <;>
      · obtain ⟨_, _, _, _, _, _ | ⟨⟨_, _, _ | _⟩, _⟩, _⟩ := m
        · rfl
        · rfl
        · simp only [execute]
          split <;> rfl
  | call =>
    apply touches_of_reads agree <;>
      · simp only [execute]
        split <;> rfl
  | ret =>
    apply touches_of_reads agree <;>
      · obtain ⟨_, _, _, _, _, _ | ⟨_, _ | _⟩, _⟩ := m <;> rfl

end Touching

/-! ## No cell less -/

/-- A cell is one that an instruction has to do with. With some memory, and with some accumulator
where that does not choose the cells, all the other cells together are not enough. -/
def Touches (p : Program) (m : Machine) (pc : Int) (i : Instr) (k : Nat) : Prop :=
  ∃ acc memory, (i.Indirect → acc = m.acc) ∧
    ¬ TouchesOnly p { m with acc := acc, memory := memory } pc i
      ((List.range Memory.size).filter (· ≠ k))

/-- A memory with zeros in all cells but one. -/
def marked (k : Nat) : Memory := Memory.zeros.set k 3

section Needed

variable {p : Program} {m : Machine} {pc : Int} {i : Instr} {k : Nat}

theorem get_set_others (memory : Memory) (value : UInt8) (inside : k < Memory.size) :
    ∀ other ∈ (List.range Memory.size).filter (· ≠ k),
      (memory.set k value).get other = memory.get other := by
  intro other member
  obtain ⟨small, apart⟩ := List.mem_filter.mp member
  rw [Memory.get_set memory value inside (List.mem_range.mp small),
    if_neg (Ne.symm (of_decide_eq_true apart))]

theorem Outcome.machine_withMemory (memory : Memory) (o : Outcome) :
    (o.withMemory memory).machine = { o.machine with memory := memory } := by
  cases o <;> rfl

/-- A cell in which the same is left, whatever was there, is touched. -/
theorem touches_of_written (inside : k < Memory.size) (value : UInt8)
    (written : ∀ memory,
      (execute p { m with memory := memory } pc i).machine.memory.get k = value) :
    m.Touches p pc i k := by
  refine ⟨m.acc, m.memory, fun _ => rfl, fun only => ?_⟩
  obtain ⟨memory, same, kept⟩ := only (m.memory.set k (value + 1)) (get_set_others _ _ inside)
  have absent : k ∉ (List.range Memory.size).filter (· ≠ k) := by simp
  have left := written (m.memory.set k (value + 1))
  rw [same, Outcome.machine_withMemory, kept k inside, if_neg absent,
    Memory.get_set _ _ inside inside, if_pos rfl] at left
  grind

theorem touches_of_putWord {address n : Int}
    (touched : k ∈ (Access.mk true .word address).cells)
    (put : ∀ memory, (execute p { m with memory := memory } pc i).machine.memory =
      memory.putWord 2 address n) : m.Touches p pc i k := by
  have inside := Access.cells_lt _ k touched
  apply touches_of_written inside ((m.memory.putWord 2 address n).get k)
  intro memory
  rw [put, get_putWord (m := m) address n inside, if_pos touched]

/-- A cell is touched if the machine shows outside of memory what is in it. -/
theorem touches_of_read (inside : k < Memory.size) {n : Int} (held : i.Indirect → n = m.acc)
    {α : Type} (shown : Machine → α)
    (blind : ∀ m memory, shown { m with memory := memory } = shown m)
    (differ : shown (execute p { m with acc := n, memory := marked k } pc i).machine ≠
      shown (execute p { m with acc := n, memory := Memory.zeros } pc i).machine) :
    m.Touches p pc i k := by
  refine ⟨n, Memory.zeros, held, fun only => differ ?_⟩
  obtain ⟨memory, same, -⟩ := only (marked k) (get_set_others _ _ inside)
  rw [same, Outcome.machine_withMemory, blind]

theorem byte_zeros (address : Int) : Memory.zeros.byte address = 0 := CellTree.get_fill 0 16 _

theorem byte_marked (inside : k < Memory.size) (address : Int) :
    (marked k).byte address = if k = Memory.cell address then 3 else 0 :=
  (Memory.get_set _ _ inside (Memory.cell_lt address)).trans (by rw [← byte_zeros address]; rfl)

theorem wordAt_zeros (address : Int) : Memory.zeros.wordAt 2 address = 0 := by
  simp [Memory.wordAt, byte_zeros]

theorem wordAt_marked {address : Int} (touched : k ∈ (Access.mk false .word address).cells) :
    (marked k).wordAt 2 address = 3 ∨ (marked k).wordAt 2 address = 768 := by
  have apart : Memory.cell address ≠ Memory.cell (address + 1) := by
    unfold Memory.cell
    omega
  have inside := Access.cells_lt _ k touched
  simp only [Access.cells, List.mem_cons, List.not_mem_nil, or_false] at touched
  obtain rfl | rfl := touched <;> simp [Memory.wordAt, byte_marked inside, apart, apart.symm]

theorem wordAt_marked_ne {address : Int} (touched : k ∈ (Access.mk false .word address).cells) :
    (marked k).wordAt 2 address ≠ Memory.zeros.wordAt 2 address := by
  rw [wordAt_zeros]
  obtain low | high := wordAt_marked touched <;> omega

/-- An instruction that is carried out touches every cell of its access. -/
theorem execute_touches (twoBytes : p.wordSize = 2) {next : Int} {m' : Machine}
    (carried : m.execute p pc i = .next next m') : ∀ k ∈ i.cells m.acc, m.Touches p pc i k := by
  intro k touched
  have inside := i.cells_lt m.acc k touched
  cases i with
  | load source =>
    cases source with
    | const => contradiction
    | var address =>
      apply touches_of_read inside (fun _ => rfl) (·.acc) fun _ _ => rfl
      simp only [execute, value_eq, twoBytes]
      exact wordAt_marked_ne touched
  | loadIndirect width =>
    apply touches_of_read inside (fun _ => rfl) (·.acc) fun _ _ => rfl
    cases width with
    | byte =>
      obtain rfl := List.mem_singleton.mp touched
      simp [execute, Outcome.machine, byte_marked inside, byte_zeros]
    | word =>
      simp only [execute, word_eq, twoBytes]
      exact wordAt_marked_ne touched
  | binary op right =>
    cases right with
    | const => contradiction
    | var address =>
      -- One accumulator lets every operator tell the words from zero.
      apply touches_of_read inside (n := 1282) False.elim (·.acc) fun _ _ => rfl
      simp only [execute, value_eq, twoBytes, Operand.wordIn, wordAt_zeros]
      have wide (n : Int) : wrap p n = n.bmod 65536 := by simp [wrap, twoBytes]
      cases op with
      | undefined => contradiction
      | _ =>
        obtain mark | mark := wordAt_marked touched <;>
          · simp only [mark, BinOp.eval?, Outcome.machine, wide]
            decide
  | loadParam register source =>
    cases source with
    | const => contradiction
    | var address =>
      have bank : 0 ≤ register ∧ register < m.params.count := by
        refine Decidable.byContradiction fun outside => ?_
        simp [execute, Registers.set?, outside] at carried
      apply touches_of_read inside (fun _ => rfl) (·.params.get? register) fun _ _ => rfl
      simp only [execute, value_eq, twoBytes, Registers.set?, if_pos bank]
      intro same
      have told (n : Int) : _ = some n :=
        (Registers.get?_set? (if_pos bank : m.params.set? register n = _) register).trans
          (if_pos rfl)
      exact wordAt_marked_ne touched (Option.some.inj ((told _).symm.trans (same.trans (told _))))
  | store address =>
    apply touches_of_putWord touched (n := m.acc)
    simp [execute, setWord_eq, twoBytes, Outcome.machine]
  | storeIndirect width =>
    cases width with
    | byte =>
      apply touches_of_written inside ((m.memory.putByte m.acc m.temp).get k)
      intro memory
      simp only [execute, setByte_eq]
      exact (get_putByte m.acc m.temp inside).trans (if_pos touched)
    | word =>
      apply touches_of_putWord touched (n := m.temp)
      simp [execute, setWord_eq, twoBytes, Outcome.machine]
  | storeParam register address =>
    simp only [execute] at carried
    cases found : m.params.get? register with
    | none => simp [found] at carried
    | some n =>
      apply touches_of_putWord touched (n := n)
      simp [execute, found, setWord_eq, twoBytes, Outcome.machine]
  | copyToTemp | jump _ _ | loopHead _ | loopIndex | loopNext _ | call _ | ret | undefined =>
    contradiction

end Needed

end Machine

end HighAsm
