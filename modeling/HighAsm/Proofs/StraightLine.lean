import HighAsm.Proofs.CodeAddress
import HighAsm.Proofs.Words

/-!
# Straight-line code

Most instructions only move data: they change the accumulator, the temporary register, the
parameter registers or memory, and control goes on at the next address. `Instr.effect?` is what
such an instruction does to these, and it is all that has to be known of it. Code made of them runs
through, one step an instruction, and leaves frames alone.

The code of an expression is of this kind. Carrying it out gives the accumulator and the memory of
the left-to-right evaluation, whatever its stores overwrite on the way.
-/

namespace HighAsm

/-- The part of a machine that plain instructions work on. -/
structure Core where
  memory : Memory
  acc : Int
  temp : Int
  params : Registers

namespace Machine

/-- The data of a machine. -/
def core (m : Machine) : Core := ⟨m.memory, m.acc, m.temp, m.params⟩

/-- The machine with other data, and the same frames and counters. -/
def withCore (m : Machine) (c : Core) : Machine :=
  { m with memory := c.memory, acc := c.acc, temp := c.temp, params := c.params }

end Machine

namespace Instr

/-- What a plain instruction does to the data of a machine. Nothing is returned for instructions
that steer control, and for those that name no operator or no register. -/
def effect? (size : Int) (c : Core) : Instr → Option Core
  | load source => some { c with acc := source.wordIn size c.memory }
  | loadIndirect .byte => some { c with acc := (c.memory.byte c.acc).toNat }
  | loadIndirect .word => some { c with acc := c.memory.wordAt size c.acc }
  | binary op right =>
    if op.isDefined then some { c with acc := op.combine size c.acc (right.wordIn size c.memory) }
    else none
  | store address => some { c with memory := c.memory.putWord size address c.acc }
  | storeIndirect .byte =>
    some { c with memory := c.memory.putByte c.acc c.temp, acc := c.temp }
  | storeIndirect .word =>
    some { c with memory := c.memory.putWord size c.acc c.temp, acc := c.temp }
  | copyToTemp => some { c with temp := c.acc }
  | loadParam register source =>
    (c.params.set? register (source.wordIn size c.memory)).map fun bank => { c with params := bank }
  | storeParam register address =>
    (c.params.get? register).map fun n => { c with memory := c.memory.putWord size address n }
  | jump _ _ | loopHead _ | loopIndex | loopNext _ | call _ | ret | undefined => none

/-- What plain instructions do one after the other. -/
def effects? (size : Int) : List Instr → Core → Option Core
  | [], c => some c
  | i :: rest, c => (i.effect? size c).bind (effects? size rest)

theorem effects?_append (size : Int) (first second : List Instr) (c : Core) :
    effects? size (first ++ second) c = (effects? size first c).bind (effects? size second) := by
  induction first generalizing c with
  | nil => rfl
  | cons i rest ih =>
    rw [List.cons_append, effects?, effects?, Option.bind_assoc]
    exact congrArg _ (funext ih)

/-- What a plain instruction crashes with if it has no effect. Some always have one. -/
def crash? : Instr → Option Crash
  | binary op _ => some (.undefinedOperator op.code)
  | load _ | loadIndirect _ | store _ | storeIndirect _ | copyToTemp => some .outsideCode
  | loadParam register _ | storeParam register _ => some (.noRegister register)
  | jump _ _ | loopHead _ | loopIndex | loopNext _ | call _ | ret | undefined => none

/-- A plain instruction has its effect, and control goes on at the next address, or it crashes. -/
theorem execute_plain {p : Program} {m : Machine} {i : Instr} {crash : Crash}
    (plain : i.crash? = some crash) (pc : Int) :
    m.execute p pc i = (i.effect? p.wordSize m.core).elim (.stopped (.crash crash) m)
      fun c => .next (wrap64 (pc + 1)) (m.withCore c) := by
  cases i with
  | load source =>
    simp only [Machine.execute, Machine.value_eq]
    rfl
  | loadIndirect width =>
    cases width with
    | byte => rfl
    | word =>
      simp only [Machine.execute, Machine.word_eq]
      rfl
  | binary op right =>
    cases plain
    rw [effect?]
    split
    · next defined =>
      obtain ⟨n, value, narrowed⟩ :=
        BinOp.eval?_narrowed defined p m.acc (right.wordIn p.wordSize m.memory)
      simp only [Machine.execute, Machine.value_eq, value, narrowed]
      rfl
    · next undefined =>
      cases op with
      | undefined code => rfl
      | _ => contradiction
  | store address =>
    simp only [Machine.execute, Machine.setWord_eq]
    rfl
  | storeIndirect width =>
    cases width with
    | byte =>
      simp only [Machine.execute, Machine.setByte_eq]
      rfl
    | word =>
      simp only [Machine.execute, Machine.setWord_eq]
      rfl
  | copyToTemp => rfl
  | loadParam register source =>
    cases plain
    simp only [Machine.execute, Machine.value_eq, effect?, Machine.core]
    cases m.params.set? register (source.wordIn p.wordSize m.memory) <;> rfl
  | storeParam register address =>
    cases plain
    simp only [Machine.execute, Machine.setWord_eq, effect?, Machine.core]
    cases m.params.get? register <;> rfl
  | jump _ _ | loopHead _ | loopIndex | loopNext _ | call _ | ret | undefined =>
    contradiction

/-- An instruction with an effect has it, and control goes on at the next address. -/
theorem execute_of_effect? {p : Program} {m : Machine} {i : Instr} {c : Core}
    (effect : i.effect? p.wordSize m.core = some c) (pc : Int) :
    m.execute p pc i = .next (wrap64 (pc + 1)) (m.withCore c) := by
  cases plain : i.crash? with
  | some crash =>
    rw [execute_plain plain, effect]
    rfl
  | none => cases i <;> contradiction

end Instr

/-! ## Expressions -/

/-- The operation does not use a code that names no operator. -/
def Operation.Defined : Operation → Prop
  | combine op _ => op.isDefined
  | store _ => True

/-- Every operator of the expression is one. -/
def Expression.Defined (e : Expression) : Prop := ∀ o ∈ e.operations, o.Defined

theorem Term.effects?_code (size : Int) (t : Term) (c : Core) :
    Instr.effects? size t.code c = some { c with acc := t.valueIn size c.memory } := by
  cases t with
  | simple operand => rfl
  | indexed base offset width => cases width <;> rfl

theorem Place.effects?_code (size : Int) (place : Place) (c : Core) :
    ∃ temp, Instr.effects? size place.code c =
      some { c with memory := place.put size c.memory c.acc, temp := temp } := by
  cases place with
  | direct address => exact ⟨c.temp, rfl⟩
  | indexed base offset width =>
    cases width with
    | byte | word => exact ⟨c.acc, rfl⟩

theorem Operation.effects?_code {o : Operation} (defined : o.Defined) (size : Int) (c : Core) :
    ∃ temp, Instr.effects? size o.code c =
      some { c with
        acc := (o.apply size (c.acc, c.memory)).1
        memory := (o.apply size (c.acc, c.memory)).2
        temp := temp } := by
  cases o with
  | combine op right =>
    refine ⟨c.temp, ?_⟩
    have named : op.isDefined := defined
    simp only [Operation.code, Instr.effects?, Instr.effect?, named, if_true]
    rfl
  | store place => exact place.effects?_code size c

/-- A chain of operations, each of which may overwrite what the next ones read. -/
theorem Operation.effects?_chain {operations : List Operation}
    (defined : ∀ o ∈ operations, o.Defined) (size : Int) (c : Core) :
    ∃ temp, Instr.effects? size (operations.flatMap Operation.code) c =
      some { c with
        acc := (operations.foldl (Operation.apply size) (c.acc, c.memory)).1
        memory := (operations.foldl (Operation.apply size) (c.acc, c.memory)).2
        temp := temp } := by
  induction operations generalizing c with
  | nil => exact ⟨c.temp, rfl⟩
  | cons o rest ih =>
    obtain ⟨temp, first⟩ := Operation.effects?_code (defined o List.mem_cons_self) size c
    obtain ⟨last, others⟩ := ih (fun o member => defined o (List.mem_cons_of_mem _ member))
      { c with
        acc := (o.apply size (c.acc, c.memory)).1
        memory := (o.apply size (c.acc, c.memory)).2
        temp := temp }
    refine ⟨last, ?_⟩
    rw [List.flatMap_cons, Instr.effects?_append, first, Option.bind_some, others]
    rfl

/-- The code of an expression leaves its value in the accumulator and its stores in memory. -/
theorem Expression.effects?_code {e : Expression} (defined : e.Defined) (size : Int) (c : Core) :
    ∃ temp, Instr.effects? size e.code c =
      some { c with
        acc := (e.evaluate size c.memory).1
        memory := (e.evaluate size c.memory).2
        temp := temp } := by
  obtain ⟨temp, others⟩ :=
    Operation.effects?_chain defined size { c with acc := e.first.valueIn size c.memory }
  refine ⟨temp, ?_⟩
  rw [Expression.code, Instr.effects?_append, Term.effects?_code, Option.bind_some, others]
  rfl

theorem Expression.code_ne_nil (e : Expression) : e.code ≠ [] := by
  rw [Expression.code]
  cases e.first <;> simp [Term.code]

end HighAsm
