import HighAsm.Proofs.Spelling
import HighAsm.Proofs.StraightLine

/-!
# The code of expressions

The instructions that the assembler emits for an accepted expression compute its left-to-right
value. `Machine.carryOut` carries out a list of instructions whatever machine it is given;
`Machine.advance` goes through rounds of a run. They agree on a stretch of code that lies inside the
running procedure and below the step limit.
-/

namespace HighAsm

namespace Machine

variable {m : Machine} {p : Program}

/-- Carries out instructions that follow each other from an address on, one step each. -/
def carryOut (p : Program) (m : Machine) (pc : Int) : List Instr → Outcome
  | [] => .next pc m
  | i :: rest =>
    match { m with steps := m.steps + 1 }.execute p pc i with
    | .next pc m => carryOut p m pc rest
    | other => other

/-- Goes through a number of rounds, unless the run ends before. -/
def advance (p : Program) : Nat → Machine → Int → Outcome
  | 0, m, pc => .next pc m
  | rounds + 1, m, pc =>
    match m.round p pc with
    | .next pc m => advance p rounds m pc
    | other => other

/-- A run that comes to a position is not cut short in the next instructions: neither does the
procedure end there, nor is the step limit reached. -/
def Uncut (p : Program) (m : Machine) (position count : Nat) : Prop :=
  (∀ k < count, m.atStop (codeAddress p.codeBase (position + k)) = false) ∧
    (0 < m.maxSteps → m.steps + count ≤ m.maxSteps)

/-- Plain code runs through with its effect, from one address to the one behind it. -/
theorem carryOut_of_effects? {code : List Instr} {c : Core}
    (effects : Instr.effects? p.wordSize code m.core = some c) (base : Int) (position : Nat) :
    m.carryOut p (codeAddress base position) code =
      .next (codeAddress base (position + code.length))
        ({ m with steps := m.steps + code.length }.withCore c) := by
  induction code generalizing m position with
  | nil =>
    cases effects
    rfl
  | cons i rest ih =>
    obtain ⟨d, first, others⟩ := Option.bind_eq_some_iff.mp effects
    have step := Instr.execute_of_effect? (m := { m with steps := m.steps + 1 }) first
      (codeAddress base position)
    rw [codeAddress_succ] at step
    simp only [carryOut, step]
    rw [ih (m := ({ m with steps := m.steps + 1 } : Machine).withCore d) others (position + 1)]
    simp only [List.length_cons, withCore]
    congr 2 <;> omega

theorem round_eq_execute (addressable : p.Addressable) {position : Nat} {i : Instr}
    (here : p.code[position]? = some i)
    (inside : m.atStop (codeAddress p.codeBase position) = false)
    (allowed : 0 < m.maxSteps → m.steps + 1 ≤ m.maxSteps) :
    m.round p (codeAddress p.codeBase position) =
      { m with steps := m.steps + 1 }.execute p (codeAddress p.codeBase position) i := by
  rw [round, inside, Program.instr?_codeAddress addressable here]
  simp only [Bool.false_eq_true, if_false]
  rw [if_neg]
  rintro ⟨limited, exceeded⟩
  omega

/-- Rounds of a run that is not cut short carry out the plain code that stands there. -/
theorem advance_eq_carryOut (addressable : p.Addressable) {code : List Instr} {c : Core}
    {position : Nat} (stands : p.HasCode position code)
    (effects : Instr.effects? p.wordSize code m.core = some c)
    (uncut : m.Uncut p position code.length) :
    m.advance p code.length (codeAddress p.codeBase position) =
      m.carryOut p (codeAddress p.codeBase position) code := by
  induction code generalizing m position with
  | nil => rfl
  | cons i rest ih =>
    obtain ⟨d, first, others⟩ := Option.bind_eq_some_iff.mp effects
    obtain ⟨inside, allowed⟩ := uncut
    simp only [List.length_cons] at inside allowed
    have here := round_eq_execute addressable stands.head (inside 0 (by omega)) (by omega)
    have step := Instr.execute_of_effect? (m := { m with steps := m.steps + 1 }) first
      (codeAddress p.codeBase position)
    rw [codeAddress_succ] at step
    simp only [List.length_cons, advance, carryOut, here, step]
    apply ih (m := ({ m with steps := m.steps + 1 } : Machine).withCore d) stands.tail others
    constructor
    · intro k within
      have later := inside (k + 1) (by omega)
      rw [show position + (k + 1) = position + 1 + k by omega] at later
      exact later
    · intro limited
      have := allowed limited
      simp only [withCore]
      omega

end Machine

namespace Scope

variable {lexemes : List Lexeme} {scope : Scope}

theorem SpellsOperation.defined {o : Operation} (spelled : scope.SpellsOperation lexemes o) :
    o.Defined := by
  cases spelled with
  | combine named => exact BinOp.isDefined_of_mark? named
  | store => trivial
  | storeIndexed => trivial

theorem SpellsOperations.defined {operations : List Operation}
    (spelled : scope.SpellsOperations lexemes operations) :
    ∀ o ∈ operations, o.Defined := by
  induction spelled with
  | nil => simp
  | cons first later ih =>
    intro o member
    rcases List.mem_cons.mp member with rfl | later
    · exact first.defined
    · exact ih o later

/-- An expression that is spelled uses no code that names no operator. -/
theorem Spells.defined {e : Expression} (spelled : scope.Spells lexemes e) : e.Defined := by
  obtain ⟨first, rest, -, -, operations⟩ := spelled
  exact operations.defined

end Scope

namespace Expression

/-- Lexemes that are accepted spell one expression. The instructions that are emitted for it are
appended to the code and nothing else. On every machine, carrying them out takes one step each and
ends at the address behind them, with the value of the expression in the accumulator and its stores
in memory; of the rest only the temporary register changes. A run that comes to them and is not cut
short there does just that. -/
theorem code_evaluates_left_to_right {scope : Scope} {lexemes : List Lexeme} {e : Expression}
    (accepted : scope.expression lexemes = .ok e) (b : Builder) (p : Program) (m : Machine) :
    (∀ e', scope.Spells lexemes e' ↔ e' = e) ∧
    (b.emitAll e.code).program = b.program.withCode (b.program.code.toList ++ e.code) ∧
    (∃ temp, m.carryOut p b.address e.code =
      .next (b.emitAll e.code).address
        { m with
          acc := (e.evaluate p.wordSize m.memory).1
          memory := (e.evaluate p.wordSize m.memory).2
          temp := temp
          steps := m.steps + e.code.length }) ∧
    (p.Addressable → p.codeBase = b.program.codeBase →
      p.HasCode b.program.code.size e.code → m.Uncut p b.program.code.size e.code.length →
      m.advance p e.code.length b.address = m.carryOut p b.address e.code) := by
  have spelled := Scope.expression_ok_iff.mp accepted
  obtain ⟨temp, effects⟩ := effects?_code spelled.defined p.wordSize m.core
  refine ⟨fun e' => ⟨fun other => ?_, ?_⟩, b.emitAll_program e.code, ⟨temp, ?_⟩, ?_⟩
  · have also := Scope.expression_ok_iff.mpr other
    exact Except.ok.inj (also.symm.trans accepted)
  · rintro rfl
    exact spelled
  · have carried := Machine.carryOut_of_effects? effects b.program.codeBase b.program.code.size
    rw [b.address_emitAll]
    exact carried
  · intro addressable sameBase stands uncut
    have agreed := Machine.advance_eq_carryOut addressable stands effects uncut
    rw [sameBase] at agreed
    exact agreed

/-- `p?i*2>p>p!1`, where the first store moves the pointer that the second one goes through. -/
def movedPointer : Expression :=
  ⟨.indexed 0x2000 (.var 0x2002) .byte,
    [.combine .mul (.const 2), .store (.direct 0x2000),
      .store (.indexed 0x2000 (.const 1) .word)]⟩

theorem code_evaluates_movedPointer :
    (Scope.mk {} ⟨"$return", [⟨"p", .data 0x2000⟩, ⟨"i", .data 0x2002⟩]⟩).expression
        [.ident "p", .mark .byteAt, .ident "i", .mark .star, .number 2, .mark .store, .ident "p",
          .mark .store, .ident "p", .mark .wordAt, .number 1] = .ok movedPointer ∧
      ∃ temp, ({ memory := .zeros, params := .zeros 4, frames := [⟨-1, 0x1009, []⟩] } :
          Machine).advance ((Builder.mk {} #[]).emitAll movedPointer.code).program 9 0x1000 =
        .next 0x1009
          { acc := (movedPointer.evaluate 2 .zeros).1
            memory := (movedPointer.evaluate 2 .zeros).2
            params := .zeros 4
            frames := [⟨-1, 0x1009, []⟩]
            temp := temp
            steps := 9 } := by
  have accepted := ok_of_toOption (show ((Scope.mk {} ⟨"$return",
      [⟨"p", .data 0x2000⟩, ⟨"i", .data 0x2002⟩]⟩).expression
      [.ident "p", .mark .byteAt, .ident "i", .mark .star, .number 2, .mark .store, .ident "p",
        .mark .store, .ident "p", .mark .wordAt, .number 1]).toOption = some movedPointer by
    decide +kernel)
  obtain ⟨-, -, ⟨temp, carried⟩, agreed⟩ := code_evaluates_left_to_right accepted
    (Builder.mk {} #[]) ((Builder.mk {} #[]).emitAll movedPointer.code).program
    { memory := .zeros, params := .zeros 4, frames := [⟨-1, 0x1009, []⟩] }
  refine ⟨accepted, temp, ?_⟩
  have uncut := agreed (by decide) rfl (by decide) ⟨by decide, by decide⟩
  exact uncut.trans carried

end Expression

end HighAsm
