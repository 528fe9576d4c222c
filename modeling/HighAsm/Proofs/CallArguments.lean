import HighAsm.Proofs.Fitting
import HighAsm.Proofs.Occurrences
import Mathlib.Data.List.Induction

/-!
# Arguments of calls

The instructions right before a call copy its arguments to registers, and nothing else does. So the
number of arguments that a call statement passes can be read off the code: it is the number of such
instructions in a row that end at the call.
-/

namespace HighAsm

open List

/-- The instruction copies an argument to a register. -/
def Instr.passes : Instr → Bool
  | loadParam _ _ => true
  | _ => false

/-- The instruction is one of an expression. -/
def Instr.Computes : Instr → Prop
  | load _ | loadIndirect _ | binary _ _ | store _ | storeIndirect _ | copyToTemp => True
  | _ => False

theorem Expression.computes (e : Expression) : ∀ i ∈ e.code, i.Computes := by
  have term (t : Term) : ∀ i ∈ t.code, i.Computes := by
    cases t <;> simp [Term.code, Instr.Computes]
  have operation (o : Operation) : ∀ i ∈ o.code, i.Computes := by
    rcases o with _ | (_ | _) <;> simp [Operation.code, Place.code, Instr.Computes]
  intro i member
  rcases mem_append.mp member with first | later
  · exact term e.first i first
  · obtain ⟨o, -, member⟩ := mem_flatMap.mp later
    exact operation o i member

theorem eq_of_mem_passArguments {i : Instr} {args : List Operand} {register : Nat}
    (member : i ∈ Assembly.passArguments register args) :
    ∃ number source, i = .loadParam number source := by
  induction args generalizing register with
  | nil => contradiction
  | cons arg rest ih =>
    rcases mem_cons.mp member with rfl | later
    · exact ⟨register, arg, rfl⟩
    · exact ih later

theorem eq_of_mem_storeParams {i : Instr} {places : List Int} {register : Nat}
    (member : i ∈ storeParams register places) : ∃ number place, i = .storeParam number place := by
  induction places generalizing register with
  | nil => contradiction
  | cons place rest ih =>
    rcases mem_cons.mp member with rfl | later
    · exact ⟨register, place, rfl⟩
    · exact ih later

namespace Program

/-- The number of arguments that are copied to registers right before a position. -/
def argumentsBefore (p : Program) : Nat → Nat
  | 0 => 0
  | k + 1 => if (p.code[k]?).any Instr.passes then p.argumentsBefore k + 1 else 0

/-- Every call passes at least as many arguments as the procedure at its target declares. -/
def PassesEnough (p : Program) : Prop :=
  ∀ k < p.code.size, ∀ entry ∈ (p.code[k]?).bind Instr.callee?, ∀ callee ∈ p.procedureAt? entry,
    callee.params ≤ p.argumentsBefore k

instance (p : Program) : Decidable p.PassesEnough :=
  inferInstanceAs (Decidable (∀ k < p.code.size, ∀ entry ∈ (p.code[k]?).bind Instr.callee?,
    ∀ callee ∈ p.procedureAt? entry, callee.params ≤ p.argumentsBefore k))

end Program

section Counting

variable {p : Program} {pos : Nat}

theorem argumentsBefore_plain {code : List Instr} (stands : p.HasCode pos code)
    (plain : ∀ i ∈ code, i.passes = false) (none_ : p.argumentsBefore pos = 0) :
    p.argumentsBefore (pos + code.length) = 0 := by
  cases length : code.length with
  | zero => exact none_
  | succ n =>
    have inside : n < code.length := by omega
    have last : p.code[pos + n]? = some code[n] := by
      rw [stands n inside, getElem?_eq_getElem inside]
    rw [← Nat.add_assoc, Program.argumentsBefore, last, Option.any_some,
      plain _ (getElem_mem inside), if_neg Bool.false_ne_true]

theorem argumentsBefore_passArguments {args : List Operand} {register : Nat}
    (stands : p.HasCode pos (Assembly.passArguments register args)) :
    p.argumentsBefore (pos + args.length) = p.argumentsBefore pos + args.length := by
  induction args generalizing pos register with
  | nil => rfl
  | cons arg rest ih =>
    have one : p.argumentsBefore (pos + 1) = p.argumentsBefore pos + 1 := by
      rw [Program.argumentsBefore, stands.head]
      rfl
    have others := ih stands.tail
    rw [one] at others
    rw [length_cons, Nat.add_comm rest.length, ← Nat.add_assoc, others, Nat.add_assoc]

theorem Expression.code_plain (e : Expression) : ∀ i ∈ e.code, i.passes = false := by
  intro i member
  have computes := e.computes i member
  cases i <;> first | rfl | contradiction

theorem Opening.enter_plain (o : Opening) (leave : Int) :
    ∀ i ∈ o.enter leave, i.passes = false := by
  have exit : (o.exit leave).passes = false := by cases o <;> rfl
  have start : ∀ i ∈ o.roundStart, i.passes = false := by
    cases o <;> simp [roundStart, Instr.passes]
  exact forall_mem_append.mpr ⟨o.expression.code_plain, forall_mem_cons.mpr ⟨exit, start⟩⟩

theorem Opening.back_plain (o : Opening) (base : Int) (position : Nat) :
    ∀ i ∈ o.back base position, i.passes = false := by
  cases o <;> simp [back, Instr.passes]

theorem storeParams_plain (places : List Int) (register : Nat) :
    ∀ i ∈ storeParams register places, i.passes = false := by
  intro i member
  obtain ⟨number, place, rfl⟩ := eq_of_mem_storeParams member
  rfl

/-- The code of a call statement stands at a position, with its arguments right before. -/
def Program.CallStands (p : Program) (entry : Int) (args : List Operand) : Prop :=
  ∃ k, p.code[k]? = some (.call entry) ∧ p.argumentsBefore k = args.length

/-- The calls of a text have their own arguments right before them, if there are none before the
text; and then there are none behind the text. -/
theorem TextAt.calls_stand {n : Nest} {stop : Nat} (text : TextAt p pos n stop)
    (none_ : p.argumentsBefore pos = 0) :
    p.argumentsBefore (pos + n.size) = 0 ∧ ∀ name entry declared args,
      Statement.call name entry declared args ∈ n.statements → p.CallStands entry args := by
  induction n generalizing pos with
  | nil => exact ⟨none_, by simp [Nest.statements]⟩
  | step s rest ih =>
    have stands := text.simple
    cases s with
    | ret =>
      have behind := argumentsBefore_plain stands (by simp [Simple.code, Instr.passes]) none_
      obtain ⟨last, calls⟩ := ih text.afterSimple behind
      rw [Nest.size, ← Nat.add_assoc]
      exact ⟨last, by simpa [Nest.statements, Simple.statement] using calls⟩
    | eval e =>
      have behind := argumentsBefore_plain stands e.code_plain none_
      obtain ⟨last, calls⟩ := ih text.afterSimple behind
      rw [Nest.size, ← Nat.add_assoc]
      exact ⟨last, by simpa [Nest.statements, Simple.statement] using calls⟩
    | call name entry declared args =>
      have here := stands.right.head
      have count := argumentsBefore_passArguments stands.left
      rw [length_passArguments] at here
      rw [none_, Nat.zero_add] at count
      have behind : p.argumentsBefore (pos + (args.length + 1)) = 0 := by
        rw [← Nat.add_assoc, Program.argumentsBefore, here]
        rfl
      have length : (Simple.call name entry declared args).code.length = args.length + 1 := by
        simp [Simple.code]
      have later := text.afterSimple
      rw [length] at later
      obtain ⟨last, calls⟩ := ih later behind
      rw [Nest.size, length, ← Nat.add_assoc]
      refine ⟨last, fun name' entry' declared' args' member => ?_⟩
      rcases mem_cons.mp member with same | member
      · obtain ⟨-, rfl, -, rfl⟩ := Statement.call.inj same
        exact ⟨pos + args'.length, here, count⟩
      · exact calls name' entry' declared' args' member
  | block o inner rest ihInner ihRest =>
    have entered := argumentsBefore_plain text.enter (o.enter_plain _) none_
    rw [Opening.length_enter] at entered
    obtain ⟨behind, inside⟩ := ihInner text.body entered
    rw [Nat.add_assoc] at behind
    have closed := argumentsBefore_plain text.back (o.back_plain _ _) behind
    rw [Opening.length_back, Nat.add_assoc] at closed
    obtain ⟨last, calls⟩ := ihRest text.after closed
    rw [Nest.size, ← Nat.add_assoc]
    refine ⟨last, fun name entry declared args member => ?_⟩
    rw [Nest.statements, mem_append, mem_cons, mem_cons] at member
    rcases member with (opens | member) | closes | member
    · cases o <;> contradiction
    · exact inside name entry declared args member
    · contradiction
    · exact calls name entry declared args member

end Counting

section Routines

variable {p : Program} {routines : List Routine}

theorem Placed.argumentsBefore_eq (made : p.MadeOf routines) {before after : List Routine}
    (split : routines = before ++ after) : p.argumentsBefore (Routine.extent before) = 0 := by
  induction before using List.reverseRecOn generalizing after with
  | nil => rfl
  | append_singleton before r ih =>
    have split : routines = before ++ r :: after := by simp [split]
    have placed : Placed routines (Routine.extent before) r := ⟨before, after, split, rfl⟩
    have stored := argumentsBefore_plain (placed.hasCode made).left
      (storeParams_plain r.places 0) (ih split)
    rw [length_storeParams] at stored
    obtain ⟨last, -⟩ := (placed.textAt made).calls_stand stored
    rw [Routine.extent_append, Routine.extent, Routine.extent, Nat.add_zero, Routine.size,
      ← Nat.add_assoc]
    exact last

/-- The calls of a routine have their own arguments right before them. -/
theorem Program.MadeOf.calls_stand (made : p.MadeOf routines) {r : Routine} (member : r ∈ routines)
    {name : String} {entry declared : Int} {args : List Operand}
    (calls : Statement.call name entry declared args ∈ r.body.statements) :
    p.CallStands entry args := by
  obtain ⟨before, after, split⟩ := append_of_mem member
  have placed : Placed routines (Routine.extent before) r := ⟨before, after, split, rfl⟩
  have stored := argumentsBefore_plain (placed.hasCode made).left (storeParams_plain r.places 0)
    (Placed.argumentsBefore_eq made split)
  rw [length_storeParams] at stored
  exact ((placed.textAt made).calls_stand stored).2 name entry declared args calls

end Routines

end HighAsm
