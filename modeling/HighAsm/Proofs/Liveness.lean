import HighAsm.Proofs.OpenLoops

/-!
# Registers that matter

A register matters at a place of a routine if it is read from there on before it is written. The
code of a statement writes every register before it reads it, so none matters where a statement
begins or ends, and control goes only to such places (`Placed.rests`). At the entry of a routine its
parameters matter, and a call that passes enough arguments writes all of them.
-/

namespace HighAsm

open List Opening

/-- A register of the machine. -/
inductive Register
  | acc
  | temp
  | param (number : Int)
  deriving DecidableEq, Repr

namespace Instr

/-- An instruction reads a register. A call reads the parameters of the procedure at its target. -/
def Reads (p : Program) (reg : Register) : Instr → Prop
  | loadIndirect _ | binary _ _ | store _ | copyToTemp | loopHead _ => reg = .acc
  | storeIndirect _ => reg = .acc ∨ reg = .temp
  | storeParam number _ => reg = .param number
  | jump test _ => test ≠ .always ∧ reg = .acc
  | call entry => ∃ callee number, p.procedureAt? entry = some callee ∧ reg = .param number ∧
      0 ≤ number ∧ number < callee.params
  | load _ | loadParam _ _ | loopIndex | loopNext _ | ret | undefined => False

/-- An instruction writes a register. -/
def Writes (reg : Register) : Instr → Prop
  | load _ | loadIndirect _ | binary _ _ | storeIndirect _ | loopIndex => reg = .acc
  | copyToTemp => reg = .temp
  | loadParam number _ => reg = .param number
  | store _ | storeParam _ _ | jump _ _ | loopHead _ | loopNext _ | call _ | ret | undefined =>
    False

/-- A register matters before instructions, given which ones matter behind them. -/
def Matters (p : Program) (behind : Register → Prop) (reg : Register) : List Instr → Prop
  | [] => behind reg
  | i :: rest => i.Reads p reg ∨ ¬ i.Writes reg ∧ Matters p behind reg rest

theorem matters_append {p : Program} {behind : Register → Prop} {reg : Register}
    (first second : List Instr) :
    Matters p behind reg (first ++ second) ↔
      Matters p (fun r => Matters p behind r second) reg first := by
  induction first with
  | nil => exact Iff.rfl
  | cons i rest ih => simp only [cons_append, Matters, ih]

end Instr

open Instr (Matters)

/-! ## The code of statements -/

section Code

variable {p : Program} {behind : Register → Prop} {reg : Register}

theorem Term.matters (t : Term) (only : ∀ r, behind r → r = .acc) :
    ¬ Matters p behind reg t.code := by
  cases t <;> simp only [Term.code, Matters, Instr.Reads, Instr.Writes] <;> tauto

theorem Operation.matters (o : Operation) (only : ∀ r, behind r → r = .acc)
    (matters : Matters p behind reg o.code) : reg = .acc := by
  rcases o with _ | (_ | _) <;>
    simp only [Operation.code, Place.code, Matters, Instr.Reads, Instr.Writes] at matters <;> tauto

theorem operations_matter (operations : List Operation) (only : ∀ r, behind r → r = .acc)
    (matters : Matters p behind reg (operations.flatMap Operation.code)) : reg = .acc := by
  induction operations generalizing reg with
  | nil => exact only reg matters
  | cons o rest ih =>
    rw [flatMap_cons, Instr.matters_append] at matters
    exact o.matters (fun _ => ih) matters

/-- An expression begins by writing the accumulator, and it writes the temporary register before it
reads it. -/
theorem Expression.matters (e : Expression) (only : ∀ r, behind r → r = .acc) :
    ¬ Matters p behind reg e.code := by
  rw [code, Instr.matters_append]
  exact e.first.matters fun _ => operations_matter e.operations only

theorem passArguments_matter {args : List Operand} {register : Nat}
    (matters : Matters p behind reg (Assembly.passArguments register args)) :
    behind reg ∧ ∀ number : Int, reg = .param number →
      number < register ∨ register + args.length ≤ number := by
  induction args generalizing register with
  | nil => exact ⟨matters, fun number _ => by simp only [length_nil]; omega⟩
  | cons arg rest ih =>
    rcases matters with reads | ⟨other, later⟩
    · exact reads.elim
    · obtain ⟨behind, outside⟩ := ih later
      refine ⟨behind, fun number same => ?_⟩
      have apart : number ≠ register := fun equal => other (same.trans (by rw [equal]))
      have := outside number same
      simp only [length_cons]
      omega

theorem storeParams_matter {places : List Int} {register : Nat}
    (matters : Matters p behind reg (storeParams register places)) :
    behind reg ∨ ∃ number : Int, reg = .param number ∧ register ≤ number ∧
      number < register + places.length := by
  induction places generalizing register with
  | nil => exact .inl matters
  | cons place rest ih =>
    simp only [length_cons]
    rcases matters with reads | ⟨-, later⟩
    · exact .inr ⟨register, reads, by omega, by omega⟩
    · rcases ih later with behind | ⟨number, same, least, most⟩
      · exact .inl behind
      · exact .inr ⟨number, same, by omega, by omega⟩

/-- A call statement passes all parameters of the procedure at its target. -/
def Statement.Supplies (p : Program) : Statement → Prop
  | .call _ entry _ args => ∀ callee ∈ p.procedureAt? entry, callee.params ≤ args.length
  | _ => True

theorem Simple.matters {s : Simple} (supplies : s.statement.Supplies p) (none_ : ∀ r, ¬ behind r) :
    ¬ Matters p behind reg s.code := by
  cases s with
  | ret => exact fun matters => matters.elim id fun later => none_ reg later.2
  | eval e => exact e.matters fun r holds => absurd holds (none_ r)
  | call name entry declared args =>
    intro matters
    rw [code, Instr.matters_append] at matters
    obtain ⟨called, outside⟩ := passArguments_matter matters
    rcases called with ⟨callee, number, found, same, least, most⟩ | ⟨-, later⟩
    · have few : callee.params ≤ args.length := supplies callee found
      have := outside number same
      omega
    · exact none_ reg later

theorem Opening.matters_roundStart (o : Opening) (none_ : ∀ r, ¬ behind r) :
    ¬ Matters p behind reg o.roundStart := by
  rcases o with _ | _ | ⟨_, _ | _⟩ <;>
    simp only [roundStart, Option.toList, List.map, Matters, Instr.Reads, Instr.Writes] <;> tauto

theorem Opening.matters_enter (o : Opening) (leave : Int) (none_ : ∀ r, ¬ behind r) :
    ¬ Matters p behind reg (o.enter leave) := by
  rw [enter, Instr.matters_append]
  refine o.expression.matters fun r matters => ?_
  rcases matters with reads | ⟨-, later⟩
  · cases o with
    | ifBlock | whileLoop => exact reads.2
    | forLoop => exact reads
  · exact absurd later (o.matters_roundStart none_)

theorem Opening.matters_back (o : Opening) {base : Int} {position : Nat}
    (none_ : ∀ r, ¬ behind r) : ¬ Matters p behind reg (o.back base position) := by
  cases o <;> simp only [back, Matters, Instr.Reads, Instr.Writes] <;> tauto

end Code

/-! ## Places in a program -/

namespace Program

/-- A register matters at a position of a routine that stops at another one. -/
def Live (p : Program) (stop position : Nat) (reg : Register) : Prop :=
  Matters p (fun _ => False) reg ((p.code.toList.drop position).take (stop - position))

/-- No register matters at a position. -/
def Quiet (p : Program) (stop position : Nat) : Prop := ∀ reg, ¬ p.Live stop position reg

variable {p : Program} {stop position : Nat} {reg : Register}

theorem quiet_stop (p : Program) (stop : Nat) : p.Quiet stop stop := by
  intro reg live
  rw [Live, Nat.sub_self, take_zero] at live
  exact live

theorem live_iff {i : Instr} (here : p.code[position]? = some i) (before : position < stop) :
    p.Live stop position reg ↔ i.Reads p reg ∨ ¬ i.Writes reg ∧ p.Live stop (position + 1) reg := by
  have split : p.code.toList.drop position = i :: p.code.toList.drop (position + 1) := by
    obtain ⟨inside, rfl⟩ := Array.getElem?_eq_some_iff.mp here
    rw [drop_eq_getElem_cons (by simpa using inside), Array.getElem_toList]
  rw [Live, split, show stop - position = stop - (position + 1) + 1 by omega, take_succ_cons]
  rfl

section

variable {code : List Instr} (stands : p.HasCode position code)
  (fits : position + code.length ≤ stop)
include stands fits

theorem live_through :
    p.Live stop position reg ↔ Matters p (p.Live stop (position + code.length)) reg code := by
  induction code generalizing position with
  | nil => rfl
  | cons i rest ih =>
    rw [length_cons] at fits ⊢
    rw [live_iff stands.head (by omega), ih stands.tail (by omega), Matters, Nat.add_assoc,
      Nat.add_comm 1]

/-- No register matters before code that writes what it reads. -/
theorem quiet_of_code (quiet : ∀ reg, ¬ Matters p (p.Live stop (position + code.length)) reg code) :
    p.Quiet stop position :=
  fun reg live => quiet reg ((live_through stands fits).mp live)

end

/-- An address is that of a position of a routine at which no register matters, and which has some
loops around it. -/
def LeadsQuiet (p : Program) (start stop : Nat) (around : List Nat) (target : Int) : Prop :=
  ∃ position, start ≤ position ∧ position ≤ stop ∧ target = codeAddress p.codeBase position ∧
    p.Quiet stop position ∧ p.loopsAt start position = around

end Program

/-- Control goes to places where no register matters, without leaving or entering a loop, and comes
back to a place where no register matters. -/
structure Instr.Rests (p : Program) (start stop position : Nat) (i : Instr) : Prop where
  targets : ∀ target ∈ Program.targetOf? i,
    p.LeadsQuiet start stop (p.loopsAt start position) target
  returns : ∀ entry ∈ i.callee?, p.Quiet stop (position + 1)

/-- The instruction has no target. -/
def Instr.Straight (i : Instr) : Prop := Program.targetOf? i = none ∧ i.callee? = none

theorem Instr.Straight.rests {p : Program} {start stop position : Nat} {i : Instr}
    (straight : i.Straight) : i.Rests p start stop position :=
  ⟨by simp [straight.1], by simp [straight.2]⟩

theorem Instr.rests_of_target {p : Program} {start stop position : Nat} {i : Instr} {target : Int}
    (goes : Program.targetOf? i = some target) (calls : i.callee? = none)
    (quiet : p.LeadsQuiet start stop (p.loopsAt start position) target) :
    i.Rests p start stop position :=
  ⟨by simpa [goes] using quiet, by simp [calls]⟩

section Texts

variable {p : Program} {start stop position : Nat} {o : Opening} {i : Instr} {k : Nat} {leave : Int}

theorem Expression.straight (e : Expression) : ∀ i ∈ e.code, i.Straight := by
  intro i member
  have computes := e.computes i member
  cases i <;> first | exact ⟨rfl, rfl⟩ | contradiction

section

variable (stands : p.HasCode position (o.enter leave)) (fits : position + o.enterSize ≤ stop)
  (behind : p.Quiet stop (position + o.enterSize))
include stands fits behind

theorem Opening.quiet_enter : p.Quiet stop position := by
  rw [← o.length_enter leave] at fits behind
  exact Program.quiet_of_code stands fits fun _ => o.matters_enter leave behind

theorem Opening.quiet_round : p.Quiet stop (position + o.expression.code.length + 1) := by
  unfold enterSize at fits behind
  rw [← Nat.add_assoc, ← Nat.add_assoc] at fits behind
  exact Program.quiet_of_code stands.right.tail fits fun _ => o.matters_roundStart behind

end

theorem Opening.quiet_back {first : Nat} (stands : p.HasCode position (o.back p.codeBase first))
    (fits : position + o.backSize ≤ stop) (behind : p.Quiet stop (position + o.backSize)) :
    p.Quiet stop position := by
  rw [← o.length_back p.codeBase first] at fits behind
  exact Program.quiet_of_code stands fits fun _ => o.matters_back behind

/-- No register matters where a text begins if none does where it ends. -/
theorem TextAt.quiet {n : Nest} (text : TextAt p position n stop)
    (supplied : ∀ s ∈ n.statements, s.Supplies p) (behind : p.Quiet stop (position + n.size)) :
    p.Quiet stop position := by
  induction n generalizing position with
  | nil => exact behind
  | step s rest ih =>
    have fits := text.fits
    rw [Nest.size] at fits behind
    have after : p.Quiet stop (position + s.code.length) := by
      refine ih text.afterSimple (fun t member => supplied t (mem_cons_of_mem _ member)) ?_
      rwa [Nat.add_assoc]
    exact Program.quiet_of_code text.simple (by omega) fun reg =>
      Simple.matters (supplied _ mem_cons_self) after
  | block o inner tail ihInner ihTail =>
    have fits := text.fits
    rw [Nest.size] at fits behind
    have after : p.Quiet stop (position + (o.enterSize + inner.size + o.backSize)) := by
      refine ihTail text.after (fun t member => supplied t ?_) (by rwa [Nat.add_assoc])
      simp [Nest.statements, member]
    have ended : p.Quiet stop (position + (o.enterSize + inner.size)) :=
      quiet_back text.back (by omega) (by rwa [Nat.add_assoc])
    have entered : p.Quiet stop (position + o.enterSize) := by
      refine ihInner text.body (fun t member => supplied t ?_) (by rwa [Nat.add_assoc])
      simp [Nest.statements, member]
    exact quiet_enter text.enter (by omega) entered

theorem Program.HasCode.mem {code : List Instr} (stands : p.HasCode position code)
    (least : position ≤ k) (most : k < position + code.length) (here : p.code[k]? = some i) :
    i ∈ code := by
  have there := stands (k - position) (by omega)
  rw [Nat.add_sub_cancel' least, here] at there
  exact mem_of_getElem? there.symm

theorem passArguments_straight (args : List Operand) (register : Nat) :
    ∀ i ∈ Assembly.passArguments register args, i.Straight := by
  intro i member
  obtain ⟨number, source, rfl⟩ := eq_of_mem_passArguments member
  exact ⟨rfl, rfl⟩

theorem storeParams_straight (places : List Int) (register : Nat) :
    ∀ i ∈ storeParams register places, i.Straight := by
  intro i member
  obtain ⟨number, place, rfl⟩ := eq_of_mem_storeParams member
  exact ⟨rfl, rfl⟩

theorem Simple.rests {s : Simple} (stands : p.HasCode position s.code)
    (behind : p.Quiet stop (position + s.code.length)) (least : position ≤ k)
    (most : k < position + s.code.length) (here : p.code[k]? = some i) :
    i.Rests p start stop k := by
  cases s with
  | ret =>
    obtain rfl := mem_singleton.mp (stands.mem least most here)
    exact Instr.Straight.rests ⟨rfl, rfl⟩
  | eval e => exact (e.straight i (stands.mem least most here)).rests
  | call name entry declared args =>
    simp only [code, length_append, length_passArguments, length_singleton]
      at behind most
    by_cases early : k < position + args.length
    · refine (passArguments_straight args 0 i ?_).rests
      exact stands.left.mem least (by rwa [length_passArguments]) here
    · obtain rfl : k = position + args.length := by omega
      have last := stands.right.head
      rw [length_passArguments, here] at last
      cases last
      exact ⟨by simp [Program.targetOf?], fun _ _ => behind⟩

theorem Opening.roundStart_straight (o : Opening) : ∀ i ∈ o.roundStart, i.Straight := by
  rcases o with _ | _ | ⟨_, _ | _⟩ <;>
    simp [roundStart, Instr.Straight, Program.targetOf?, Instr.callee?]

/-- Before the text of a structure, only its exit has a target. -/
theorem Opening.enter_straight (o : Opening) (here : (o.enter leave)[k]? = some i) :
    k = o.expression.code.length ∨ i.Straight := by
  rw [enter, getElem?_append] at here
  split at here
  · exact .inr (o.expression.straight i (mem_of_getElem? here))
  · cases behind : k - o.expression.code.length with
    | zero => exact .inl (by omega)
    | succ j =>
      rw [behind, getElem?_cons_succ] at here
      exact .inr (o.roundStart_straight i (mem_of_getElem? here))

theorem Opening.enter_rests (stands : p.HasCode position (o.enter leave))
    (quiet : p.LeadsQuiet start stop
      (p.loopsAt start (position + o.expression.code.length)) leave)
    (least : position ≤ k) (most : k < position + o.enterSize) (here : p.code[k]? = some i) :
    i.Rests p start stop k := by
  unfold enterSize at most
  rcases Nat.lt_trichotomy k (position + o.expression.code.length) with early | rfl | late
  · exact (o.expression.straight i (stands.left.mem least early here)).rests
  · obtain rfl := Option.some.inj (here.symm.trans stands.right.head)
    cases o <;> exact Instr.rests_of_target rfl rfl quiet
  · exact (o.roundStart_straight i (stands.right.tail.mem late (by omega) here)).rests

/-- A loop goes back to its start or to the start of a round. -/
theorem Opening.back_rests (stands : p.HasCode position (o.enter leave)) (from_ : start ≤ position)
    (fits : position + o.enterSize ≤ stop) (whole : p.Quiet stop position)
    (round : p.Quiet stop (position + o.expression.code.length + 1))
    (around : p.loopsAt start k = p.loopsAt start (position + o.enterSize))
    (member : i ∈ o.back p.codeBase position) : i.Rests p start stop k := by
  rw [loopsAt_enter stands from_] at around
  unfold enterSize at fits
  cases o with
  | ifBlock => contradiction
  | whileLoop e r =>
    obtain rfl := mem_singleton.mp member
    rw [loopsAt_round stands from_ nofun] at around
    exact Instr.rests_of_target rfl rfl ⟨position, from_, by omega, rfl, whole, around.symm⟩
  | forLoop count index =>
    rw [expression] at fits
    obtain rfl := mem_singleton.mp member
    exact Instr.rests_of_target rfl rfl
      ⟨position + count.code.length + 1, by omega, by omega, rfl, round, around.symm⟩

/-- Control goes only to places between statements. -/
theorem TextAt.rests {n : Nest} (text : TextAt p position n stop) (from_ : start ≤ position)
    (supplied : ∀ s ∈ n.statements, s.Supplies p) (behind : p.Quiet stop (position + n.size))
    (least : position ≤ k) (most : k < position + n.size) (here : p.code[k]? = some i) :
    i.Rests p start stop k := by
  induction n generalizing position with
  | nil => exact absurd most (by simp only [Nest.size]; omega)
  | step s rest ih =>
    have others : ∀ t ∈ rest.statements, t.Supplies p :=
      fun t member => supplied t (mem_cons_of_mem _ member)
    rw [Nest.size, ← Nat.add_assoc] at behind most
    by_cases early : k < position + s.code.length
    · exact Simple.rests text.simple (text.afterSimple.quiet others behind) least early here
    · exact ih text.afterSimple (by omega) others behind (by omega) most
  | block o inner tail ihInner ihTail =>
    have fits := text.fits
    have whole := text.quiet supplied behind
    have inside : ∀ t ∈ inner.statements, t.Supplies p :=
      fun t member => supplied t (by simp [Nest.statements, member])
    have others : ∀ t ∈ tail.statements, t.Supplies p :=
      fun t member => supplied t (by simp [Nest.statements, member])
    rw [Nest.size] at fits
    rw [Nest.size, ← Nat.add_assoc] at behind most
    have after := text.after.quiet others behind
    have ended : p.Quiet stop (position + o.enterSize + inner.size) := by
      rw [Nat.add_assoc]
      exact quiet_back text.back (by omega) (by rwa [Nat.add_assoc])
    have around : p.loopsAt start (position + (o.enterSize + inner.size)) =
        p.loopsAt start (position + o.enterSize) := by
      rw [← Nat.add_assoc]
      exact text.body.loopsAt_end (by omega)
    by_cases inEnter : k < position + o.enterSize
    · refine enter_rests text.enter ⟨_, by omega, by omega, rfl, after, ?_⟩ least inEnter here
      rw [loopsAt_exit text.enter from_, ← Nat.add_assoc]
      exact loopsAt_back text.enter from_ text.back (by omega) around
    by_cases inBody : k < position + o.enterSize + inner.size
    · exact ihInner text.body (by omega) inside ended (by omega) inBody
    by_cases inBack : k < position + (o.enterSize + inner.size + o.backSize)
    · have member := text.back.mem (by omega) (by rw [length_back]; omega) here
      have single : o.backSize ≤ 1 := by cases o <;> simp [backSize, block, Block.backSize]
      obtain rfl : k = position + (o.enterSize + inner.size) := by omega
      have entered := text.body.quiet inside ended
      exact back_rests text.enter from_ (by omega) whole (quiet_round text.enter (by omega) entered)
        around member
    · exact ihTail text.after (by omega) others behind (by omega) most

end Texts

/-! ## Routines -/

section Routines

variable {p : Program} {routines : List Routine} {q : Nat} {r : Routine}

theorem Program.MadeOf.supplied (made : p.MadeOf routines) (enough : p.PassesEnough)
    (member : r ∈ routines) : ∀ s ∈ r.body.statements, s.Supplies p := by
  intro s inside
  cases s with
  | call name entry declared args =>
    intro callee found
    obtain ⟨k, here, count⟩ := made.calls_stand member inside
    obtain ⟨bound, -⟩ := Array.getElem?_eq_some_iff.mp here
    rw [← count]
    exact enough k bound entry (by rw [here]; rfl) callee found
  | _ => trivial

variable (made : p.MadeOf routines) (enough : p.PassesEnough) (placed : Placed routines q r)
include made enough placed

theorem Placed.quiet_body : p.Quiet (q + r.size) (q + r.places.length) := by
  refine (placed.textAt made).quiet (made.supplied enough placed.mem) ?_
  rw [Nat.add_assoc, ← Routine.size]
  exact p.quiet_stop _

/-- In a routine control goes only to places where no register matters. -/
theorem Placed.rests {k : Nat} {i : Instr} (least : q ≤ k) (most : k < q + r.size)
    (here : p.code[k]? = some i) : i.Rests p q (q + r.size) k := by
  have stands := placed.hasCode made
  by_cases early : k < q + r.places.length
  · refine (storeParams_straight r.places 0 i ?_).rests
    exact stands.left.mem least (by rwa [length_storeParams]) here
  · refine (placed.textAt made).rests (by omega) (made.supplied enough placed.mem) ?_ (by omega) ?_
      here
    · rw [Nat.add_assoc, ← Routine.size]
      exact p.quiet_stop _
    · rwa [Nat.add_assoc, ← Routine.size]

/-- At the entry of a routine only its parameters matter. -/
theorem Placed.live_entry {reg : Register} (live : p.Live (q + r.size) q reg) :
    ∃ number : Int, reg = .param number ∧ 0 ≤ number ∧ number < r.places.length := by
  have stands := (placed.hasCode made).left
  have quiet := placed.quiet_body made enough
  rw [← length_storeParams 0 r.places] at quiet
  have fits : q + (storeParams 0 r.places).length ≤ q + r.size := by
    rw [length_storeParams, Routine.size]
    omega
  rcases storeParams_matter ((Program.live_through stands fits).mp live) with
    behind | ⟨number, same, least, most⟩
  · exact absurd behind (quiet reg)
  · exact ⟨number, same, by omega, by omega⟩

end Routines

end HighAsm
