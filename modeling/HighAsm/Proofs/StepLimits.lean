import HighAsm.Proofs.Calls
import HighAsm.Proofs.ControlSteps

/-!
# Calls within the limit on their steps

The rounds of a run are listed up to its end without a bound on their number (`Course`). A call
from outside has such a list, whatever program it runs and wherever it begins, as long as there is a
limit on its steps: the instructions among its rounds are within the limit, and so are the frames of
every machine on the way. Frames that are left at the end of a procedure take a round but no step;
there are no more of them than were entered.
-/

namespace HighAsm

namespace Machine

/-- A machine in the course of a run, with the address that its next round is about. -/
structure Moment where
  machine : Machine
  pc : Int

/-- The instruction that the next round carries out. There is none where a frame has come to its end
or the limit on steps is met. -/
def Moment.instr? (p : Program) (s : Moment) : Option Instr :=
  if s.machine.atStop s.pc then none
  else if 0 < s.machine.maxSteps ∧ s.machine.maxSteps < (s.machine.steps + 1 : Nat) then none
  else p.instr? s.pc

/-- The number of instructions that are carried out at some moments. -/
def carriedOut (p : Program) (moments : List Moment) : Nat :=
  (moments.filterMap (·.instr? p)).length

/-- The moments of a run up to its end: why it stops, unless the outermost call returns, and the
machine that is left. -/
inductive Course (p : Program) : Machine → Int → List Moment → Option Stop × Machine → Prop
  | next {m m' : Machine} {pc pc' : Int} {moments : List Moment} {ending : Option Stop × Machine}
      (round : m.round p pc = .next pc' m') (rest : Course p m' pc' moments ending) :
      Course p m pc (⟨m, pc⟩ :: moments) ending
  | done {m m' : Machine} {pc : Int} (round : m.round p pc = .done m') :
      Course p m pc [⟨m, pc⟩] (none, m')
  | stopped {m m' : Machine} {pc : Int} {why : Stop} (round : m.round p pc = .stopped why m') :
      Course p m pc [⟨m, pc⟩] (some why, m')

variable {p : Program} {m : Machine} {pc : Int} {moments : List Moment}
  {ending : Option Stop × Machine}

theorem Course.unique (course : Course p m pc moments ending) {moments' : List Moment}
    {ending' : Option Stop × Machine} (other : Course p m pc moments' ending') :
    moments' = moments ∧ ending' = ending := by
  induction course generalizing moments' ending' with
  | next round _ ih =>
    cases other with
    | next round' rest =>
      obtain ⟨rfl, rfl⟩ := Outcome.next.inj (round.symm.trans round')
      obtain ⟨rfl, rfl⟩ := ih rest
      exact ⟨rfl, rfl⟩
    | done round' | stopped round' => exact absurd (round.symm.trans round') (by simp)
  | done round =>
    cases other with
    | next round' _ | stopped round' => exact absurd (round.symm.trans round') (by simp)
    | done round' =>
      obtain rfl := Outcome.done.inj (round.symm.trans round')
      exact ⟨rfl, rfl⟩
  | stopped round =>
    cases other with
    | next round' _ | done round' => exact absurd (round.symm.trans round') (by simp)
    | stopped round' =>
      obtain ⟨rfl, rfl⟩ := Outcome.stopped.inj (round.symm.trans round')
      exact ⟨rfl, rfl⟩

/-- A run that is not given up has come to the end of its course. -/
theorem course_of_run {rounds : Nat} (finished : (run p rounds m pc).1 ≠ some .unfinished) :
    ∃ moments, Course p m pc moments (run p rounds m pc) := by
  induction rounds generalizing m pc with
  | zero => exact absurd rfl finished
  | succ rounds ih =>
    unfold run at finished ⊢
    cases round : m.round p pc with
    | next pc' m' =>
      rw [round] at finished
      obtain ⟨moments, rest⟩ := ih finished
      exact ⟨_, .next round rest⟩
    | done m' => exact ⟨_, .done round⟩
    | stopped why m' => exact ⟨_, .stopped round⟩

/-! ## What a round spends -/

theorem carriedOut_cons (s : Moment) (moments : List Moment) :
    carriedOut p (s :: moments) = (s.instr? p).toList.length + carriedOut p moments := by
  unfold carriedOut
  rw [List.filterMap_cons]
  cases s.instr? p with
  | none => simp
  | some i => simp [Nat.add_comm]

/-- A round takes a step for the instruction that it carries out. Only the round that meets the
limit takes a step for nothing. -/
theorem round_steps (p : Program) (m : Machine) (pc : Int) :
    (m.round p pc).machine.steps = m.steps + ((⟨m, pc⟩ : Moment).instr? p).toList.length ∨
      m.round p pc = .stopped (.stepLimit pc) { m with steps := m.steps + 1 } := by
  by_cases ended : m.atStop pc
  · refine .inl ?_
    rw [round, if_pos ended, m.leave_keeps.steps, Moment.instr?, if_pos ended]
    rfl
  · cases here : p.instr? pc with
    | none =>
      refine .inl ?_
      rw [round, if_neg ended, here, Moment.instr?, if_neg ended, here, ite_self]
      rfl
    | some i =>
      rw [round_of_instr ended here]
      by_cases limit : 0 < m.maxSteps ∧ m.maxSteps < (m.steps + 1 : Nat)
      · exact .inr (if_pos limit)
      · refine .inl ?_
        rw [if_neg limit, (execute_keeps p _ pc i).steps, Moment.instr?, if_neg ended,
          if_neg limit, here]
        rfl

/-- An instruction is carried out within the limit only. -/
theorem carried_within {s : Moment} (limited : 0 < s.machine.maxSteps)
    (within : s.machine.steps ≤ s.machine.maxSteps) :
    s.machine.steps + ((s.instr? p).toList.length : Int) ≤ s.machine.maxSteps := by
  unfold Moment.instr?
  split
  · simpa using within
  · split
    · simpa using within
    · have atMost : (p.instr? s.pc).toList.length ≤ 1 := by
        cases p.instr? s.pc <;> simp
      omega

/-- No round enters more frames than may be active. -/
theorem round_frames (p : Program) (pc : Int) (frames : m.frames.length ≤ maxFrames) :
    (m.round p pc).machine.frames.length ≤ maxFrames := by
  rcases round_cases p m pc with leaves | outside | limit | ⟨i, executes, -⟩
  · have := m.leave_keeps.frames
    rw [leaves]
    omega
  · rw [outside]
    exact frames
  · rw [limit]
    exact frames
  · have keeps := (execute_keeps p { m with steps := m.steps + 1 } pc i).frames
    dsimp only at keeps
    rw [executes]
    omega

/-! ## What a run spends -/

/-- What a run may spend from a machine on: the steps that are left go to instructions, the number
of rounds is bounded, and the last machine has tried one step too many at most. -/
structure Affords (p : Program) (m : Machine) (moments : List Moment) (last : Machine) : Prop where
  carried : (m.steps + carriedOut p moments : Int) ≤ m.maxSteps
  rounds : moments.length ≤ m.allowance + 1
  counted : ∀ s ∈ moments, (s.machine.steps : Int) ≤ m.maxSteps
  steps : (last.steps : Int) ≤ m.maxSteps + 1
  frames : ∀ s ∈ moments, s.machine.frames.length ≤ maxFrames
  left : last.frames.length ≤ maxFrames

/-- The last round of a run keeps within the limits. -/
theorem round_affords (p : Program) (pc : Int) (limited : 0 < m.maxSteps)
    (steps : m.steps ≤ m.maxSteps) (frames : m.frames.length ≤ maxFrames) :
    Affords p m [⟨m, pc⟩] (m.round p pc).machine := by
  have carried : m.steps + _ ≤ m.maxSteps := carried_within (p := p) (s := ⟨m, pc⟩) limited steps
  refine ⟨?_, Nat.le_add_left 1 _, List.forall_mem_singleton.mpr steps, ?_,
    List.forall_mem_singleton.mpr frames, round_frames p pc frames⟩
  · rwa [carriedOut_cons]
  · rcases round_steps p m pc with taken | limit
    · rw [taken]
      omega
    · rw [limit]
      simp only [Outcome.machine]
      omega

/-- A run within its limits stays within them up to its end. -/
theorem Course.affords (course : Course p m pc moments ending) (limited : 0 < m.maxSteps)
    (steps : m.steps ≤ m.maxSteps) (frames : m.frames.length ≤ maxFrames) :
    Affords p m moments ending.2 := by
  induction course with
  | @next m m' pc pc' moments ending round _ ih =>
    have same : m'.maxSteps = m.maxSteps := by
      have bounds := (round_bounds p m pc).1
      rwa [round] at bounds
    have taken : m'.steps = m.steps + ((⟨m, pc⟩ : Moment).instr? p).toList.length := by
      have taken := round_steps p m pc
      rw [round] at taken
      exact taken.resolve_right (by simp)
    have deep : m'.frames.length ≤ maxFrames := by
      have deep := round_frames p pc frames
      rwa [round] at deep
    have carried : m.steps + _ ≤ m.maxSteps :=
      carried_within (p := p) (s := ⟨m, pc⟩) limited steps
    have fewer := round_allowance limited round
    have later := ih (by omega) (by omega) deep
    refine ⟨?_, ?_, List.forall_mem_cons.mpr ⟨steps, same ▸ later.counted⟩, same ▸ later.steps,
      List.forall_mem_cons.mpr ⟨frames, later.frames⟩, later.left⟩
    · have := later.carried
      rw [carriedOut_cons]
      omega
    · have := later.rounds
      rw [List.length_cons]
      omega
  | @done m m' pc round | @stopped m m' pc why round =>
    have last := round_affords p pc limited steps frames
    rwa [round] at last

/-- With a limit on its steps that a signed 64-bit counter can exceed, a call of any program at any
address comes to an end. A call with more arguments than there are registers is refused and changes
nothing. Any other call has one course of finitely many rounds, in which it carries out no more
instructions than the limit allows and never has more than 1024 frames, and it ends with what the
course ends with: it returns, or says why it stops, having counted one step more than the limit at
most. The counter never wraps. -/
theorem callAt_keeps_limits (p : Program) (m : Machine) (entry : Int) (args : List Int)
    (limited : 0 < m.maxSteps) (exceedable : m.maxSteps < 0x7FFFFFFFFFFFFFFF) :
    (m.params.count < args.length →
      m.callAt p entry args = (.error (.tooManyArguments args.length m.params.count), m)) ∧
    (args.length ≤ m.params.count →
      ∃ moments ending, Course p (m.entered p entry args) entry moments ending ∧
        (∀ moments' ending', Course p (m.entered p entry args) entry moments' ending' →
          moments' = moments ∧ ending' = ending) ∧
        m.callAt p entry args = answer ending ∧ ending.1 ≠ some .unfinished ∧
        (carriedOut p moments : Int) ≤ m.maxSteps ∧
        (moments.length : Int) ≤ 2 * m.maxSteps + 2 ∧
        ((m.callAt p entry args).2.steps : Int) ≤ m.maxSteps + 1 ∧
        (∀ s ∈ moments, s.machine.steps < 0x8000000000000000) ∧
        (m.callAt p entry args).2.steps < 0x8000000000000000 ∧
        (∀ s ∈ moments, s.machine.frames.length ≤ 1024) ∧
        (m.callAt p entry args).2.frames.length ≤ 1024) := by
  refine ⟨fun many => by rw [callAt, if_pos many], fun few => ?_⟩
  have finished : (run p (rounds m.maxSteps) (m.entered p entry args) entry).1 ≠ some .unfinished :=
    entered_finishes limited
  obtain ⟨moments, course⟩ := course_of_run finished
  have within := course.affords limited (Int.le_of_lt limited) (show 1 ≤ maxFrames by decide)
  have answers := callAt_eq_answer p entry few
  generalize run p (rounds m.maxSteps) (m.entered p entry args) entry = ending at *
  have left : (m.callAt p entry args).2 = ending.2 := by
    rw [answers]
    obtain ⟨_ | why, last⟩ := ending <;> rfl
  have steps : ((m.callAt p entry args).2.steps : Int) ≤ m.maxSteps + 1 := left ▸ within.steps
  refine ⟨moments, ending, course, fun _ _ other => course.unique other, answers, finished, ?_, ?_,
    steps, ?_, by omega, within.frames, left ▸ within.left⟩
  · simpa [entered] using within.carried
  · have rounds : moments.length ≤ 2 * (m.maxSteps.toNat - 0) + 1 + 1 := within.rounds
    omega
  · intro s member
    have counted : (s.machine.steps : Int) ≤ m.maxSteps := within.counted s member
    omega

/-- Two procedures without a return, the first of which calls the second. -/
def returnless : Program :=
  { code := #[.call 0x1002, .load (.const 1), .load (.const 2)]
    procedures := [⟨"a", 0x1000, 0⟩, ⟨"b", 0x1002, 0⟩] }

/-- Three steps are enough where two frames are left without a step. -/
theorem callAt_keeps_limits_returnless :
    ∃ m : Machine, m.maxSteps = 3 ∧ (m.callAt returnless 0x1000 []).1 = .ok 1 ∧
      ∃ moments ending, Course returnless (m.entered returnless 0x1000 []) 0x1000 moments ending ∧
        (carriedOut returnless moments : Int) ≤ 3 ∧ (moments.length : Int) ≤ 8 ∧
        ((m.callAt returnless 0x1000 []).2.steps : Int) ≤ 4 ∧
        ∀ s ∈ moments, s.machine.frames.length ≤ 1024 := by
  let m : Machine := { memory := Memory.zeros, params := Registers.zeros 4, maxSteps := 3 }
  obtain ⟨moments, ending, course, -, -, -, carried, rounds, steps, -, -, frames, -⟩ :=
    (callAt_keeps_limits returnless m 0x1000 [] (by decide) (by decide)).2 (by decide)
  exact ⟨m, rfl, by decide +kernel, moments, ending, course, carried, rounds, steps, frames⟩

/-- A call that is refused leaves the steps of a call before it, which had another limit. -/
theorem refused_call_above_limit :
    ∃ m used : Machine, load returnless = .ok m ∧
      used = { (m.callAt returnless 0x1000 []).2 with maxSteps := 1 } ∧
      (used.callAt returnless 0x1000 [1, 2, 3, 4, 5]).1 = .error (.tooManyArguments 5 4) ∧
      used.maxSteps + 1 < (used.callAt returnless 0x1000 [1, 2, 3, 4, 5]).2.steps :=
  ⟨_, _, rfl, rfl, by decide +kernel, by decide +kernel⟩

end Machine

end HighAsm
