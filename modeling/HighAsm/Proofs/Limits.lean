import HighAsm.Machine

/-!
# How long a run may last

Whatever its program is, a run changes neither the limit on its steps nor the number of parameter
registers, and within a limit on its steps it does not use up its rounds: every instruction takes
one of the steps that are left and adds one frame at most, and every frame is left once. What is
left of both bounds the number of rounds.
-/

namespace HighAsm

theorem Registers.count_set? {bank changed : Registers} {register value : Int}
    (set : bank.set? register value = some changed) : changed.count = bank.count := by
  unfold set? at set
  split at set
  · rw [← Option.some.inj set]
  · contradiction

namespace Machine

/-- The machine that a round ends with. -/
def Outcome.machine : Outcome → Machine
  | next _ m | done m | stopped _ m => m

/-- What every instruction keeps within. -/
structure Keeps (m : Machine) (outcome : Outcome) : Prop where
  maxSteps : outcome.machine.maxSteps = m.maxSteps
  count : outcome.machine.params.count = m.params.count
  steps : outcome.machine.steps = m.steps
  /-- There is one frame more only where there were fewer than may be active. -/
  frames : outcome.machine.frames.length ≤ m.frames.length ∨
    m.frames.length < maxFrames ∧ outcome.machine.frames.length = m.frames.length + 1
  finished : ∀ m', outcome ≠ .stopped .unfinished m'

theorem Keeps.of_setWord {p : Program} {m : Machine} {address value acc pc : Int} :
    m.Keeps (.next pc { m.setWord p address value with acc := acc }) := by
  unfold setWord
  split <;> exact ⟨rfl, rfl, rfl, .inl (Nat.le_refl _), nofun⟩

/-- A frame that is left is gone, unless it was the last one. -/
theorem leave_next {m m' : Machine} {pc : Int} (next : m.leave = .next pc m') :
    m'.frames.length < m.frames.length := by
  unfold leave at next
  split at next
  · next frame below others frames =>
    obtain ⟨-, rfl⟩ := Outcome.next.inj next
    simp [frames]
  · contradiction

theorem leave_keeps (m : Machine) : m.Keeps m.leave := by
  unfold leave
  split
  · next frame below others frames =>
    refine ⟨rfl, rfl, rfl, .inl ?_, nofun⟩
    simp only [Outcome.machine, frames, List.length_cons]
    omega
  · exact ⟨rfl, rfl, rfl, .inl (Nat.zero_le _), nofun⟩

theorem execute_keeps (p : Program) (m : Machine) (pc : Int) (i : Instr) :
    m.Keeps (m.execute p pc i) := by
  have unchanged {pc' : Int} {m' : Machine} (maxSteps : m'.maxSteps = m.maxSteps)
      (count : m'.params.count = m.params.count) (steps : m'.steps = m.steps)
      (frames : m'.frames = m.frames) : m.Keeps (.next pc' m') :=
    ⟨maxSteps, count, steps, .inl (by simp [Outcome.machine, frames]), nofun⟩
  cases i with
  | load | copyToTemp | jump => exact unchanged rfl rfl rfl rfl
  | loadIndirect width => cases width <;> exact unchanged rfl rfl rfl rfl
  | store address => exact Keeps.of_setWord
  | storeIndirect width =>
    cases width with
    | byte => exact unchanged rfl rfl rfl rfl
    | word => exact Keeps.of_setWord
  | undefined => exact ⟨rfl, rfl, rfl, .inl (Nat.le_refl _), nofun⟩
  | ret => exact leave_keeps m
  | binary op right | loopIndex =>
    simp only [execute]
    split
    · exact unchanged rfl rfl rfl rfl
    · exact ⟨rfl, rfl, rfl, .inl (Nat.le_refl _), nofun⟩
  | loadParam register source =>
    simp only [execute]
    split
    · next params set => exact unchanged rfl (Registers.count_set? set) rfl rfl
    · exact ⟨rfl, rfl, rfl, .inl (Nat.le_refl _), nofun⟩
  | storeParam register address =>
    simp only [execute]
    split
    · exact Keeps.of_setWord
    · exact ⟨rfl, rfl, rfl, .inl (Nat.le_refl _), nofun⟩
  | loopHead leave =>
    simp only [execute]
    split
    · exact unchanged rfl rfl rfl rfl
    · split
      · next frame below frames =>
        exact ⟨rfl, rfl, rfl, .inl (by simp [Outcome.machine, frames]), nofun⟩
      · exact unchanged rfl rfl rfl rfl
  | loopNext body =>
    simp only [execute]
    split
    · next frames =>
      split <;> exact ⟨rfl, rfl, rfl, .inl (by simp [Outcome.machine, frames]), nofun⟩
    · exact ⟨rfl, rfl, rfl, .inl (Nat.le_refl _), nofun⟩
  | call entry =>
    simp only [execute]
    split
    · exact ⟨rfl, rfl, rfl, .inl (Nat.le_refl _), nofun⟩
    · next room => exact ⟨rfl, rfl, rfl, .inr ⟨Nat.not_le.mp room, rfl⟩, nofun⟩

/-! ## Rounds -/

/-- A bound on the rounds that are left to a run with a limit on its steps. -/
def allowance (m : Machine) : Nat := 2 * (m.maxSteps.toNat - m.steps) + m.frames.length

/-- What a round does: it leaves a frame, stops outside the program or at the limit, or carries out
an instruction within the limit. -/
theorem round_cases (p : Program) (m : Machine) (pc : Int) :
    m.round p pc = m.leave ∨ m.round p pc = .stopped (.outside pc) m ∨
    m.round p pc = .stopped (.stepLimit pc) { m with steps := m.steps + 1 } ∨
    ∃ i, m.round p pc = { m with steps := m.steps + 1 }.execute p pc i ∧
      (0 < m.maxSteps → m.steps + 1 ≤ m.maxSteps) := by
  unfold round
  split
  · exact .inl rfl
  · split
    · exact .inr (.inl rfl)
    · next i found =>
      by_cases limited : 0 < m.maxSteps ∧ m.maxSteps < (m.steps + 1 : Nat)
      · exact .inr (.inr (.inl (if_pos limited)))
      · exact .inr (.inr (.inr ⟨i, if_neg limited, fun positive => by omega⟩))

theorem round_bounds (p : Program) (m : Machine) (pc : Int) :
    (m.round p pc).machine.maxSteps = m.maxSteps ∧
      (m.round p pc).machine.params.count = m.params.count := by
  rcases round_cases p m pc with leaves | outside | limit | ⟨i, executes, -⟩
  · rw [leaves]
    exact ⟨m.leave_keeps.maxSteps, m.leave_keeps.count⟩
  · rw [outside]
    exact ⟨rfl, rfl⟩
  · rw [limit]
    exact ⟨rfl, rfl⟩
  · have keeps := execute_keeps p { m with steps := m.steps + 1 } pc i
    rw [executes]
    exact ⟨keeps.maxSteps, keeps.count⟩

theorem run_bounds (p : Program) (rounds : Nat) (m : Machine) (pc : Int) :
    (run p rounds m pc).2.maxSteps = m.maxSteps ∧
      (run p rounds m pc).2.params.count = m.params.count := by
  induction rounds generalizing m pc with
  | zero => exact ⟨rfl, rfl⟩
  | succ rounds ih =>
    have bounds := round_bounds p m pc
    unfold run
    split
    · next pc' m' next =>
      rw [next] at bounds
      exact ⟨(ih m' pc').1.trans bounds.1, (ih m' pc').2.trans bounds.2⟩
    · next m' done =>
      rw [done] at bounds
      exact bounds
    · next why m' stopped =>
      rw [stopped] at bounds
      exact bounds

theorem round_allowance {p : Program} {m m' : Machine} {pc pc' : Int} (limited : 0 < m.maxSteps)
    (next : m.round p pc = .next pc' m') : m'.allowance < m.allowance := by
  have same := (round_bounds p m pc).1
  rw [next] at same
  change m'.maxSteps = m.maxSteps at same
  unfold allowance
  rcases round_cases p m pc with leaves | outside | limit | ⟨i, executes, within⟩
  · have fewer := leave_next (leaves.symm.trans next)
    have keeps := m.leave_keeps.steps
    rw [← leaves, next] at keeps
    change m'.steps = m.steps at keeps
    omega
  · rw [outside] at next
    contradiction
  · rw [limit] at next
    contradiction
  · have keeps := execute_keeps p { m with steps := m.steps + 1 } pc i
    rw [← executes, next] at keeps
    have steps : m'.steps = m.steps + 1 := keeps.steps
    have frames : m'.frames.length ≤ m.frames.length ∨
        m.frames.length < maxFrames ∧ m'.frames.length = m.frames.length + 1 := keeps.frames
    omega

/-- A run with a limit on its steps is not given up as long as its rounds exceed the bound. -/
theorem run_finishes {p : Program} {rounds : Nat} {m : Machine} {pc : Int}
    (limited : 0 < m.maxSteps) (enough : m.allowance < rounds) :
    (run p rounds m pc).1 ≠ some .unfinished := by
  induction rounds generalizing m pc with
  | zero => omega
  | succ rounds ih =>
    have same := (round_bounds p m pc).1
    unfold run
    split
    · next pc' m' next =>
      rw [next] at same
      have fewer := round_allowance limited next
      exact ih (show 0 < m'.maxSteps from same ▸ limited) (by omega)
    · simp
    · next why m' stopped =>
      rintro given
      obtain rfl : why = .unfinished := Option.some.inj given
      rcases round_cases p m pc with leaves | outside | limit | ⟨i, executes, -⟩
      · exact m.leave_keeps.finished m' (leaves.symm.trans stopped)
      · exact nomatch (Outcome.stopped.inj (outside.symm.trans stopped)).1
      · exact nomatch (Outcome.stopped.inj (limit.symm.trans stopped)).1
      · exact (execute_keeps p _ pc i).finished m' (executes.symm.trans stopped)

end Machine

end HighAsm
