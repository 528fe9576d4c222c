import HighAsm.Proofs.StraightLine

/-!
# Where a round leads

What a round does to control, whatever it does to data: it goes on behind an instruction, goes to an
address that the instruction names, enters a procedure, or leaves a frame (`Steers`). Counters of
loops aside, frames change in the last two cases only. So control keeps to addresses of some kind if
every instruction at such an address leads to such addresses only (`round_confined`).
-/

namespace HighAsm

/-- Instructions at addresses of some kind lead to addresses of this kind only. -/
structure Program.Confines (p : Program) (good : Int → Prop) : Prop where
  onward : ∀ pc i, good pc → p.instr? pc = some i → i ≠ .ret → good (wrap64 (pc + 1))
  jumps : ∀ pc i target, good pc → p.instr? pc = some i → Program.targetOf? i = some target →
    good target
  calls : ∀ pc entry, good pc → p.instr? pc = some (.call entry) → good entry

namespace Machine

/-- Where the active calls return to and where their code stops, the innermost first. -/
def calls (m : Machine) : List (Int × Int) := m.frames.map fun frame => (frame.ret, frame.stop)

/-- How control goes on after an instruction. -/
inductive Steers (p : Program) (m : Machine) (pc : Int) (i : Instr) (pc' : Int) (m' : Machine) :
    Prop
  | onward (calls : m'.calls = m.calls) (next : pc' = wrap64 (pc + 1))
  | jumps (calls : m'.calls = m.calls) (target : Program.targetOf? i = some pc')
  | enters (call : i = .call pc')
      (calls : m'.calls = (wrap64 (pc + 1), p.stopOf pc') :: m.calls)
  | leaves (ret : i = .ret) (left : m.leave = .next pc' m')

variable {p : Program} {m m' : Machine} {pc pc' : Int} {i : Instr}

theorem atStop_eq {ret stop : Int} {below : List (Int × Int)}
    (calls : m.calls = (ret, stop) :: below) (pc : Int) : m.atStop pc = (stop == pc) := by
  obtain ⟨frame, rest, frames, same, -⟩ := List.map_eq_cons_iff.mp calls
  cases same
  rw [atStop, frames]
  rfl

/-- Leaving a frame goes to where its call returns to, as long as there is another frame. -/
theorem leave_calls (left : m.leave = .next pc' m') :
    ∃ stop, m.calls = (pc', stop) :: m'.calls ∧ m'.calls ≠ [] := by
  unfold leave at left
  split at left
  · next frame below others frames =>
    obtain ⟨rfl, rfl⟩ := Outcome.next.inj left
    refine ⟨frame.stop, ?_, List.cons_ne_nil _ _⟩
    rw [calls, frames]
    rfl
  · contradiction

theorem execute_steers (goes : m.execute p pc i = .next pc' m') : m.Steers p pc i pc' m' := by
  have onward {n : Machine} (goes : Outcome.next (wrap64 (pc + 1)) n = .next pc' m')
      (frames : n.frames = m.frames) : m.Steers p pc i pc' m' := by
    obtain ⟨rfl, rfl⟩ := Outcome.next.inj goes
    exact .onward (by rw [calls, frames, calls]) rfl
  cases i with
  | load | loadIndirect | binary | store | storeIndirect | copyToTemp | loadParam | storeParam =>
    rw [Instr.execute_plain rfl] at goes
    cases effect : Instr.effect? p.wordSize m.core _ with
    | none =>
      rw [effect] at goes
      contradiction
    | some c =>
      rw [effect] at goes
      exact onward goes rfl
  | jump test target =>
    obtain ⟨taken, rfl⟩ := Outcome.next.inj goes
    split at taken
    · exact .jumps rfl (congrArg some taken)
    · exact .onward rfl taken.symm
  | loopHead exit =>
    simp only [execute] at goes
    split at goes
    · obtain ⟨rfl, rfl⟩ := Outcome.next.inj goes
      exact .jumps rfl rfl
    · split at goes
      · next frame rest frames =>
        obtain ⟨rfl, rfl⟩ := Outcome.next.inj goes
        exact .onward (by simp [calls, frames]) rfl
      · exact onward goes rfl
  | loopIndex =>
    simp only [execute] at goes
    split at goes
    · exact onward goes rfl
    · contradiction
  | loopNext body =>
    simp only [execute] at goes
    split at goes
    · next frames =>
      split at goes
      · obtain ⟨rfl, rfl⟩ := Outcome.next.inj goes
        exact .jumps (by simp [calls, frames]) rfl
      · obtain ⟨rfl, rfl⟩ := Outcome.next.inj goes
        exact .onward (by simp [calls, frames]) rfl
    · contradiction
  | call entry =>
    simp only [execute] at goes
    split at goes
    · contradiction
    · obtain ⟨rfl, rfl⟩ := Outcome.next.inj goes
      exact .enters rfl rfl
  | ret => exact .leaves rfl goes
  | undefined => contradiction

theorem round_of_instr (going : ¬ m.atStop pc = true) (here : p.instr? pc = some i) :
    m.round p pc =
      if 0 < m.maxSteps ∧ m.maxSteps < (m.steps + 1 : Nat) then
        .stopped (.stepLimit pc) { m with steps := m.steps + 1 }
      else { m with steps := m.steps + 1 }.execute p pc i := by
  rw [round, if_neg going, here]

/-- A round that goes on leaves a frame at its end, or carries out the instruction at its
address. -/
theorem round_steers (goes : m.round p pc = .next pc' m') :
    (m.atStop pc ∧ m.leave = .next pc' m') ∨ ¬ m.atStop pc ∧ ∃ i, p.instr? pc = some i ∧
      { m with steps := m.steps + 1 }.execute p pc i = .next pc' m' := by
  unfold round at goes
  split at goes
  · next ended => exact .inl ⟨ended, goes⟩
  · next going =>
    refine .inr ⟨going, ?_⟩
    split at goes
    · contradiction
    · next i here =>
      dsimp only at goes
      split at goes
      · contradiction
      · exact ⟨i, here, goes⟩

/-- Control stands at an address of some kind, and all active calls but the outermost return to
addresses of this kind. -/
structure Confined (good : Int → Prop) (m : Machine) (pc : Int) : Prop where
  here : good pc
  active : m.calls ≠ []
  returns : ∀ call ∈ m.calls.dropLast, good call.1

variable {good : Int → Prop}

theorem Confined.left (confined : m.Confined good pc) (left : m.leave = .next pc' m') :
    m'.Confined good pc' := by
  obtain ⟨stop, calls, more⟩ := leave_calls left
  have returns := confined.returns
  rw [calls, List.dropLast_cons_of_ne_nil more] at returns
  exact ⟨returns _ List.mem_cons_self, more, (List.forall_mem_cons.mp returns).2⟩

theorem round_confined (confines : p.Confines good) (confined : m.Confined good pc)
    (goes : m.round p pc = .next pc' m') : m'.Confined good pc' := by
  rcases round_steers goes with ⟨-, left⟩ | ⟨-, i, here, executes⟩
  · exact confined.left left
  · have stepped : { m with steps := m.steps + 1 }.Confined good pc :=
      ⟨confined.here, confined.active, confined.returns⟩
    by_cases ret : i = .ret
    · subst ret
      exact stepped.left executes
    have following := confines.onward pc i confined.here here ret
    cases execute_steers executes with
    | onward calls next => exact ⟨next ▸ following, calls ▸ stepped.active, calls ▸ stepped.returns⟩
    | jumps calls target =>
      exact ⟨confines.jumps pc i pc' confined.here here target, calls ▸ stepped.active,
        calls ▸ stepped.returns⟩
    | enters call calls =>
      subst call
      refine ⟨confines.calls pc pc' confined.here here, by rw [calls]; exact List.cons_ne_nil _ _,
        ?_⟩
      rw [calls, List.dropLast_cons_of_ne_nil stepped.active]
      exact List.forall_mem_cons.mpr ⟨following, stepped.returns⟩
    | leaves same _ => exact absurd same ret

end Machine

end HighAsm
