import HighAsm.Proofs.Calls
import HighAsm.Proofs.ControlSteps
import HighAsm.Proofs.Liveness

/-!
# What earlier calls leave in registers

Two machines that differ in their registers only run in lockstep as long as they agree on those
that matter. Control stands in a routine of the program, and every active call returns to a place
of its caller where no register matters (`Machine.Inside`); so it is enough that a call from outside
gives the parameters of the procedure their values.
-/

namespace HighAsm

/-- Which registers there are depends on their number only. -/
theorem Registers.set?_of_count {bank bank' : Registers} (same : bank'.count = bank.count)
    (register value : Int) :
    (bank.set? register value = none ∧ bank'.set? register value = none) ∨
      ∃ changed changed', bank.set? register value = some changed ∧
        bank'.set? register value = some changed' := by
  by_cases inside : 0 ≤ register ∧ register < bank.count
  · exact .inr ⟨_, _, if_pos inside, if_pos (by rwa [same])⟩
  · exact .inl ⟨if_neg inside, if_neg (by rwa [same])⟩

namespace Machine

/-- The value of a register. -/
def register (m : Machine) : Register → Option Int
  | .acc => some m.acc
  | .temp => some m.temp
  | .param number => m.params.get? number

/-- Two machines differ in the values of registers only. -/
inductive Twin (m : Machine) : Machine → Prop
  | mk (acc temp : Int) (params : Registers) (count : params.count = m.params.count) :
      Twin m { m with acc := acc, temp := temp, params := params }

/-- Two outcomes go together: control goes on in the same way, or both runs end alike. -/
inductive Outcome.Paired (Next : Int → Machine → Machine → Prop) : Outcome → Outcome → Prop
  | next {pc : Int} {m m' : Machine} (goes : Next pc m m') : Paired Next (.next pc m) (.next pc m')
  | done {m m' : Machine} (twin : m.Twin m') : Paired Next (.done m) (.done m')
  | stopped {m m' : Machine} (why : Stop) (twin : m.Twin m') :
      Paired Next (.stopped why m) (.stopped why m')

/-! ## One instruction -/

section Executing

variable {p : Program} {m m' n n' : Machine} {i : Instr}

/-- After an instruction two machines agree on what it writes, and still on what they agreed on
before. -/
structure Learn (i : Instr) (m m' n n' : Machine) : Prop where
  twin : n.Twin n'
  registers : ∀ reg, i.Writes reg ∨ m.register reg = m'.register reg →
    n.register reg = n'.register reg

theorem Learn.of (twin : n.Twin n')
    (acc : i.Writes .acc ∨ m.acc = m'.acc → n.acc = n'.acc)
    (temp : i.Writes .temp ∨ m.temp = m'.temp → n.temp = n'.temp)
    (params : ∀ number, i.Writes (.param number) ∨
      m.params.get? number = m'.params.get? number →
        n.params.get? number = n'.params.get? number) : Learn i m m' n n' := by
  refine ⟨twin, fun reg known => ?_⟩
  cases reg with
  | acc => exact congrArg some (acc (known.imp_right Option.some.inj))
  | temp => exact congrArg some (temp (known.imp_right Option.some.inj))
  | param number => exact params number known

/-- Instructions that write the accumulator only leave the other registers as they are. -/
theorem Learn.acc (only : ∀ reg, i.Writes reg → reg = .acc) (twin : n.Twin n')
    (acc : n.acc = n'.acc) (temp : n.temp = m.temp ∧ n'.temp = m'.temp)
    (params : n.params = m.params ∧ n'.params = m'.params) : Learn i m m' n n' := by
  refine .of twin (fun _ => acc) (fun known => ?_) fun number known => ?_
  · rw [temp.1, temp.2]
    exact known.resolve_left fun writes => Register.noConfusion (only _ writes)
  · rw [params.1, params.2]
    exact known.resolve_left fun writes => Register.noConfusion (only _ writes)

/-- An argument that is passed to both machines is known to both. -/
theorem Learn.param {number value : Int} {source : Operand} (twin : n.Twin n')
    (written : m.params.set? number value = some n.params)
    (written' : m'.params.set? number value = some n'.params)
    (acc : n.acc = m.acc ∧ n'.acc = m'.acc) (temp : n.temp = m.temp ∧ n'.temp = m'.temp) :
    Learn (.loadParam number source) m m' n n' := by
  refine .of twin (fun known => ?_) (fun known => ?_) fun other known => ?_
  · rw [acc.1, acc.2]
    exact known.resolve_left Register.noConfusion
  · rw [temp.1, temp.2]
    exact known.resolve_left Register.noConfusion
  · rw [Registers.get?_set? written, Registers.get?_set? written']
    split
    · rfl
    · next apart => exact known.resolve_left fun same => apart (Register.param.inj same).symm

/-- Instructions that write no register leave the agreement as it is. -/
theorem Learn.same (twin : n.Twin n') (none_ : ∀ reg, ¬ i.Writes reg)
    (left : n.register = m.register) (right : n'.register = m'.register) : Learn i m m' n n' := by
  refine ⟨twin, fun reg known => ?_⟩
  rw [left, right]
  exact known.resolve_left (none_ reg)

theorem execute_paired (twin : m.Twin m')
    (agree : ∀ reg, i.Reads p reg → m.register reg = m'.register reg) (pc : Int) :
    Outcome.Paired (fun _ n n' => Learn i m m' n n') (m.execute p pc i) (m'.execute p pc i) := by
  obtain ⟨acc, temp, params, count⟩ := twin
  cases i with
  | load source =>
    exact .next (.acc (fun _ => id) (.mk _ _ _ count) rfl ⟨rfl, rfl⟩ ⟨rfl, rfl⟩)
  | loadIndirect width =>
    obtain rfl : m.acc = acc := Option.some.inj (agree .acc rfl)
    cases width with
    | byte | word =>
      exact .next (.acc (fun _ => id) (.mk _ _ _ count) rfl ⟨rfl, rfl⟩ ⟨rfl, rfl⟩)
  | binary op right =>
    obtain rfl : m.acc = acc := Option.some.inj (agree .acc rfl)
    simp only [execute, value_eq]
    split
    · exact .next (.acc (fun _ => id) (.mk _ _ _ count) rfl ⟨rfl, rfl⟩ ⟨rfl, rfl⟩)
    · exact .stopped _ (.mk _ _ _ count)
  | store address =>
    obtain rfl : m.acc = acc := Option.some.inj (agree .acc rfl)
    simp only [execute, setWord_eq]
    exact .next (.same (.mk _ _ _ count) (fun _ => id) rfl rfl)
  | storeIndirect width =>
    obtain rfl : m.acc = acc := Option.some.inj (agree .acc (.inl rfl))
    obtain rfl : m.temp = temp := Option.some.inj (agree .temp (.inr rfl))
    cases width with
    | byte =>
      exact .next (.acc (fun _ => id) (.mk _ _ _ count) rfl ⟨rfl, rfl⟩ ⟨rfl, rfl⟩)
    | word =>
      simp only [execute, setWord_eq]
      exact .next (.acc (fun _ => id) (.mk _ _ _ count) rfl ⟨rfl, rfl⟩ ⟨rfl, rfl⟩)
  | copyToTemp =>
    obtain rfl : m.acc = acc := Option.some.inj (agree .acc rfl)
    exact .next (.of (.mk _ _ _ count) (fun _ => rfl) (fun _ => rfl)
      fun number known => known.resolve_left Register.noConfusion)
  | loadParam register source =>
    simp only [execute, value_eq]
    rcases Registers.set?_of_count count register (source.wordIn p.wordSize m.memory) with
      ⟨missing, missing'⟩ | ⟨bank, bank', written, written'⟩
    · simp only [missing, missing']
      exact .stopped _ (.mk _ _ _ count)
    · simp only [written, written']
      have count' : bank'.count = bank.count := by
        rw [Registers.count_set? written', count, Registers.count_set? written]
      exact .next (.param (.mk _ _ _ count') written written' ⟨rfl, rfl⟩ ⟨rfl, rfl⟩)
  | storeParam register address =>
    have same : m.params.get? register = params.get? register := agree (.param register) rfl
    simp only [execute, setWord_eq, ← same]
    split
    · exact .next (.same (.mk _ _ _ count) (fun _ => id) rfl rfl)
    · exact .stopped _ (.mk _ _ _ count)
  | jump test target =>
    have same : test.taken m.acc = test.taken acc := by
      by_cases always : test = .always
      · rw [always]
        rfl
      · rw [Option.some.inj (agree .acc ⟨always, rfl⟩)]
    simp only [execute, ← same]
    exact .next (.same (.mk _ _ _ count) (fun _ => id) rfl rfl)
  | loopHead exit =>
    obtain rfl : m.acc = acc := Option.some.inj (agree .acc rfl)
    simp only [execute]
    split
    · exact .next (.same (.mk _ _ _ count) (fun _ => id) rfl rfl)
    · obtain ⟨_, _, _, _, _, _ | ⟨frame, rest⟩, _⟩ := m
      · exact .next (.same (.mk _ _ _ count) (fun _ => id) rfl rfl)
      · exact .next (.same (.mk _ _ _ count) (fun _ => id) rfl rfl)
  | loopIndex =>
    obtain ⟨_, _, _, _, _, _ | ⟨⟨ret, stop, _ | ⟨counter, loops⟩⟩, rest⟩, _⟩ := m
    · exact .stopped _ (.mk _ _ _ count)
    · exact .stopped _ (.mk _ _ _ count)
    · exact .next (.acc (fun _ => id) (.mk _ _ _ count) rfl ⟨rfl, rfl⟩ ⟨rfl, rfl⟩)
  | loopNext body =>
    simp only [execute]
    obtain ⟨_, _, _, _, _, _ | ⟨⟨ret, stop, _ | ⟨counter, loops⟩⟩, rest⟩, _⟩ := m
    · exact .stopped _ (.mk _ _ _ count)
    · exact .stopped _ (.mk _ _ _ count)
    · dsimp only
      split
      · exact .next (.same (.mk _ _ _ count) (fun _ => id) rfl rfl)
      · exact .next (.same (.mk _ _ _ count) (fun _ => id) rfl rfl)
  | call entry =>
    simp only [execute]
    split
    · exact .stopped _ (.mk _ _ _ count)
    · exact .next (.same (.mk _ _ _ count) (fun _ => id) rfl rfl)
  | ret =>
    obtain ⟨_, _, _, _, _, _ | ⟨frame, _ | ⟨caller, rest⟩⟩, _⟩ := m
    · exact .done (.mk _ _ _ count)
    · exact .done (.mk _ _ _ count)
    · exact .next (.same (.mk _ _ _ count) (fun _ => id) rfl rfl)
  | undefined => exact .stopped _ (.mk _ _ _ count)

end Executing

theorem Outcome.Paired.imp {Next Next' : Int → Machine → Machine → Prop} {o o' : Outcome}
    (paired : Paired Next o o')
    (goes : ∀ pc n n', o = .next pc n → Next pc n n' → Next' pc n n') : Paired Next' o o' := by
  cases paired with
  | next holds => exact .next (goes _ _ _ rfl holds)
  | done twin => exact .done twin
  | stopped why twin => exact .stopped why twin

/-! ## Where control stands -/

/-- A position is in a routine that begins and stops at others. -/
structure Within (routines : List Routine) (start stop position : Nat) : Prop where
  routine : ∃ r, Placed routines start r ∧ stop = start + r.size
  least : start ≤ position
  most : position ≤ stop

/-- A call that returns to an address does so at a place of the call below it where no register
matters, and so does every call below. -/
def Resumes (p : Program) (routines : List Routine) : Int → List (Int × Int) → Prop
  | _, [] => True
  | ret, (ret', stop') :: below =>
    (∃ start stop position, Within routines start stop position ∧
      stop' = codeAddress p.codeBase stop ∧ ret = codeAddress p.codeBase position ∧
      p.Quiet stop position) ∧ Resumes p routines ret' below

/-- Control stands at a position of a routine, and the active calls resume. -/
structure Inside (p : Program) (routines : List Routine) (m : Machine) (pc : Int)
    (start stop position : Nat) : Prop where
  within : Within routines start stop position
  address : pc = codeAddress p.codeBase position
  calls : ∃ ret below, m.calls = (ret, codeAddress p.codeBase stop) :: below ∧
    Resumes p routines ret below

section Standing

variable {p : Program} {routines : List Routine} {m n : Machine} {pc pc' : Int}
  {start stop position : Nat} {i : Instr}

/-- A frame is left for a place where no register matters. -/
theorem Inside.left (inside : m.Inside p routines pc start stop position)
    (left : m.leave = .next pc' n) :
    ∃ start' stop' position', n.Inside p routines pc' start' stop' position' ∧
      p.Quiet stop' position' := by
  obtain ⟨ret, below, calls, resumes⟩ := inside.calls
  obtain ⟨_, calls', more⟩ := leave_calls left
  obtain ⟨same, rfl⟩ := List.cons.inj (calls.symm.trans calls')
  cases same
  cases below : n.calls with
  | nil => exact absurd below more
  | cons call rest =>
    obtain ⟨ret', _⟩ := call
    rw [below] at resumes
    obtain ⟨⟨start', stop', position', within, rfl, address, quiet⟩, others⟩ := resumes
    exact ⟨start', stop', position', ⟨within, address, _, rest, below, others⟩, quiet⟩

/-- A procedure that is not at its end has an instruction to carry out. -/
theorem Inside.position_lt (made : p.MadeOf routines)
    (inside : m.Inside p routines pc start stop position) (going : ¬ m.atStop pc = true) :
    position < stop ∧ ∃ i, p.code[position]? = some i := by
  obtain ⟨ret, below, calls, -⟩ := inside.calls
  have before : position < stop := by
    refine Nat.lt_of_le_of_ne inside.within.most fun same => going ?_
    rw [atStop_eq calls, inside.address, same]
    exact beq_self_eq_true _
  obtain ⟨r, placed, rfl⟩ := inside.within.routine
  have fits := placed.end_le made
  exact ⟨before, _, Array.getElem?_eq_getElem (Nat.lt_of_lt_of_le before fits)⟩

/-- What matters where an instruction leads to is written by it, or mattered before it. -/
theorem Inside.execute (made : p.MadeOf routines) (enough : p.PassesEnough)
    (inside : m.Inside p routines pc start stop position) (before : position < stop)
    (here : p.code[position]? = some i) (executes : m.execute p pc i = .next pc' n) :
    ∃ start' stop' position', n.Inside p routines pc' start' stop' position' ∧
      ∀ reg, p.Live stop' position' reg → i.Writes reg ∨ p.Live stop position reg := by
  obtain ⟨ret, below, calls, resumes⟩ := inside.calls
  obtain ⟨r, placed, rfl⟩ := inside.within.routine
  have least := inside.within.least
  have rests := placed.rests made enough least before here
  have following : wrap64 (pc + 1) = codeAddress p.codeBase (position + 1) := by
    rw [inside.address, codeAddress_succ]
  have onward : Within routines start (start + r.size) (position + 1) :=
    ⟨⟨r, placed, rfl⟩, by omega, before⟩
  cases execute_steers executes with
  | onward calls' next =>
    refine ⟨start, start + r.size, position + 1,
      ⟨onward, next.trans following, ret, below, calls'.trans calls, resumes⟩, fun reg live => ?_⟩
    by_cases writes : i.Writes reg
    · exact .inl writes
    · exact .inr ((Program.live_iff here before).mpr (.inr ⟨writes, live⟩))
  | jumps calls' target =>
    obtain ⟨there, from_, until_, address, quiet, -⟩ := rests.targets pc' target
    exact ⟨start, start + r.size, there,
      ⟨⟨⟨r, placed, rfl⟩, from_, until_⟩, address, ret, below, calls'.trans calls, resumes⟩,
      fun reg live => absurd live (quiet reg)⟩
  | enters call calls' =>
    subst call
    have known : p.IsEntry pc' := placed.fits made least before here
    obtain ⟨front, callee, back, split, begins, stops, found, -⟩ := made.entry_leads known
    have placed' : Placed routines (Routine.extent front) callee := ⟨front, back, split, rfl⟩
    refine ⟨_, _, _, ⟨⟨⟨callee, placed', rfl⟩, Nat.le_refl _, Nat.le_add_right _ _⟩, begins,
      _, m.calls, by rw [calls', stops], ?_⟩, fun reg live => .inr ?_⟩
    · rw [calls]
      exact ⟨⟨start, start + r.size, position + 1, onward, rfl, following,
        rests.returns pc' rfl⟩, resumes⟩
    · obtain ⟨number, same, least, most⟩ := placed'.live_entry made enough live
      exact (Program.live_iff here before).mpr (.inl ⟨_, number, found, same, least, most⟩)
  | leaves _ left =>
    obtain ⟨start', stop', position', inside', quiet⟩ := inside.left left
    exact ⟨start', stop', position', inside', fun reg live => absurd live (quiet reg)⟩

end Standing

/-! ## Lockstep -/

/-- Two machines stand at the same place and agree on the registers that matter there. -/
structure Lock (p : Program) (routines : List Routine) (pc : Int) (m m' : Machine) : Prop where
  twin : m.Twin m'
  agree : ∃ start stop position, m.Inside p routines pc start stop position ∧
    ∀ reg, p.Live stop position reg → m.register reg = m'.register reg

section Lockstep

variable {p : Program} {routines : List Routine} {m m' : Machine} {pc : Int}

theorem Twin.counted (twin : m.Twin m') :
    { m with steps := m.steps + 1 }.Twin { m' with steps := m'.steps + 1 } := by
  obtain ⟨acc, temp, params, count⟩ := twin
  exact .mk acc temp params count

variable (addressable : p.Addressable) (made : p.MadeOf routines) (enough : p.PassesEnough)
include addressable made enough

/-- Machines in lockstep stay so in every round. -/
theorem round_paired (lock : Lock p routines pc m m') :
    Outcome.Paired (Lock p routines) (m.round p pc) (m'.round p pc) := by
  obtain ⟨start, stop, position, inside, agree⟩ := lock.agree
  have ends : m'.atStop pc = m.atStop pc := by
    obtain ⟨acc, temp, params, count⟩ := lock.twin
    rfl
  by_cases ended : m.atStop pc = true
  · rw [round, round, if_pos ended, if_pos (ends.trans ended)]
    have leaves := execute_paired (p := p) (i := .ret) lock.twin (fun _ => False.elim) pc
    refine leaves.imp fun pc' n n' left learn => ⟨learn.twin, ?_⟩
    obtain ⟨start', stop', position', inside', quiet⟩ := inside.left left
    exact ⟨start', stop', position', inside', fun reg live => absurd live (quiet reg)⟩
  · obtain ⟨before, i, here⟩ := inside.position_lt made ended
    have found : p.instr? pc = some i := by
      rw [inside.address]
      exact Program.instr?_codeAddress addressable here
    have counted := lock.twin.counted
    have limit : (0 < m'.maxSteps ∧ m'.maxSteps < (m'.steps + 1 : Nat)) =
        (0 < m.maxSteps ∧ m.maxSteps < (m.steps + 1 : Nat)) := by
      obtain ⟨acc, temp, params, count⟩ := lock.twin
      rfl
    rw [round_of_instr ended found, round_of_instr (ends ▸ ended) found]
    by_cases limited : 0 < m.maxSteps ∧ m.maxSteps < (m.steps + 1 : Nat)
    · rw [if_pos limited, if_pos (limit ▸ limited)]
      exact .stopped _ counted
    · rw [if_neg limited, if_neg (limit ▸ limited)]
      have reads : ∀ reg, i.Reads p reg → m.register reg = m'.register reg := fun reg reads =>
        agree reg ((Program.live_iff here before).mpr (.inl reads))
      refine (execute_paired counted reads pc).imp fun pc' n n' executes learn => ⟨learn.twin, ?_⟩
      obtain ⟨start', stop', position', inside', live⟩ :=
        Inside.execute (m := { m with steps := m.steps + 1 }) made enough
          ⟨inside.within, inside.address, inside.calls⟩ before here executes
      refine ⟨start', stop', position', inside', fun reg matters => learn.registers reg ?_⟩
      exact (live reg matters).imp_right (agree reg)

theorem run_paired (rounds : Nat) (lock : Lock p routines pc m m') :
    (run p rounds m' pc).1 = (run p rounds m pc).1 ∧
      (run p rounds m pc).2.Twin (run p rounds m' pc).2 := by
  induction rounds generalizing m m' pc with
  | zero => exact ⟨rfl, lock.twin⟩
  | succ rounds ih =>
    have paired := round_paired addressable made enough lock
    rw [run, run]
    generalize m.round p pc = o at paired
    generalize m'.round p pc = o' at paired
    cases paired with
    | next goes => exact ih goes
    | done twin => exact ⟨rfl, twin⟩
    | stopped why twin => exact ⟨rfl, twin⟩

end Lockstep

/-! ## Calls from outside -/

/-- Two calls come to the same: both return or both are stopped for the same reason, after as many
steps and with the same memory. -/
structure SameEnd (call call' : Except Stop Int × Machine) : Prop where
  stop : ∀ why, call'.1 = .error why ↔ call.1 = .error why
  steps : call'.2.steps = call.2.steps
  memory : call'.2.memory = call.2.memory

section Calling

variable {p : Program} {routines : List Routine} {m m' : Machine} {proc : Procedure}
  {args : List Int}

theorem SameEnd.answer {ended : Option Stop} (twin : m.Twin m') :
    SameEnd (answer (ended, m)) (answer (ended, m')) := by
  obtain ⟨acc, temp, params, count⟩ := twin
  cases ended with
  | none => exact ⟨fun why => by simp only [Machine.answer, reduceCtorEq], rfl, rfl⟩
  | some stop => exact ⟨fun why => Iff.rfl, rfl, rfl⟩

section

variable (addressable : p.Addressable) (made : p.MadeOf routines) (enough : p.PassesEnough)
  (member : proc ∈ p.procedures) (memory : m'.memory = m.memory) (limit : m'.maxSteps = m.maxSteps)
  (count : m'.params.count = m.params.count) (few : args.length ≤ m.params.count)
  (declared : proc.params ≤ args.length)
include addressable made enough member memory limit count few declared

/-- A call that gives the parameters of its procedure their values begins in lockstep. -/
theorem entered_lock :
    Lock p routines proc.entry (m.entered p proc.entry args) (m'.entered p proc.entry args) := by
  obtain ⟨q, r, placed, begins, stops, params⟩ := made.entry_params addressable member
  refine ⟨?_, q, q + r.size, q, ?_, ?_⟩
  · have sizes : (m'.entered p proc.entry args).params.count =
        (m.entered p proc.entry args).params.count := by
      rw [entered, entered, Registers.count_fill, Registers.count_fill, count]
    have twin := Twin.mk m'.acc m'.temp _ sizes
    simp only [entered, ← memory, ← limit] at twin ⊢
    exact twin
  · exact ⟨⟨⟨r, placed, rfl⟩, Nat.le_refl _, Nat.le_add_right _ _⟩, begins, -1, [],
      by rw [← stops]; rfl, trivial⟩
  · intro reg live
    rcases params with empty | same
    · rw [empty] at live
      exact absurd live (p.quiet_stop q reg)
    · obtain ⟨number, rfl, least, most⟩ := placed.live_entry made enough live
      obtain ⟨k, rfl⟩ := Int.eq_ofNat_of_zero_le least
      have filled {n : Machine} (few : args.length ≤ n.params.count) :
          (n.entered p proc.entry args).register (.param k) = (args.map (wrap p))[k]? := by
        refine Registers.get?_fill ?_ (Nat.zero_le _) ?_ <;> rw [List.length_map] <;> omega
      rw [filled few, filled (count ▸ few)]

/-- Calls on machines that differ in their registers only come to the same. -/
theorem callAt_sameEnd : SameEnd (m.callAt p proc.entry args) (m'.callAt p proc.entry args) := by
  have lock := entered_lock addressable made enough member memory limit count few declared
  obtain ⟨ended, twin⟩ := run_paired addressable made enough (rounds m.maxSteps) lock
  rw [callAt_eq_answer p proc.entry few, callAt_eq_answer p proc.entry (count ▸ few), limit]
  generalize run p (rounds m.maxSteps) (m.entered p proc.entry args) proc.entry = r at ended twin
  generalize run p (rounds m.maxSteps) (m'.entered p proc.entry args) proc.entry = r' at ended twin
  obtain ⟨stop, n⟩ := r
  obtain ⟨stop', n'⟩ := r'
  obtain rfl : stop' = stop := ended
  exact .answer twin

end

/-- A call with more arguments than there are registers is refused, and leaves the machine as it
is. -/
theorem callAt_refused (ready : m.Ready p) (many : p.maxParams < args.length) (entry : Int) :
    m.callAt p entry args =
      (.error (.tooManyArguments args.length p.maxParams.toNat), m) := by
  unfold Ready at ready
  rw [callAt, if_pos (by omega), ← ready, Int.toNat_natCast]

end Calling

end Machine

/-- What earlier calls leave in registers does not influence a run. If every call of a program
passes the arguments that are asked for, then a call from outside with at least the declared ones
comes to the same on any two machines with the same memory and limit: it returns or is stopped by
a limit, after as many steps and with the same memory. With more arguments than there are registers
nothing is run. -/
theorem leftovers_do_not_matter {settings : Settings} {modules : List (List Text)} {p : Program}
    (assembled : Assembly.program? settings modules = some p) (addressable : p.Addressable)
    (enough : p.PassesEnough) {proc : Procedure} (member : proc ∈ p.procedures) {m m' : Machine}
    (ready : m.Ready p) (ready' : m'.Ready p) (memory : m'.memory = m.memory)
    (limit : m'.maxSteps = m.maxSteps) {args : List Int} (declared : proc.params ≤ args.length) :
    ((args.length : Int) ≤ p.maxParams →
      Machine.SameEnd (m.callAt p proc.entry args) (m'.callAt p proc.entry args) ∧
        ∀ why, (m.callAt p proc.entry args).1 = .error why → Machine.Excuses m.maxSteps why) ∧
    (p.maxParams < args.length → ∃ why,
      m.callAt p proc.entry args = (.error why, m) ∧
        m'.callAt p proc.entry args = (.error why, m')) := by
  obtain ⟨routines, -, made⟩ := assembled_madeOf assembled addressable
  refine ⟨fun few => ⟨?_, fun why fails => ?_⟩, fun many => ?_⟩
  · have count : m'.params.count = m.params.count := Int.ofNat.inj (ready'.trans ready.symm)
    have few : args.length ≤ m.params.count := by
      unfold Machine.Ready at ready
      omega
    exact Machine.callAt_sameEnd addressable made enough member memory limit count few declared
  · exact Invocation.callAt_permitted addressable made ⟨proc, member, rfl⟩ ready few fails
  · exact ⟨_, Machine.callAt_refused ready many _, Machine.callAt_refused ready' many _⟩

/-- A call that was stopped left values in registers. The next one comes to what it comes to on a
machine with clean registers. -/
theorem nestedLoops_after_stop :
    ∃ m used, Machine.load nestedProgram = .ok m ∧
      used = ({ m with maxSteps := 10 }.callAt nestedProgram 0x100b [2]).2 ∧ used.acc = 4 ∧
      nestedProgram.PassesEnough ∧
      Machine.SameEnd
        ({ m with maxSteps := 10, memory := used.memory }.callAt nestedProgram 0x1000 [3])
        (used.callAt nestedProgram 0x1000 [3]) := by
  have enough : nestedProgram.PassesEnough := by decide
  have stopped : ((Machine.load nestedProgram).map fun m =>
      let used := ({ m with maxSteps := 10 }.callAt nestedProgram 0x100b [2]).2
      (used.acc, used.maxSteps)).toOption = some (4, 10) := by
    decide +kernel
  cases loaded : Machine.load nestedProgram with
  | error crash =>
    rw [loaded] at stopped
    contradiction
  | ok m =>
    rw [loaded] at stopped
    obtain ⟨acc, limit⟩ := Prod.mk.inj (Option.some.inj stopped)
    have ready : m.Ready nestedProgram := Machine.load_ready loaded
    generalize stops : ({ m with maxSteps := 10 }.callAt nestedProgram 0x100b [2]).2 = used at *
    have clean : { m with maxSteps := 10, memory := used.memory }.Ready nestedProgram := ready
    have leftover : used.Ready nestedProgram := by
      rw [← stops]
      exact Machine.callAt_ready (m := { m with maxSteps := 10 }) ready (by decide)
    have declared : (⟨"down", 0x1000, 1⟩ : Procedure) ∈ nestedProgram.procedures := by decide
    obtain ⟨same, -⟩ := (leftovers_do_not_matter nestedLoops_assembled nestedProgram_addressable
      enough declared clean leftover rfl limit (show (1 : Int) ≤ [(3 : Int)].length by decide)).1
      (by decide)
    exact ⟨m, used, rfl, stops.symm, acc, enough, same⟩

/-- A call that is refused leaves the steps of the call before it. -/
theorem refused_call_keeps_steps :
    ∃ p m used, Assembly.program? {} [["proc a()", "1"]] = some p ∧ p.PassesEnough ∧
      (⟨"a", 0x1000, 0⟩ : Procedure) ∈ p.procedures ∧ Machine.load p = .ok m ∧
      used = (m.callAt p 0x1000 []).2 ∧ used.memory = m.memory ∧ used.maxSteps = m.maxSteps ∧
      (m.callAt p 0x1000 [1, 2, 3, 4, 5]).2.steps = 0 ∧
      (used.callAt p 0x1000 [1, 2, 3, 4, 5]).2.steps = 1 := by
  have assembled : Assembly.program? {} [["proc a()", "1"]] =
      some { code := #[.load (.const 1)], data := #[0, 0], procedures := [⟨"a", 0x1000, 0⟩] } := by
    decide +kernel
  exact ⟨_, _, _, assembled, by decide, by decide, rfl, rfl, rfl, rfl, rfl, rfl⟩

end HighAsm
