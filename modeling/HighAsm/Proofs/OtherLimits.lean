import HighAsm.Proofs.StepLimits

/-!
# Calls under other limits on their steps

The limit on steps is looked at in one place only, after the instruction of a round has been found
and before it takes effect. So a round is the same under any limit that is not met in it
(`round_under`), and a course under one limit is followed under another up to where the other
one is met: to its end (`Course.under`), or to the moment at which one instruction more than the
other limit allows would take effect (`Course.cut`).
-/

namespace HighAsm

namespace Machine

/-- The machine under another limit on its steps. -/
def under (limit : Int) (m : Machine) : Machine := { m with maxSteps := limit }

/-- The outcome of a round under another limit on steps. -/
def Outcome.under (limit : Int) : Outcome → Outcome
  | next pc m => .next pc (m.under limit)
  | done m => .done (m.under limit)
  | stopped why m => .stopped why (m.under limit)

namespace Moment

/-- The machine on which an instruction takes effect: its step has been counted already. -/
def poised (s : Moment) : Machine := { s.machine with steps := s.machine.steps + 1 }

/-- The same moment under another limit on steps. -/
def under (limit : Int) (s : Moment) : Moment := ⟨s.machine.under limit, s.pc⟩

end Moment

/-- The moments at which an instruction takes effect. -/
def effective (p : Program) (moments : List Moment) : List Moment :=
  moments.filter fun s => (s.instr? p).isSome

theorem effective_cons_none {p : Program} {s : Moment} (none_ : s.instr? p = none)
    (moments : List Moment) : effective p (s :: moments) = effective p moments := by
  simp [effective, none_]

theorem effective_cons_some {p : Program} {s : Moment} {i : Instr} (takes : s.instr? p = some i)
    (moments : List Moment) : effective p (s :: moments) = s :: effective p moments := by
  simp [effective, takes]

theorem length_effective (p : Program) (moments : List Moment) :
    (effective p moments).length = carriedOut p moments := by
  induction moments with
  | nil => rfl
  | cons s rest ih =>
    rw [carriedOut_cons, ← ih]
    cases takes : s.instr? p with
    | none => simp [effective_cons_none takes]
    | some i => simp [effective_cons_some takes, Nat.add_comm]

/-! ## One round -/

section Round

variable {p : Program} {m : Machine} {pc : Int} {i : Instr}

theorem leave_under (limit : Int) (m : Machine) : (m.under limit).leave = m.leave.under limit := by
  unfold leave
  rw [show (m.under limit).frames = m.frames from rfl]
  split
  · rfl
  · rfl

theorem execute_under (p : Program) (limit : Int) (m : Machine) (pc : Int) (i : Instr) :
    (m.under limit).execute p pc i = (m.execute p pc i).under limit := by
  have frames : (m.under limit).frames = m.frames := rfl
  cases i with
  | load | loadIndirect | binary | store | storeIndirect | copyToTemp | loadParam | storeParam =>
    rw [Instr.execute_plain rfl, Instr.execute_plain rfl,
      show (m.under limit).core = m.core from rfl]
    cases Instr.effect? p.wordSize m.core _ <;> rfl
  | jump | undefined => rfl
  | loopHead exit =>
    simp only [execute, frames, show (m.under limit).acc = m.acc from rfl]
    split
    · rfl
    · split
      · rfl
      · rfl
  | loopIndex | call entry =>
    simp only [execute, frames]
    split
    · rfl
    · rfl
  | loopNext body =>
    simp only [execute, frames]
    split
    · split
      · rfl
      · rfl
    · rfl
  | ret => exact leave_under limit m

/-- An instruction that takes effect is the one at the address, and the limit is not met. -/
theorem Moment.instr?_eq_some_iff {s : Moment} :
    s.instr? p = some i ↔ ¬ s.machine.atStop s.pc = true ∧ p.instr? s.pc = some i ∧
      ¬ (0 < s.machine.maxSteps ∧ s.machine.maxSteps < (s.machine.steps + 1 : Nat)) := by
  unfold instr?
  by_cases ended : s.machine.atStop s.pc = true
  · simp [ended]
  · rw [if_neg ended]
    split
    · next met => exact iff_of_false (by simp) fun takes => takes.2.2 met
    · next room => exact ⟨fun here => ⟨ended, here, room⟩, fun takes => takes.2.1⟩

/-- Where an instruction takes effect, it does so under any limit that is not met there. -/
theorem round_under_of_instr (takes : (⟨m, pc⟩ : Moment).instr? p = some i) (limit : Int) :
    (m.under limit).round p pc =
      if 0 < limit ∧ limit < (m.steps + 1 : Nat) then
        .stopped (.stepLimit pc) ((⟨m, pc⟩ : Moment).poised.under limit)
      else (m.round p pc).under limit := by
  obtain ⟨going, here, room⟩ := Moment.instr?_eq_some_iff.mp takes
  rw [round_of_instr (m := m.under limit) going here, round_of_instr going here, if_neg room]
  exact if_congr Iff.rfl rfl (execute_under p limit (⟨m, pc⟩ : Moment).poised pc i)

/-- Where no instruction takes effect, but not because a limit is met, no limit matters. -/
theorem round_under_of_none (none_ : (⟨m, pc⟩ : Moment).instr? p = none)
    (unmet : ∀ m', m.round p pc ≠ .stopped (.stepLimit pc) m') (limit : Int) :
    (m.under limit).round p pc = (m.round p pc).under limit := by
  by_cases ended : m.atStop pc = true
  · have left : m.round p pc = m.leave := if_pos ended
    have leaves : (m.under limit).round p pc = (m.under limit).leave := if_pos ended
    rw [left, leaves, leave_under]
  · cases here : p.instr? pc with
    | none =>
      have missing (n : Machine) (going : ¬ n.atStop pc = true) :
          n.round p pc = .stopped (.outside pc) n := by rw [round, if_neg going, here]
      rw [missing m ended, missing (m.under limit) ended]
      rfl
    | some i =>
      rw [round_of_instr ended here] at unmet
      split at unmet
      · exact absurd rfl (unmet _)
      · next room =>
        have takes := (Moment.instr?_eq_some_iff (s := ⟨m, pc⟩)).mpr ⟨ended, here, room⟩
        cases none_.symm.trans takes

theorem round_next_steps {m' : Machine} {pc' : Int} (goes : m.round p pc = .next pc' m') :
    m'.steps = m.steps + ((⟨m, pc⟩ : Moment).instr? p).toList.length := by
  have counted := (round_steps p m pc).resolve_right (by simp [goes])
  rwa [goes] at counted

theorem round_under {limit : Int} (unmet : ∀ n, m.round p pc ≠ .stopped (.stepLimit pc) n)
    (room : 0 < limit → ((m.round p pc).machine.steps : Int) ≤ limit) :
    (m.under limit).round p pc = (m.round p pc).under limit := by
  cases takes : (⟨m, pc⟩ : Moment).instr? p with
  | none => exact round_under_of_none takes unmet limit
  | some i =>
    have counted := (round_steps p m pc).resolve_right (unmet _)
    rw [takes] at counted
    rw [round_under_of_instr takes, if_neg]
    rintro ⟨limited, met⟩
    have := room limited
    rw [counted] at this
    simp only [Option.toList_some, List.length_singleton] at this
    omega

end Round

/-! ## A whole run -/

section Course

variable {p : Program} {m : Machine} {pc : Int} {moments : List Moment}
  {ending : Option Stop × Machine}

/-- A run is not cut short by the limit on its steps. -/
def Uncurbed (ending : Option Stop × Machine) : Prop := ∀ pc, ending.1 ≠ some (.stepLimit pc)

/-- A run that is not cut short has counted the instructions that took effect. -/
theorem Course.steps (course : Course p m pc moments ending) (uncurbed : Uncurbed ending) :
    ending.2.steps = m.steps + carriedOut p moments := by
  induction course with
  | @next m m' pc pc' moments ending round _ ih =>
    rw [ih uncurbed, carriedOut_cons, ← Nat.add_assoc, ← round_next_steps round]
  | @done m m' pc round =>
    have counted := (round_steps p m pc).resolve_right (by simp [round])
    rwa [round] at counted
  | @stopped m m' pc why round =>
    have counted := (round_steps p m pc).resolve_right fun met =>
      uncurbed pc (congrArg some (Outcome.stopped.inj (round.symm.trans met)).1)
    rwa [round] at counted

/-- A run that is not cut short takes the same course under any limit that it keeps to. -/
theorem Course.under (course : Course p m pc moments ending) (uncurbed : Uncurbed ending)
    {limit : Int} (room : 0 < limit → (ending.2.steps : Int) ≤ limit) :
    Course p (m.under limit) pc (moments.map (·.under limit)) (ending.1, ending.2.under limit) := by
  induction course with
  | @next m m' pc pc' moments ending round rest ih =>
    have same : (m.under limit).round p pc = (m.round p pc).under limit := by
      refine round_under (by simp [round]) fun limited => ?_
      have later := rest.steps uncurbed
      rw [round]
      simp only [Outcome.machine]
      omega
    rw [round] at same
    exact .next same (ih uncurbed room)
  | @done m m' pc round =>
    have same : (m.under limit).round p pc = (m.round p pc).under limit := by
      refine round_under (by simp [round]) fun limited => ?_
      rw [round]
      exact room limited
    rw [round] at same
    exact .done same
  | @stopped m m' pc why round =>
    have same : (m.under limit).round p pc = (m.round p pc).under limit := by
      refine round_under (fun n met => ?_) fun limited => ?_
      · exact uncurbed pc (congrArg some (Outcome.stopped.inj (round.symm.trans met)).1)
      · rw [round]
        exact room limited
    rw [round] at same
    exact .stopped same

/-- If the instruction that the limit does not allow any more is the next one, the run stops. -/
theorem Course.cut_here {i : Instr} (takes : (⟨m, pc⟩ : Moment).instr? p = some i) {limit : Nat}
    (limited : 0 < limit) (full : m.steps = limit) :
    Course p (m.under limit) pc [⟨m.under limit, pc⟩]
      (some (.stepLimit pc), (⟨m, pc⟩ : Moment).poised.under limit) := by
  refine .stopped ?_
  rw [round_under_of_instr takes, if_pos (by omega)]

/-- The last moment of a run can only be the first one at which an instruction takes effect. -/
theorem effective_last {s t : Moment} {k : Nat} (here : (effective p [s])[k]? = some t) :
    k = 0 ∧ t = s ∧ ∃ i, s.instr? p = some i := by
  cases takes : s.instr? p with
  | none =>
    rw [effective_cons_none takes] at here
    contradiction
  | some i =>
    rw [effective_cons_some takes, List.getElem?_cons] at here
    split at here
    · next first => exact ⟨first, (Option.some.inj here).symm, i, rfl⟩
    · simp [effective] at here

/-- Under a limit that is met on the way, a run comes to the moment at which one instruction more
would take effect, and stops there. -/
theorem Course.cut (course : Course p m pc moments ending) {limit : Nat} (limited : 0 < limit)
    (within : m.steps ≤ limit) {s : Moment}
    (over_ : (effective p moments)[limit - m.steps]? = some s) :
    ∃ early, Course p (m.under limit) pc early
      (some (.stepLimit s.pc), s.poised.under limit) := by
  induction course with
  | @next m m' pc pc' moments ending round rest ih =>
    have counted := round_next_steps round
    cases takes : (⟨m, pc⟩ : Moment).instr? p with
    | none =>
      have same := round_under_of_none takes (by simp [round]) limit
      rw [round] at same
      have steps : m'.steps = m.steps := by simpa [takes] using counted
      rw [effective_cons_none takes, ← steps] at over_
      obtain ⟨early, cut⟩ := ih (steps ▸ within) over_
      exact ⟨_, .next same cut⟩
    | some i =>
      have steps : m'.steps = m.steps + 1 := by simpa [takes] using counted
      rw [effective_cons_some takes] at over_
      rcases Nat.eq_or_lt_of_le within with full | room
      · rw [full, Nat.sub_self] at over_
        cases over_
        exact ⟨_, .cut_here takes limited full⟩
      · rw [show limit - m.steps = limit - m'.steps + 1 by omega] at over_
        obtain ⟨early, cut⟩ := ih (by omega) over_
        have same := round_under_of_instr takes limit
        rw [if_neg (by omega), round] at same
        exact ⟨_, .next same cut⟩
  | done round | stopped round =>
    obtain ⟨none_, rfl, i, takes⟩ := effective_last over_
    exact ⟨_, .cut_here takes limited (by omega)⟩

/-- With a round for each of its moments, a run comes to its end. -/
theorem Course.run_eq (course : Course p m pc moments ending) {rounds : Nat}
    (enough : moments.length ≤ rounds) : run p rounds m pc = ending := by
  induction course generalizing rounds with
  | next round _ ih =>
    obtain ⟨rounds, rfl⟩ := Nat.exists_eq_add_one.mpr (Nat.lt_of_lt_of_le (Nat.succ_pos _) enough)
    rw [run, round]
    exact ih (Nat.le_of_succ_le_succ enough)
  | done round | stopped round =>
    obtain ⟨rounds, rfl⟩ := Nat.exists_eq_add_one.mpr (Nat.lt_of_lt_of_le (Nat.succ_pos _) enough)
    rw [run, round]

end Course

/-! ## Calls -/

section Calls

variable {p : Program} {m : Machine} {entry : Int} {args : List Int}

/-- The moments of a call up to its answer. A call that is refused has none. -/
inductive CallCourse (p : Program) (m : Machine) (entry : Int) (args : List Int) :
    List Moment → Except Stop Int × Machine → Prop
  | refused (many : m.params.count < args.length) :
      CallCourse p m entry args [] (.error (.tooManyArguments args.length m.params.count), m)
  | entered {moments : List Moment} {ending : Option Stop × Machine}
      (few : args.length ≤ m.params.count)
      (course : Course p (m.entered p entry args) entry moments ending) :
      CallCourse p m entry args moments (answer ending)

theorem answer_under (limit : Int) (ending : Option Stop × Machine) :
    answer (ending.1, ending.2.under limit) =
      ((answer ending).1, (answer ending).2.under limit) := by
  obtain ⟨_ | why, last⟩ := ending <;> rfl

theorem answer_snd (ending : Option Stop × Machine) : (answer ending).2 = ending.2 := by
  obtain ⟨_ | why, last⟩ := ending <;> rfl

/-- A call that is not cut short answers from a run that is not. -/
theorem Uncurbed.of_answer {ending : Option Stop × Machine}
    (whole : ∀ pc, (answer ending).1 ≠ .error (.stepLimit pc)) : Uncurbed ending := by
  intro pc cut
  apply whole pc
  obtain ⟨_ | why, last⟩ := ending
  · contradiction
  · exact congrArg Except.error (Option.some.inj cut)

/-- With a limit on its steps, a call that is not refused has a course, of at most two rounds for
each step, and two more. -/
theorem exists_course (p : Program) (entry : Int) (args : List Int) (limited : 0 < m.maxSteps) :
    ∃ moments ending, Course p (m.entered p entry args) entry moments ending ∧
      (moments.length : Int) ≤ 2 * m.maxSteps + 2 := by
  have finished : (run p (rounds m.maxSteps) (m.entered p entry args) entry).1 ≠
      some .unfinished := entered_finishes limited
  obtain ⟨moments, course⟩ := course_of_run finished
  have within := course.affords limited (Int.le_of_lt limited) (show 1 ≤ maxFrames by decide)
  have rounds : moments.length ≤ 2 * (m.maxSteps.toNat - 0) + 1 + 1 := within.rounds
  exact ⟨moments, _, course, by omega⟩

/-- A call answers what its course ends with, unless it is given up before. -/
theorem callAt_of_course (few : args.length ≤ m.params.count) {moments : List Moment}
    {ending : Option Stop × Machine}
    (course : Course p (m.entered p entry args) entry moments ending)
    (finishes : 0 < m.maxSteps ∨ m.maxSteps ≤ 0 ∧ moments.length ≤ 0x400000000000000000) :
    m.callAt p entry args = answer ending := by
  rw [callAt_eq_answer p entry few]
  rcases finishes with limited | ⟨unlimited, short⟩
  · have finished : (run p (rounds m.maxSteps) (m.entered p entry args) entry).1 ≠
        some .unfinished := entered_finishes limited
    obtain ⟨moments', other⟩ := course_of_run finished
    rw [(course.unique other).2]
  · rw [course.run_eq]
    rw [rounds, if_neg (Int.not_lt.mpr unlimited)]
    exact short

/-- The limit on steps does nothing but cut calls off. If a call is not cut off under a limit, then
under every larger one, and under none at all, it has the same answer and leaves the same machine,
its steps included; a limit is a signed 64-bit number. Under every smaller limit that is below the
number of its instructions, it stops at the limit, and the machine is the one on which the first
instruction that is not allowed any more takes effect under the larger limit. A call that is refused
takes no steps at all, under any limit, and the count it leaves is that of the call before it. -/
theorem limit_only_cuts_off (p : Program) (m : Machine) (entry : Int) (args : List Int)
    {limit : Int} (limited : 0 < limit)
    (whole : ∀ pc, ((m.under limit).callAt p entry args).1 ≠ .error (.stepLimit pc)) :
    (∀ other, limit ≤ other ∨ other ≤ 0 ∧ limit < 0x8000000000000000 →
      (m.under other).callAt p entry args =
        (((m.under limit).callAt p entry args).1,
          ((m.under limit).callAt p entry args).2.under other)) ∧
    ∃ moments, CallCourse p (m.under limit) entry args moments
        ((m.under limit).callAt p entry args) ∧
      (args.length ≤ m.params.count →
        ((m.under limit).callAt p entry args).2.steps = carriedOut p moments) ∧
      ∀ shorter : Nat, 0 < shorter → shorter < carriedOut p moments →
        ∃ s, (effective p moments)[shorter]? = some s ∧
          (m.under shorter).callAt p entry args =
            (.error (.stepLimit s.pc), s.poised.under shorter) := by
  by_cases many : m.params.count < args.length
  · have refused (other : Int) : (m.under other).callAt p entry args =
        (.error (.tooManyArguments args.length m.params.count), m.under other) := by
      rw [callAt, if_pos (show (m.under other).params.count < args.length from many)]
      rfl
    refine ⟨fun other _ => ?_, [], ?_, fun few => absurd many (Nat.not_lt.mpr few), ?_⟩
    · rw [refused, refused]
      rfl
    · rw [refused]
      exact .refused many
    · intro shorter _ none_
      exact absurd none_ (Nat.not_lt_zero _)
  · have few : args.length ≤ m.params.count := Nat.not_lt.mp many
    obtain ⟨moments, ending, course, length⟩ :=
      exists_course (m := m.under limit) p entry args limited
    have answers := callAt_of_course (m := m.under limit) few course (.inl limited)
    rw [answers] at whole ⊢
    have uncurbed := Uncurbed.of_answer whole
    have steps : ending.2.steps = 0 + carriedOut p moments := course.steps uncurbed
    have within : (0 + carriedOut p moments : Int) ≤ limit :=
      (course.affords limited (Int.le_of_lt limited) (show 1 ≤ maxFrames by decide)).carried
    refine ⟨fun other beyond => ?_, moments, .entered few course, fun _ => ?_, ?_⟩
    · have kept : 0 < other → (ending.2.steps : Int) ≤ other := fun positive => by omega
      have same := course.under uncurbed kept
      rw [← answer_under]
      refine callAt_of_course (m := m.under other) few same ?_
      rcases beyond with larger | ⟨unlimited, small⟩
      · exact .inl (Int.lt_of_lt_of_le limited larger)
      · have bound : (moments.length : Int) ≤ 2 * limit + 2 := length
        exact .inr ⟨unlimited, by rw [List.length_map]; omega⟩
    · rw [answer_snd, steps, Nat.zero_add]
    · intro shorter positive below
      rw [← length_effective] at below
      have there := List.getElem?_eq_getElem below
      obtain ⟨early, cut⟩ := course.cut positive (Nat.zero_le _) there
      have limited' : 0 < (m.under shorter).maxSteps := Int.natCast_pos.mpr positive
      exact ⟨_, there, callAt_of_course (m := m.under shorter) few cut (.inl limited')⟩

end Calls

/-- Five steps are enough for two procedures without a return, and so is any number without a limit;
two steps are not. -/
theorem limit_only_cuts_off_returnless :
    ∃ m : Machine, ((m.under 5).callAt returnless 0x1000 []).1 = .ok 1 ∧
      ((m.under 5).callAt returnless 0x1000 []).2.steps = 3 ∧
      (m.under 0).callAt returnless 0x1000 [] =
        (.ok 1, ((m.under 5).callAt returnless 0x1000 []).2.under 0) ∧
      ∃ s : Moment, (m.under 2).callAt returnless 0x1000 [] =
        (.error (.stepLimit s.pc), s.poised.under 2) := by
  let m : Machine := { memory := Memory.zeros, params := Registers.zeros 4 }
  have returns : ((m.under 5).callAt returnless 0x1000 []).1 = .ok 1 := by decide +kernel
  have three : ((m.under 5).callAt returnless 0x1000 []).2.steps = 3 := by decide +kernel
  obtain ⟨others, moments, -, steps, cuts⟩ :=
    limit_only_cuts_off returnless m 0x1000 [] (show (0 : Int) < 5 by decide)
      (by simp [returns])
  obtain ⟨s, -, cut⟩ := cuts 2 (by decide) (by rw [← steps (by decide), three]; decide)
  refine ⟨m, returns, three, ?_, s, cut⟩
  rw [others 0 (.inr ⟨by decide, by decide⟩), returns]

/-- A limit below the count that a refused call leaves does not cut the call off: the three steps
are those of the call before it. -/
theorem refused_call_not_cut_off :
    ∃ m used : Machine, load returnless = .ok m ∧
      used = (m.callAt returnless 0x1000 []).2 ∧
      ((used.under 5).callAt returnless 0x1000 [1, 2, 3, 4, 5]).1 =
        .error (.tooManyArguments 5 4) ∧
      ((used.under 5).callAt returnless 0x1000 [1, 2, 3, 4, 5]).2.steps = 3 ∧
      ((used.under 1).callAt returnless 0x1000 [1, 2, 3, 4, 5]).1 =
        .error (.tooManyArguments 5 4) :=
  ⟨_, _, rfl, rfl, by decide +kernel, by decide +kernel, by decide +kernel⟩

end Machine

end HighAsm
