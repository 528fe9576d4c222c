import HighAsm.Proofs.Execution

/-!
# Following a run

`Machine.visits` lists the instructions that a run carries out. A run from one state leads to
another (`Leads`) when it does some instructions and then is the run from there. `Executes` is what
is shown of a piece of code: either the run meets a limit on the way, or it carries out segments as
required and comes to the end of the code, or to a return. Its rules put pieces of code together in
the order in which they are carried out.
-/

namespace HighAsm

open List

/-- A stop that only says that a run was too long or too deep. -/
def Stop.IsLimit : Stop → Prop
  | stepLimit _ | stackOverflow _ => True
  | _ => False

/-- An instruction that is carried out: its address, and what is seen before it. -/
structure Visit where
  pc : Int
  view : View

/-- The instructions of a segment are carried out in a row. -/
structure Segment.Covers (base : Int) (s : Segment) (visits : List Visit) : Prop where
  pcs : visits.map (·.pc) = (range s.length).map fun k => codeAddress base (s.position + k)
  view : ∀ first ∈ visits.head?, first.view = s.view

/-- Segments are carried out one after the other, and nothing else. -/
inductive Performed (base : Int) : List Visit → List Segment → Prop
  | nil : Performed base [] []
  | cons {chunk visits : List Visit} {s : Segment} {segs : List Segment}
      (covers : s.Covers base chunk) (others : Performed base visits segs) :
      Performed base (chunk ++ visits) (s :: segs)

namespace Performed

variable {base : Int} {visits more : List Visit} {segs others : List Segment}

theorem append (first : Performed base visits segs) (second : Performed base more others) :
    Performed base (visits ++ more) (segs ++ others) := by
  induction first with
  | nil => exact second
  | cons covers _ ih =>
    rw [append_assoc, cons_append]
    exact .cons covers ih

theorem one {s : Segment} (covers : s.Covers base visits) : Performed base visits [s] := by
  have alone : Performed base (visits ++ []) [s] := .cons covers .nil
  rwa [append_nil] at alone

end Performed

namespace Machine

variable {position : Nat}

/-- What statements see of the machine. -/
def view (m : Machine) : View := ⟨m.memory, m.acc, m.params⟩

/-- The machine after a number of steps that changed its data only. -/
def after (m : Machine) (count : Nat) (c : Core) : Machine :=
  { m with steps := m.steps + count }.withCore c

theorem after_after (m : Machine) (first second : Nat) (c d : Core) :
    (m.after first c).after second d = m.after (first + second) d := by
  simp only [after, withCore, Nat.add_assoc]

/-- The instructions that a run of a number of rounds carries out. -/
def visits (p : Program) : Nat → Machine → Int → List Visit
  | 0, _, _ => []
  | rounds + 1, m, pc =>
    let here : List Visit := if m.atStop pc then [] else [⟨pc, m.view⟩]
    match m.round p pc with
    | .next pc m => here ++ visits p rounds m pc
    | .done _ => here
    | .stopped _ _ => []

/-- The run from a state carries out instructions and then is the run from another state. -/
structure Leads (p : Program) (rounds : Nat) (m : Machine) (pc : Int) (chunk : List Visit)
    (rounds' : Nat) (m' : Machine) (pc' : Int) : Prop where
  run : run p rounds m pc = run p rounds' m' pc'
  visits : visits p rounds m pc = chunk ++ visits p rounds' m' pc'

/-- The run from a state carries out instructions and then goes on with an outcome. -/
def Goes (p : Program) (rounds : Nat) (m : Machine) (pc : Int) (chunk : List Visit)
    (rounds' : Nat) : Outcome → Prop
  | .next pc' m' => Leads p rounds m pc chunk rounds' m' pc'
  | .done m' => run p rounds m pc = (none, m') ∧ visits p rounds m pc = chunk
  | .stopped why m' => run p rounds m pc = (some why, m')

/-- The run from a state meets a limit, or its rounds are used up. -/
def Cut (p : Program) (rounds : Nat) (m : Machine) (pc : Int) : Prop :=
  ∃ why m', run p rounds m pc = (some why, m') ∧ (why.IsLimit ∨ why = .unfinished)

section Following

variable {p : Program} {rounds rounds₁ rounds₂ : Nat} {m m₁ m₂ : Machine} {pc pc₁ pc₂ : Int}
  {chunk chunk' : List Visit}

theorem Leads.goes (leads : Leads p rounds m pc chunk rounds₁ m₁ pc₁) {outcome : Outcome}
    (goes : Goes p rounds₁ m₁ pc₁ chunk' rounds₂ outcome) :
    Goes p rounds m pc (chunk ++ chunk') rounds₂ outcome := by
  cases outcome with
  | next pc₂ m₂ =>
    exact ⟨leads.run.trans goes.run, by rw [leads.visits, goes.visits, append_assoc]⟩
  | done m₂ => exact ⟨leads.run.trans goes.1, by rw [leads.visits, goes.2]⟩
  | stopped why m₂ => exact leads.run.trans goes

theorem Leads.trans (first : Leads p rounds m pc chunk rounds₁ m₁ pc₁)
    (second : Leads p rounds₁ m₁ pc₁ chunk' rounds₂ m₂ pc₂) :
    Leads p rounds m pc (chunk ++ chunk') rounds₂ m₂ pc₂ := by
  have goes : Goes p rounds₁ m₁ pc₁ chunk' rounds₂ (.next pc₂ m₂) := second
  exact first.goes goes

theorem Leads.cut (leads : Leads p rounds m pc chunk rounds₁ m₁ pc₁)
    (cut : Cut p rounds₁ m₁ pc₁) : Cut p rounds m pc := by
  obtain ⟨why, m', ends, limit⟩ := cut
  exact ⟨why, m', leads.run.trans ends, limit⟩

theorem goes_round (p : Program) (rounds : Nat) (m : Machine) (pc : Int) :
    Goes p (rounds + 1) m pc (if m.atStop pc then [] else [⟨pc, m.view⟩]) rounds
      (m.round p pc) := by
  cases outcome : m.round p pc with
  | next pc' m' | done m' =>
    exact ⟨by simp only [Machine.run, outcome], by simp only [Machine.visits, outcome]⟩
  | stopped why m' => simp only [Goes, Machine.run, outcome]

/-- One round in which an instruction is carried out. -/
theorem goes_instr (addressable : p.Addressable) {i : Instr} (here : p.code[position]? = some i)
    (inside : m.atStop (codeAddress p.codeBase position) = false) (rounds : Nat) :
    Cut p rounds m (codeAddress p.codeBase position) ∨ ∃ rounds₁, rounds = rounds₁ + 1 ∧
      Goes p rounds m (codeAddress p.codeBase position)
        [⟨codeAddress p.codeBase position, m.view⟩] rounds₁
        ({ m with steps := m.steps + 1 }.execute p (codeAddress p.codeBase position) i) := by
  cases rounds with
  | zero => exact .inl ⟨.unfinished, m, rfl, .inr rfl⟩
  | succ rounds =>
    by_cases limited : 0 < m.maxSteps ∧ m.maxSteps < (m.steps + 1 : Nat)
    · refine .inl ⟨.stepLimit (codeAddress p.codeBase position), { m with steps := m.steps + 1 },
        ?_, .inl trivial⟩
      have round : m.round p (codeAddress p.codeBase position) =
          .stopped (.stepLimit (codeAddress p.codeBase position))
            { m with steps := m.steps + 1 } := by
        simp only [Machine.round, inside, Program.instr?_codeAddress addressable here,
          Bool.false_eq_true, if_false]
        rw [if_pos limited]
      simp only [Machine.run, round]
    · have round := round_eq_execute addressable here inside (by omega)
      have goes := goes_round p rounds m (codeAddress p.codeBase position)
      rw [inside, if_neg Bool.false_ne_true, round] at goes
      exact .inr ⟨rounds, rfl, goes⟩

theorem goes_leave (stop : m.atStop pc = true) (rounds : Nat) :
    Cut p rounds m pc ∨
      ∃ rounds₁, rounds = rounds₁ + 1 ∧ Goes p rounds m pc [] rounds₁ m.leave := by
  cases rounds with
  | zero => exact .inl ⟨.unfinished, m, rfl, .inr rfl⟩
  | succ rounds =>
    have round : m.round p pc = m.leave := by rw [Machine.round, if_pos stop]
    have goes := goes_round p rounds m pc
    rw [if_pos stop, round] at goes
    exact .inr ⟨rounds, rfl, goes⟩

/-- Plain code is carried out to its end, one round an instruction. -/
theorem leads_code (addressable : p.Addressable) {code : List Instr} {c : Core}
    (stands : p.HasCode position code) (effects : Instr.effects? p.wordSize code m.core = some c)
    (inside : ∀ k < code.length, m.atStop (codeAddress p.codeBase (position + k)) = false)
    (rounds : Nat) :
    Cut p rounds m (codeAddress p.codeBase position) ∨ ∃ rounds₁ chunk,
      rounds = rounds₁ + code.length ∧
      Leads p rounds m (codeAddress p.codeBase position) chunk rounds₁ (m.after code.length c)
        (codeAddress p.codeBase (position + code.length)) ∧
      (Segment.mk position code.length m.view).Covers p.codeBase chunk := by
  induction code generalizing m position rounds with
  | nil =>
    cases effects
    exact .inr ⟨rounds, [], rfl, ⟨rfl, rfl⟩, rfl, by simp⟩
  | cons i rest ih =>
    obtain ⟨d, first, others⟩ := Option.bind_eq_some_iff.mp effects
    simp only [length_cons] at inside
    rcases goes_instr addressable stands.head (inside 0 (by omega)) rounds with
      cut | ⟨rounds₁, rfl, goes⟩
    · exact .inl cut
    · rw [Instr.execute_of_effect? (m := { m with steps := m.steps + 1 }) first,
        codeAddress_succ] at goes
      have later := ih (m := m.after 1 d) stands.tail others (fun k within => by
        have shifted := inside (k + 1) (by omega)
        rwa [show position + (k + 1) = position + 1 + k by omega] at shifted) rounds₁
      rcases later with cut | ⟨rounds₂, chunk, rfl, leads, covers⟩
      · exact .inl (Leads.cut goes cut)
      · rw [after_after, Nat.add_comm 1] at leads
        have behind : position + (rest.length + 1) = position + 1 + rest.length := by omega
        rw [length_cons, behind]
        refine .inr ⟨rounds₂, _, by omega, Leads.trans goes leads, ?_, by simp⟩
        rw [map_append, covers.pcs, range_succ_eq_map]
        simp [Nat.add_assoc, Nat.add_comm 1]

end Following

/-- How a run goes on from a state whose code is to be carried out as required: it meets a limit, or
it comes to the end of the code with the innermost frame and those below it as they should be, or it
leaves that frame by a return. -/
inductive Executes (p : Program) (rounds : Nat) (m : Machine) (pc : Int) (frame : Frame)
    (rest : List Frame) (required : List Segment → View → Exit → Prop) (target : Int) : Prop
  | cut (cut : Cut p rounds m pc)
  | through {chunk : List Visit} {segs : List Segment} {rounds' : Nat} {m' : Machine}
      (meets : required segs m'.view .through) (performed : Performed p.codeBase chunk segs)
      (fewer : rounds' ≤ rounds) (count : m'.params.count = m.params.count)
      (frames : m'.frames = frame :: rest) (leads : Leads p rounds m pc chunk rounds' m' target)
  | returned {chunk : List Visit} {segs : List Segment} {rounds' : Nat} {m' : Machine}
      {loops : List Int} (meets : required segs m'.view .returned)
      (performed : Performed p.codeBase chunk segs) (fewer : rounds' ≤ rounds)
      (count : m'.params.count = m.params.count)
      (frames : m'.frames = { frame with loops := loops } :: rest)
      (leaves : Goes p rounds m pc chunk rounds' m'.leave)

namespace Executes

variable {p : Program} {rounds : Nat} {m : Machine} {pc : Int} {frame : Frame}
  {rest : List Frame} {required : List Segment → View → Exit → Prop} {target : Int}

/-- What is carried out first comes before what is carried out from there on. -/
theorem of_leads {rounds₁ : Nat} {m₁ : Machine} {pc₁ : Int} {chunk : List Visit}
    {segs₁ : List Segment} (leads : Leads p rounds m pc chunk rounds₁ m₁ pc₁)
    (fewer₁ : rounds₁ ≤ rounds) (count₁ : m₁.params.count = m.params.count)
    (performed₁ : Performed p.codeBase chunk segs₁)
    (next : Executes p rounds₁ m₁ pc₁ frame rest
      (fun segs w exit => required (segs₁ ++ segs) w exit) target) :
    Executes p rounds m pc frame rest required target := by
  cases next with
  | cut cut => exact .cut (leads.cut cut)
  | through meets performed fewer count frames leads' =>
    exact .through meets (performed₁.append performed) (by omega) (count.trans count₁) frames
      (leads.trans leads')
  | returned meets performed fewer count frames leaves =>
    exact .returned meets (performed₁.append performed) (by omega) (count.trans count₁) frames
      (leads.goes leaves)

/-- A piece of code is carried out, and if it comes to its end, the code behind it. The first piece
may leave other counters in the frame. -/
theorem andThen {inner : List Int} {mid : Int} {first : List Segment → View → Exit → Prop}
    (executes : Executes p rounds m pc { frame with loops := inner } rest first mid)
    (returns : ∀ segs w, first segs w .returned → required segs w .returned)
    (next : ∀ rounds₁ m₁ segs₁, first segs₁ m₁.view .through → rounds₁ ≤ rounds →
      m₁.params.count = m.params.count → m₁.frames = { frame with loops := inner } :: rest →
      Executes p rounds₁ m₁ mid frame rest
        (fun segs w exit => required (segs₁ ++ segs) w exit) target) :
    Executes p rounds m pc frame rest required target := by
  cases executes with
  | cut cut => exact .cut cut
  | through meets performed fewer count frames leads =>
    exact of_leads leads fewer count performed (next _ _ _ meets fewer count frames)
  | returned meets performed fewer count frames leaves =>
    exact .returned (returns _ _ meets) performed fewer count frames leaves

theorem instr (addressable : p.Addressable) {i : Instr} {pc' : Int} {m' : Machine}
    (here : p.code[position]? = some i)
    (inside : m.atStop (codeAddress p.codeBase position) = false)
    (goes : { m with steps := m.steps + 1 }.execute p (codeAddress p.codeBase position) i =
      .next pc' m') (count : m'.params.count = m.params.count)
    (next : ∀ rounds₁ < rounds, Executes p rounds₁ m' pc' frame rest
      (fun segs w exit => required (⟨position, 1, m.view⟩ :: segs) w exit) target) :
    Executes p rounds m (codeAddress p.codeBase position) frame rest required target := by
  rcases goes_instr addressable here inside rounds with cut | ⟨rounds₁, rfl, leads⟩
  · exact .cut cut
  · rw [goes] at leads
    have covers : (Segment.mk position 1 m.view).Covers p.codeBase
        [⟨codeAddress p.codeBase position, m.view⟩] := ⟨rfl, by simp⟩
    exact of_leads leads (by omega) count (.one covers) (next rounds₁ (by omega))

theorem code (addressable : p.Addressable) {code : List Instr} {c : Core}
    (stands : p.HasCode position code) (effects : Instr.effects? p.wordSize code m.core = some c)
    (inside : ∀ k < code.length, m.atStop (codeAddress p.codeBase (position + k)) = false)
    (count : c.params.count = m.params.count)
    (next : ∀ rounds₁, rounds = rounds₁ + code.length →
      Executes p rounds₁ (m.after code.length c) (codeAddress p.codeBase (position + code.length))
        frame rest
        (fun segs w exit => required (⟨position, code.length, m.view⟩ :: segs) w exit) target) :
    Executes p rounds m (codeAddress p.codeBase position) frame rest required target := by
  rcases leads_code addressable stands effects inside rounds with
    cut | ⟨rounds₁, chunk, split, leads, covers⟩
  · exact .cut cut
  · exact of_leads leads (by omega) count (.one covers) (next rounds₁ split)

theorem stop {loops : List Int} (ended : m.atStop pc = true)
    (frames : m.frames = { frame with loops := loops } :: rest)
    (meets : required [] m.view .returned) :
    Executes p rounds m pc frame rest required target := by
  rcases goes_leave (p := p) ended rounds with cut | ⟨rounds₁, rfl, leaves⟩
  · exact .cut cut
  · exact .returned meets .nil (by omega) rfl frames leaves

theorem here (frames : m.frames = frame :: rest) (meets : required [] m.view .through) :
    Executes p rounds m pc frame rest required pc :=
  .through meets .nil (Nat.le_refl _) rfl frames ⟨rfl, rfl⟩

theorem imp {weaker : List Segment → View → Exit → Prop}
    (executes : Executes p rounds m pc frame rest required target)
    (implies : ∀ segs w exit, required segs w exit → weaker segs w exit) :
    Executes p rounds m pc frame rest weaker target := by
  refine andThen executes (fun segs w => implies segs w .returned) ?_
  intro rounds₁ m₁ segs meets _ _ frames
  refine here frames ?_
  rw [append_nil]
  exact implies _ _ _ meets

/-- A routine that was called returns to its caller, whose code goes on. -/
theorem called {callee : Frame} {anywhere : Int} {inside : List Segment → View → Exit → Prop}
    (executes : Executes p rounds m pc callee (frame :: rest) inside anywhere)
    (returns : ∀ segs w, ¬ inside segs w .through)
    (next : ∀ rounds₁ m₁ segs₁, inside segs₁ m₁.view .returned → rounds₁ ≤ rounds →
      m₁.params.count = m.params.count → m₁.frames = frame :: rest →
      Executes p rounds₁ m₁ callee.ret frame rest
        (fun segs w exit => required (segs₁ ++ segs) w exit) target) :
    Executes p rounds m pc frame rest required target := by
  cases executes with
  | cut cut => exact .cut cut
  | through meets => exact absurd meets (returns _ _)
  | @returned chunk segs rounds' m' loops meets performed fewer count frames leaves =>
    have left : m'.leave = .next callee.ret { m' with frames := frame :: rest } := by
      simp only [Machine.leave, frames]
    rw [left] at leaves
    exact of_leads leaves fewer count performed
      (next rounds' { m' with frames := frame :: rest } segs meets fewer count rfl)

theorem limit (addressable : p.Addressable) {i : Instr} {why : Stop} {m' : Machine}
    (here : p.code[position]? = some i)
    (inside : m.atStop (codeAddress p.codeBase position) = false)
    (stops : { m with steps := m.steps + 1 }.execute p (codeAddress p.codeBase position) i =
      .stopped why m') (limit : why.IsLimit) :
    Executes p rounds m (codeAddress p.codeBase position) frame rest required target := by
  rcases goes_instr addressable here inside rounds with cut | ⟨rounds₁, rfl, goes⟩
  · exact .cut cut
  · rw [stops] at goes
    exact .cut ⟨why, m', goes, .inl limit⟩

theorem ret (addressable : p.Addressable) {loops : List Int} (here : p.code[position]? = some .ret)
    (inside : m.atStop (codeAddress p.codeBase position) = false)
    (frames : m.frames = { frame with loops := loops } :: rest)
    (meets : required [⟨position, 1, m.view⟩] m.view .returned) :
    Executes p rounds m (codeAddress p.codeBase position) frame rest required target := by
  rcases goes_instr addressable here inside rounds with cut | ⟨rounds₁, rfl, leaves⟩
  · exact .cut cut
  · have covers : (Segment.mk position 1 m.view).Covers p.codeBase
        [⟨codeAddress p.codeBase position, m.view⟩] := ⟨rfl, by simp⟩
    let m' : Machine := { m with steps := m.steps + 1 }
    have meets' : required [⟨position, 1, m.view⟩] m'.view .returned := meets
    exact .returned meets' (.one covers) (Nat.le_succ rounds₁) rfl frames leaves

end Executes

end Machine

end HighAsm
