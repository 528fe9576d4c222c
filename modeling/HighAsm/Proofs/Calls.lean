import HighAsm.Proofs.ControlFlow
import HighAsm.Proofs.Limits
import Mathlib.Data.List.Forall2

/-!
# Calls from outside

A call of a procedure of an assembled program carries out the routine at its entry as the source
prescribes, unless a limit cuts it short. Nothing else can stop it: control never leaves the
program, every counter that is asked for is there, and so is every register. This needs nothing of
the machine but the right number of registers, so it holds of every call in a row of calls, whatever
those before it came to.
-/

namespace HighAsm

namespace Machine

/-- The machine when a call from outside begins. -/
def entered (p : Program) (m : Machine) (entry : Int) (args : List Int) : Machine :=
  { m with
    params := m.params.fill 0 (args.map (wrap p))
    frames := [⟨-1, p.stopOf entry, []⟩]
    steps := 0 }

/-- What a call from outside answers when its run has ended. -/
def answer : Option Stop × Machine → Except Stop Int × Machine
  | (none, m) => (.ok m.acc, m)
  | (some why, m) => (.error why, m)

/-- The instructions that a call from outside carries out. -/
def callVisits (p : Program) (m : Machine) (entry : Int) (args : List Int) : List Visit :=
  visits p (rounds m.maxSteps) (m.entered p entry args) entry

/-- What is seen when a call from outside begins. -/
def callView (p : Program) (m : Machine) (args : List Int) : View :=
  m.view.pass p.wordSize (args.map .const)

/-- A machine has the registers that a program asks for. -/
def Ready (p : Program) (m : Machine) : Prop := (m.params.count : Int) = p.maxParams

/-- A stop is due to the limits on a call: on its steps, if there is one, and on its frames. A call
without a limit on its steps may be given up instead. -/
def Excuses (maxSteps : Int) (why : Stop) : Prop :=
  why.IsLimit ∨ why = .unfinished ∧ maxSteps ≤ 0

/-- A call from outside is cut short by a limit. -/
def CutShort (p : Program) (m : Machine) (entry : Int) (args : List Int) : Prop :=
  ∃ why, (m.callAt p entry args).1 = .error why ∧ Excuses m.maxSteps why

/-- A call from outside carries out segments and nothing else, and returns. -/
structure Returns (p : Program) (m : Machine) (entry : Int) (args : List Int)
    (segs : List Segment) (w : View) : Prop where
  result : (m.callAt p entry args).1 = .ok w.acc
  view : (m.callAt p entry args).2.view = w
  performed : Performed p.codeBase (m.callVisits p entry args) segs

section Entering

variable {p : Program} {m : Machine} {entry : Int} {args : List Int}

theorem load_ready (loaded : load p = .ok m) : m.Ready p := by
  unfold load at loaded
  split at loaded
  · contradiction
  · next positive =>
    cases loaded
    simp only [Ready, Registers.zeros]
    omega

theorem entered_view (p : Program) (m : Machine) (entry : Int) (args : List Int) :
    (m.entered p entry args).view = m.callView p args := by
  have words : (args.map Operand.const).map (·.wordIn p.wordSize m.memory) = args.map (wrap p) := by
    rw [List.map_map]
    apply List.map_congr_left
    intro n _
    exact (wrap_eq p n).symm
  simp only [entered, view, callView, View.pass, words]

theorem callAt_eq_answer (p : Program) (entry : Int) (few : args.length ≤ m.params.count) :
    m.callAt p entry args =
      answer (run p (rounds m.maxSteps) (m.entered p entry args) entry) := by
  rw [callAt, if_neg (Nat.not_lt.mpr few)]
  rfl

theorem run_of_answer {ran : Option Stop × Machine} {n : Int} {m' : Machine}
    (returns : answer ran = (.ok n, m')) : ran = (none, m') := by
  obtain ⟨_ | why, m₁⟩ := ran
  · exact congrArg (Prod.mk none) (Prod.mk.inj returns).2
  · exact absurd (Prod.mk.inj returns).1 nofun

/-- A call with few enough arguments is the run from its entry. -/
theorem callAt_eq (entry : Int) (ready : m.Ready p) (few : (args.length : Int) ≤ p.maxParams) :
    m.callAt p entry args =
      match run p (rounds m.maxSteps) (m.entered p entry args) entry with
      | (none, m) => (.ok m.acc, m)
      | (some why, m) => (.error why, m) := by
  unfold Ready at ready
  rw [callAt, if_neg (by omega)]
  rfl

theorem callAt_ready (ready : m.Ready p) (few : (args.length : Int) ≤ p.maxParams) :
    (m.callAt p entry args).2.Ready p := by
  have bounds := (run_bounds p (rounds m.maxSteps) (m.entered p entry args) entry).2
  have filled : (m.entered p entry args).params.count = m.params.count := Registers.count_fill ..
  rw [callAt_eq entry ready few]
  unfold Ready at ready ⊢
  rw [← ready, ← filled, ← bounds]
  split
  · next m' ends => rw [ends]
  · next why m' ends => rw [ends]

theorem entered_finishes (limited : 0 < m.maxSteps) :
    (run p (rounds m.maxSteps) (m.entered p entry args) entry).1 ≠ some .unfinished := by
  have within : 0 < (m.entered p entry args).maxSteps := limited
  apply run_finishes within
  simp only [allowance, entered, List.length_singleton, rounds, if_pos limited]
  omega

end Entering

/-! ## What a call carries out -/

section Calling

variable {p : Program} {routines : List Routine} {m : Machine} {entry : Int} {args : List Int}

theorem callAt_executes (addressable : p.Addressable) (made : p.MadeOf routines)
    (known : p.IsEntry entry) (ready : m.Ready p) (few : (args.length : Int) ≤ p.maxParams) :
    m.CutShort p entry args ∨ ∃ q r segs w, Placed routines q r ∧
      entry = codeAddress p.codeBase q ∧
      Runs (p.library routines) (.routine q r) (m.callView p args) segs w .returned ∧
      m.Returns p entry args segs w := by
  obtain ⟨before, r, others, split, begins, stops, -, -⟩ := made.entry_leads known
  have placed : Placed routines (Routine.extent before) r := ⟨before, others, split, rfl⟩
  have running : Running p (m.entered p entry args) ⟨-1, p.stopOf entry, []⟩ []
      (Routine.extent before + r.size) := by
    refine ⟨rfl, stops, ?_⟩
    rw [entered, Registers.count_fill]
    exact ready
  have executes := routine_executes addressable made placed
    (fun rounds₁ (_ : rounds₁ ≤ rounds m.maxSteps) => text_executes addressable made rounds₁)
    running 0
  rw [← begins, entered_view] at executes
  have calls := callAt_eq entry ready few
  cases executes with
  | cut cut =>
    obtain ⟨why, m', ends, limit⟩ := cut
    rw [ends] at calls
    refine .inl ⟨why, by rw [calls], limit.imp_right fun given => ⟨given, ?_⟩⟩
    apply Int.not_lt.mp
    intro limited
    apply entered_finishes limited
    rw [ends, given]
  | through meets => nomatch meets
  | @returned chunk segs rounds' m' loops meets performed _ _ frames leaves =>
    -- The only frame is left, so that the call is done.
    have left : m'.leave = .done { m' with frames := [] } := by
      simp only [leave, frames]
    rw [left] at leaves
    obtain ⟨ends, visited⟩ := leaves
    rw [ends] at calls
    refine .inr ⟨_, r, segs, m'.view, placed, begins, meets, ?_, ?_, ?_⟩
    · rw [calls, view]
    · rw [calls]
      rfl
    · rw [callVisits, visited]
      exact performed

end Calling

end Machine

/-- Where no two procedures share an entry, a call of a procedure that no limit cuts short carries
out what the source prescribes: there is one order of segments that it prescribes, and no other. A
call statement goes to the procedure that it names. -/
theorem Program.call_follows_source {settings : Settings} {modules : List (List Text)} {p : Program}
    (assembled : Assembly.program? settings modules = some p) (addressable : p.Addressable)
    (distinct : (p.procedures.map (·.entry)).Nodup) :
    ∃ routines, Written settings modules routines p ∧ (p.library routines).CallsByName ∧
      ∀ proc ∈ p.procedures, ∃ q r, Placed routines q r ∧ proc = r.procedure p.codeBase q ∧
        ∀ (m : Machine) (args : List Int), m.Ready p → (args.length : Int) ≤ p.maxParams →
          ¬ m.CutShort p proc.entry args →
          ∃ segs w, m.Returns p proc.entry args segs w ∧
            ∀ segs' w' exit,
              Runs (p.library routines) (.routine q r) (m.callView p args) segs' w' exit ↔
                segs' = segs ∧ w' = w ∧ exit = .returned := by
  obtain ⟨routines, written, made⟩ := assembled_madeOf assembled addressable
  have apart : (p.library routines).Distinct := fun _ _ _ _ => made.placed_unique distinct
  have named : (p.library routines).CallsByName :=
    fun _ member _ _ _ _ calls => made.callee_placed member calls
  refine ⟨routines, written, named, fun proc member => ?_⟩
  have known : p.IsEntry proc.entry := ⟨proc, member, rfl⟩
  rw [made.procedures] at member
  obtain ⟨q, r, placed, rfl⟩ := Routine.mem_procedures member
  rw [Nat.zero_add] at known ⊢
  refine ⟨q, r, placed, rfl, fun m args ready few ends => ?_⟩
  rcases Machine.callAt_executes addressable made known ready few with
    cut | ⟨q', r', segs, w, placed', begins, runs, returns⟩
  · exact absurd cut ends
  · obtain ⟨rfl, rfl⟩ := apart placed placed' begins
    refine ⟨segs, w, returns, fun segs' w' exit => ⟨fun other => ?_, ?_⟩⟩
    · exact Runs.deterministic apart other runs
    · rintro ⟨rfl, rfl, rfl⟩
      exact runs

/-- A counted loop calls a procedure, which returns from inside a loop of its own. -/
def nestedLoops : List Text :=
  ["proc down(n)", "while(n#0) n-1>n if(n-2=0) endproc endif endwhile", "proc main(k)",
    "for(k) down(4) endfor"].map Text.ofString

/-- The program that `nestedLoops` is assembled to. -/
def nestedProgram : Program :=
  { code := #[.storeParam 0 0x2002, .load (.var 0x2002), .jump .zero 0x100b, .load (.var 0x2002),
      .binary .sub (.const 1), .store 0x2002, .load (.var 0x2002), .binary .sub (.const 2),
      .jump .nonZero 0x100a, .ret, .jump .always 0x1001, .storeParam 0 0x2004,
      .load (.var 0x2004), .loopHead 0x1012, .loopIndex, .loadParam 0 (.const 4), .call 0x1000,
      .loopNext 0x100e]
    data := #[0, 0, 0, 0, 0, 0]
    procedures := [⟨"down", 0x1000, 1⟩, ⟨"main", 0x100b, 1⟩] }

theorem nestedLoops_assembled : Assembly.program? {} [nestedLoops] = some nestedProgram := by
  decide +kernel

theorem nestedProgram_addressable : nestedProgram.Addressable := by
  unfold Program.Addressable
  decide

theorem Program.call_follows_nestedLoops :
    Assembly.program? {} [nestedLoops] = some nestedProgram ∧
    ∃ m routines q r segs w, Machine.load nestedProgram = .ok m ∧
      Written {} [nestedLoops] routines nestedProgram ∧ Placed routines q r ∧
      r.name = "main" ∧ m.Returns nestedProgram 0x100b [2] segs w ∧ w.acc = 0 ∧
      Runs (nestedProgram.library routines) (.routine q r) (m.callView nestedProgram [2]) segs w
        .returned := by
  have distinct : (nestedProgram.procedures.map (·.entry)).Nodup := by decide
  have called : ((Machine.load nestedProgram).map
      fun m => (m.callAt nestedProgram 0x100b [2]).1.toOption).toOption = some (some 0) := by
    decide +kernel
  refine ⟨nestedLoops_assembled, ?_⟩
  obtain ⟨routines, written, -, follows⟩ :=
    call_follows_source nestedLoops_assembled nestedProgram_addressable distinct
  obtain ⟨q, r, placed, same, calls⟩ := follows ⟨"main", 0x100b, 1⟩ (by decide)
  cases loaded : Machine.load nestedProgram with
  | error crash =>
    rw [loaded] at called
    contradiction
  | ok m =>
    rw [loaded] at called
    have result : (m.callAt nestedProgram 0x100b [2]).1 = .ok 0 :=
      ok_of_toOption (Option.some.inj called)
    have uncut : ¬ m.CutShort nestedProgram 0x100b [2] := by
      rintro ⟨why, fails, -⟩
      rw [result] at fails
      contradiction
    obtain ⟨segs, w, returns, prescribed⟩ :=
      calls m [2] (Machine.load_ready loaded) (by decide) uncut
    have acc : w.acc = 0 := Except.ok.inj (returns.result.symm.trans result)
    exact ⟨m, routines, q, r, segs, w, rfl, written, placed, (congrArg Procedure.name same).symm,
      returns, acc, (prescribed segs w .returned).mpr ⟨rfl, rfl, rfl⟩⟩

/-! ## Rows of calls -/

/-- What is called from outside: a procedure by its name, or what begins at an entry. -/
inductive Callee
  | named (name : Text)
  | entry (entry : Int)

/-- A call from outside, with the limit that is set for its steps. -/
structure Invocation where
  callee : Callee
  args : List Int
  maxSteps : Int := 1000000

namespace Invocation

/-- A call is of a procedure of the program, and has no more arguments than there are registers. -/
structure Fits (p : Program) (call : Invocation) : Prop where
  callee :
    match call.callee with
    | .named name => (p.procedureNamed? name).isSome
    | .entry entry => p.IsEntry entry
  few : (call.args.length : Int) ≤ p.maxParams

/-- A result that a call may have: a value, or a stop that is due to the limits on the call. -/
def Permits (call : Invocation) (result : Except Stop Int) : Prop :=
  ∀ why, result = .error why → Machine.Excuses call.maxSteps why

/-- Carries out a call. -/
def perform (p : Program) (m : Machine) (call : Invocation) : Except Stop Int × Machine :=
  match call.callee with
  | .named name => { m with maxSteps := call.maxSteps }.call p name call.args
  | .entry entry => { m with maxSteps := call.maxSteps }.callAt p entry call.args

/-- Carries out calls one after the other, whatever they come to. -/
def performAll (p : Program) : Machine → List Invocation → List (Except Stop Int) × Machine
  | m, [] => ([], m)
  | m, call :: rest =>
    let (result, m) := call.perform p m
    let (results, m) := performAll p m rest
    (result :: results, m)

variable {p : Program} {routines : List Routine} {m : Machine}

theorem callAt_permitted (addressable : p.Addressable) (made : p.MadeOf routines) {entry : Int}
    {args : List Int} (known : p.IsEntry entry) (ready : m.Ready p)
    (few : (args.length : Int) ≤ p.maxParams) {why : Stop}
    (fails : (m.callAt p entry args).1 = .error why) : Machine.Excuses m.maxSteps why := by
  rcases Machine.callAt_executes addressable made known ready few with
    ⟨why', cut, excuses⟩ | ⟨q, r, segs, w, -, -, -, returns⟩
  · obtain rfl := Except.error.inj (cut.symm.trans fails)
    exact excuses
  · rw [returns.result] at fails
    contradiction

/-- One call: its result is permitted, and the machine stays ready for more. -/
theorem perform_permitted (addressable : p.Addressable) (made : p.MadeOf routines)
    (ready : m.Ready p) {call : Invocation} (fits : call.Fits p) :
    call.Permits (call.perform p m).1 ∧ (call.perform p m).2.Ready p := by
  obtain ⟨callee, args, maxSteps⟩ := call
  have limited : { m with maxSteps := maxSteps }.Ready p := ready
  cases callee with
  | entry entry =>
    refine ⟨fun why fails => ?_, Machine.callAt_ready limited fits.few⟩
    exact callAt_permitted addressable made fits.callee limited fits.few fails
  | named name =>
    obtain ⟨proc, found⟩ := Option.isSome_iff_exists.mp fits.callee
    have known : p.IsEntry proc.entry := ⟨proc, List.mem_of_find?_eq_some found, rfl⟩
    have calls : (Invocation.mk (.named name) args maxSteps).perform p m =
        { m with maxSteps := maxSteps }.callAt p proc.entry args := by
      simp only [perform, Machine.call, found]
    rw [calls]
    refine ⟨fun why fails => ?_, Machine.callAt_ready limited fits.few⟩
    exact callAt_permitted addressable made known limited fits.few fails

/-- No call of procedures of an assembled program goes wrong: in every row of calls, each returns or
is stopped by a limit. -/
theorem performAll_safe {settings : Settings} {modules : List (List Text)}
    (assembled : Assembly.program? settings modules = some p) (addressable : p.Addressable)
    (ready : m.Ready p) {calls : List Invocation} (fit : ∀ call ∈ calls, call.Fits p) :
    List.Forall₂ Permits calls (performAll p m calls).1 ∧ (performAll p m calls).2.Ready p := by
  obtain ⟨routines, -, made⟩ := assembled_madeOf assembled addressable
  induction calls generalizing m with
  | nil => exact ⟨.nil, ready⟩
  | cons call rest ih =>
    obtain ⟨permitted, ready₁⟩ :=
      perform_permitted addressable made ready (fit call List.mem_cons_self)
    obtain ⟨others, ready₂⟩ :=
      ih ready₁ fun other member => fit other (List.mem_cons_of_mem _ member)
    exact ⟨.cons permitted others, ready₂⟩

/-- Calls of which the first one runs into its limit inside two loops. -/
def nestedCalls : List Invocation :=
  [⟨.named "main", [2], 12⟩, ⟨.entry 0x1000, [1], 1000⟩, ⟨.named "main", [-3], 0⟩]

theorem performAll_safe_nestedCalls :
    Assembly.program? {} [nestedLoops] = some nestedProgram ∧
    ∃ m, Machine.load nestedProgram = .ok m ∧ (∀ call ∈ nestedCalls, call.Fits nestedProgram) ∧
      (performAll nestedProgram m nestedCalls).1.map Except.toOption = [none, some 0, some (-3)] ∧
      List.Forall₂ Permits nestedCalls (performAll nestedProgram m nestedCalls).1 := by
  have results : ((Machine.load nestedProgram).map fun m =>
      (performAll nestedProgram m nestedCalls).1.map Except.toOption).toOption =
        some [none, some 0, some (-3)] := by
    decide +kernel
  have fit : ∀ call ∈ nestedCalls, call.Fits nestedProgram := by
    intro call member
    simp only [nestedCalls, List.mem_cons, List.not_mem_nil, or_false] at member
    rcases member with rfl | rfl | rfl
    · exact ⟨by decide +kernel, by decide⟩
    · exact ⟨⟨⟨"down", 0x1000, 1⟩, by decide, rfl⟩, by decide⟩
    · exact ⟨by decide +kernel, by decide⟩
  refine ⟨nestedLoops_assembled, ?_⟩
  cases loaded : Machine.load nestedProgram with
  | error crash =>
    rw [loaded] at results
    contradiction
  | ok m =>
    rw [loaded] at results
    have safe := performAll_safe nestedLoops_assembled nestedProgram_addressable
      (Machine.load_ready loaded) fit
    exact ⟨m, rfl, fit, Option.some.inj results, safe.1⟩

end Invocation

end HighAsm
