import HighAsm.Proofs.Tracing

/-!
# Control flow

The code of a text is carried out as the text prescribes. There is one lemma for each kind of
statement and structure; they are put together by induction on the number of rounds that a run has
left, because a loop comes back to the code it started from and a call goes to any routine. A run
that comes to the code of a text either meets a limit or goes through `Runs`.
-/

namespace HighAsm

open List Opening

variable {required : List Segment → View → Exit → Prop} {k remaining : Nat}

/-! ## Parameters -/

namespace Registers

variable {bank : Registers} {register : Nat}

theorem set?_natCast (inside : register < bank.count) (value : Int) :
    bank.set? register value = some { bank with cells := bank.cells.set register value } := by
  rw [set?, if_pos (by omega), Int.toNat_natCast]

theorem get?_natCast (inside : register < bank.count) :
    bank.get? register = some (bank.cells.get register) := by
  rw [get?, if_pos (by omega), Int.toNat_natCast]

theorem count_fill (bank : Registers) (first : Nat) (values : List Int) :
    (bank.fill first values).count = bank.count := by
  induction values generalizing bank first with
  | nil => rfl
  | cons value rest ih => rw [fill, ih]

variable {first : Nat} {values : List Int} (fits : first + values.length ≤ bank.count)
include fits

theorem get?_fill_before (before : k < first) : (bank.fill first values).get? k = bank.get? k := by
  induction values generalizing bank first with
  | nil => rfl
  | cons value rest ih =>
    rw [length_cons] at fits
    have written := get?_set? (set?_natCast (show first < bank.count by omega) value) k
    rw [if_neg (by omega)] at written
    rw [fill, ih (by simp only; omega) (by omega), written]

theorem get?_fill (inside : first ≤ k) (within : k < first + values.length) :
    (bank.fill first values).get? k = values[k - first]? := by
  induction values generalizing bank first with
  | nil => exact absurd within (Nat.not_lt.mpr inside)
  | cons value rest ih =>
    rw [length_cons] at fits within
    rw [fill]
    rcases Nat.lt_or_eq_of_le inside with later | rfl
    · have next : k - first = k - (first + 1) + 1 := by omega
      rw [ih (by simp only; omega) later (by omega), next, getElem?_cons_succ]
    · have written := get?_set? (set?_natCast (show first < bank.count by omega) value) first
      rw [if_pos rfl] at written
      rw [get?_fill_before (by simp only; omega) (Nat.lt_succ_self first), written, Nat.sub_self]
      rfl

end Registers

theorem effects?_passArguments (size : Int) {args : List Operand} {register : Nat} {c : Core}
    (fits : register + args.length ≤ c.params.count) :
    Instr.effects? size (Assembly.passArguments register args) c =
      some { c with params := c.params.fill register (args.map (·.wordIn size c.memory)) } := by
  induction args generalizing register c with
  | nil => rfl
  | cons arg rest ih =>
    simp only [length_cons] at fits
    have inside : register < c.params.count := by omega
    have set := Registers.set?_natCast inside (arg.wordIn size c.memory)
    simp only [Assembly.passArguments, Instr.effects?, Instr.effect?, set, Option.map_some,
      Option.bind_some]
    rw [ih (by simp only; omega)]
    rfl

theorem effects?_storeParams (size : Int) {places : List Int} {register : Nat} {c : Core}
    (fits : register + places.length ≤ c.params.count) :
    Instr.effects? size (storeParams register places) c =
      some { c with memory := View.storeRegisters size c.params register places c.memory } := by
  induction places generalizing register c with
  | nil => rfl
  | cons place rest ih =>
    simp only [length_cons] at fits
    have inside : register < c.params.count := by omega
    have get := Registers.get?_natCast inside
    simp only [storeParams, Instr.effects?, Instr.effect?, get, Option.map_some, Option.bind_some]
    rw [ih (by simp only; omega)]
    simp only [View.storeRegisters, get, Option.getD_some]

@[simp] theorem length_passArguments (register : Nat) (args : List Operand) :
    (Assembly.passArguments register args).length = args.length := by
  induction args generalizing register with
  | nil => rfl
  | cons arg rest ih => simp only [Assembly.passArguments, length_cons, ih]

/-! ## Text in its place -/

/-- The code of a sound text stands at a position, in a routine that stops at another one. -/
structure TextAt (p : Program) (pos : Nat) (n : Nest) (stop : Nat) : Prop where
  code : p.HasCode pos (n.code p.codeBase pos)
  sound : ∀ s ∈ n.statements, s.Sound p.maxParams p.Offers
  fits : pos + n.size ≤ stop
  inside : stop ≤ p.code.size

namespace TextAt

variable {p : Program} {pos stop : Nat} {s : Simple} {o : Opening} {inner tail : Nest}

theorem simple (text : TextAt p pos (.step s tail) stop) : p.HasCode pos s.code := text.code.left

theorem afterSimple (text : TextAt p pos (.step s tail) stop) :
    TextAt p (pos + s.code.length) tail stop where
  code := text.code.right
  sound t member := text.sound t (mem_cons_of_mem _ member)
  fits := by
    have := text.fits
    rw [Nest.size] at this
    omega
  inside := text.inside

variable (text : TextAt p pos (.block o inner tail) stop)
include text

theorem enter :
    p.HasCode pos (o.enter (codeAddress p.codeBase
      (pos + (o.enterSize + inner.size + o.backSize)))) :=
  text.code.left.left.left

theorem body : TextAt p (pos + o.enterSize) inner stop where
  code := by
    have := text.code.left.left.right
    rwa [length_enter] at this
  sound t member := text.sound t (by simp [Nest.statements, member])
  fits := by
    have := text.fits
    rw [Nest.size] at this
    omega
  inside := text.inside

theorem back : p.HasCode (pos + (o.enterSize + inner.size)) (o.back p.codeBase pos) := by
  have := text.code.left.right
  rwa [length_append, length_enter, Nest.length_code] at this

theorem after : TextAt p (pos + (o.enterSize + inner.size + o.backSize)) tail stop where
  code := by
    have := text.code.right
    rwa [length_append, length_append, length_enter, Nest.length_code,
      length_back] at this
  sound t member := text.sound t (by simp [Nest.statements, member])
  fits := by
    have := text.fits
    rw [Nest.size] at this
    omega
  inside := text.inside

end TextAt

/-- A machine is inside a procedure that stops at a position, and has the registers that the program
asks for. -/
structure Running (p : Program) (m : Machine) (frame : Frame) (rest : List Frame) (stop : Nat) :
    Prop where
  frames : m.frames = frame :: rest
  stop : frame.stop = codeAddress p.codeBase stop
  count : (m.params.count : Int) = p.maxParams

namespace Running

variable {p : Program} {m m' : Machine} {frame : Frame} {rest : List Frame} {stop : Nat}

variable (running : Running p m frame rest stop)
include running

theorem not_atStop (addressable : p.Addressable) (inside : stop ≤ p.code.size) {pos : Nat}
    (before : pos < stop) : m.atStop (codeAddress p.codeBase pos) = false := by
  rw [Machine.atStop, running.frames, head?_cons, Option.any_some, running.stop]
  have small : stop < 0x8000000000000000 := Nat.lt_of_le_of_lt inside addressable
  rw [beq_eq_false_iff_ne, ne_eq, codeAddress_inj small (by omega)]
  omega

theorem atStop : m.atStop (codeAddress p.codeBase stop) = true := by
  rw [Machine.atStop, running.frames, head?_cons, Option.any_some, running.stop]
  exact beq_self_eq_true _

theorem of_frames {loops : List Int} (frames : m'.frames = { frame with loops := loops } :: rest)
    (count : m'.params.count = m.params.count) :
    Running p m' { frame with loops := loops } rest stop :=
  ⟨frames, running.stop, by rw [count, running.count]⟩

end Running

/-- Every text is carried out as it prescribes by a run with a number of rounds left. -/
def TextExecutes (p : Program) (routines : List Routine) (rounds : Nat) : Prop :=
  ∀ {pos stop : Nat} {n : Nest} {m : Machine} {frame : Frame} {rest : List Frame},
    TextAt p pos n stop → Running p m frame rest stop →
    m.Executes p rounds (codeAddress p.codeBase pos) frame rest
      (Runs (p.library routines) (.text pos n) m.view) (codeAddress p.codeBase (pos + n.size))

/-! ## Statements -/

section Statements

variable {p : Program} {routines : List Routine} {rounds pos stop : Nat} {tail : Nest} {m : Machine}
  {frame : Frame} {rest : List Frame} {target : Int}

open Machine (Executes)

variable (addressable : p.Addressable)
include addressable

/-- The code of an expression leaves its value in the accumulator. -/
theorem expression_executes {e : Expression} (defined : e.Defined) (stands : p.HasCode pos e.code)
    (running : Running p m frame rest stop) (fits : pos + e.code.length ≤ stop)
    (inside : stop ≤ p.code.size) {last : Frame}
    (next : ∀ rounds₁ < rounds, ∀ m₁ : Machine, m₁.view = m.view.evaluate p.wordSize e →
      Running p m₁ frame rest stop →
      m₁.Executes p rounds₁ (codeAddress p.codeBase (pos + e.code.length)) last rest
        (fun segs w exit => required (⟨pos, e.code.length, m.view⟩ :: segs) w exit) target) :
    m.Executes p rounds (codeAddress p.codeBase pos) last rest required target := by
  have positive := length_pos_iff.mpr e.code_ne_nil
  obtain ⟨temp, effects⟩ := Expression.effects?_code defined p.wordSize m.core
  refine Executes.code addressable stands effects
    (fun k within => running.not_atStop addressable inside (by omega)) rfl fun rounds₁ split => ?_
  exact next rounds₁ (by omega) _ rfl ⟨running.frames, running.stop, running.count⟩

theorem eval_executes (shorter : ∀ rounds₁ < rounds, TextExecutes p routines rounds₁)
    {e : Expression} (text : TextAt p pos (.step (.eval e) tail) stop)
    (running : Running p m frame rest stop) :
    m.Executes p rounds (codeAddress p.codeBase pos) frame rest
      (Runs (p.library routines) (.text pos (.step (.eval e) tail)) m.view)
      (codeAddress p.codeBase (pos + (Nest.step (.eval e) tail).size)) := by
  have after := text.afterSimple
  have fits : pos + e.code.length ≤ stop := Nat.le_trans (Nat.le_add_right _ _) after.fits
  have defined : e.Defined := text.sound (.eval e) mem_cons_self
  refine expression_executes addressable defined text.simple running fits text.inside
    fun rounds₁ fewer m₁ view running₁ => ?_
  have later := shorter rounds₁ fewer after running₁
  rw [Nest.size, ← Nat.add_assoc]
  rw [view] at later
  exact later.imp fun segs w exit runs => .eval runs

theorem ret_executes (text : TextAt p pos (.step .ret tail) stop)
    (running : Running p m frame rest stop) :
    m.Executes p rounds (codeAddress p.codeBase pos) frame rest
      (Runs (p.library routines) (.text pos (.step .ret tail)) m.view) target := by
  have fits : pos + 1 ≤ stop := Nat.le_trans (Nat.le_add_right _ _) text.afterSimple.fits
  have notStopped := running.not_atStop addressable text.inside fits
  exact Executes.ret addressable text.simple.head notStopped running.frames .ret

variable (made : p.MadeOf routines)
include made

/-- A routine stores its parameters and goes through its text, and then its frame is left. -/
theorem routine_executes {q : Nat} {r : Routine} (placed : Placed routines q r)
    (shorter : ∀ rounds₁ ≤ rounds, TextExecutes p routines rounds₁)
    (running : Running p m frame rest (q + r.size)) (target : Int) :
    m.Executes p rounds (codeAddress p.codeBase q) frame rest
      (Runs (p.library routines) (.routine q r) m.view) target := by
  have stands := placed.hasCode made
  have sound := made.sound r placed.mem
  have inside := placed.end_le made
  have params := sound.params
  have count := running.count
  have fits : 0 + r.places.length ≤ m.core.params.count := by
    change 0 + r.places.length ≤ m.params.count
    omega
  have effects := effects?_storeParams p.wordSize fits
  refine Executes.code addressable stands.left effects (fun k within => ?_) rfl
    fun rounds₁ split => ?_
  · rw [length_storeParams] at within
    exact running.not_atStop addressable inside (by rw [Routine.size]; omega)
  · rw [length_storeParams]
    have text : TextAt p (q + r.places.length) r.body (q + r.size) := by
      refine ⟨?_, sound.statements, by rw [Routine.size]; omega, inside⟩
      have := stands.right
      rwa [length_storeParams] at this
    let m₁ := m.after r.places.length
      { m.core with memory := View.storeRegisters p.wordSize m.params 0 r.places m.memory }
    have running₁ : Running p m₁ frame rest (q + r.size) :=
      ⟨running.frames, running.stop, running.count⟩
    have body := shorter rounds₁ (by omega) text running₁
    refine Executes.andThen body (fun segs w runs => .routine runs) ?_
    intro rounds₂ m₂ segs runs _ sameCount frames₂
    have running₂ := running₁.of_frames frames₂ sameCount
    rw [Nat.add_assoc]
    refine Executes.stop running₂.atStop frames₂ ?_
    rw [append_nil]
    exact .routine runs

/-- The instruction of a call goes through the routine at its entry and comes back behind itself,
unless there are too many frames. -/
theorem callee_executes {entry : Int} (known : p.IsEntry entry)
    (here : p.code[pos]? = some (.call entry)) (running : Running p m frame rest stop)
    (fits : pos < stop) (inside : stop ≤ p.code.size)
    (shorter : ∀ rounds₁ < rounds, TextExecutes p routines rounds₁)
    (next : ∀ rounds₁ < rounds, ∀ (m₁ : Machine) (segs₁ : List Segment) (q : Nat) (r : Routine),
      Placed routines q r → entry = codeAddress p.codeBase q →
      Runs (p.library routines) (.routine q r) m.view segs₁ m₁.view .returned →
      Running p m₁ frame rest stop →
      m₁.Executes p rounds₁ (codeAddress p.codeBase (pos + 1)) frame rest
        (fun segs w exit => required (⟨pos, 1, m.view⟩ :: (segs₁ ++ segs)) w exit) target) :
    m.Executes p rounds (codeAddress p.codeBase pos) frame rest required target := by
  have notStopped := running.not_atStop addressable inside fits
  by_cases full : Machine.maxFrames ≤ m.frames.length
  · have overflow : { m with steps := m.steps + 1 }.execute p (codeAddress p.codeBase pos)
        (.call entry) = .stopped (.stackOverflow _) { m with steps := m.steps + 1 } := if_pos full
    exact Executes.limit addressable here notStopped overflow trivial
  · let callee : Frame := ⟨codeAddress p.codeBase (pos + 1), p.stopOf entry, []⟩
    let m' : Machine := { m with steps := m.steps + 1, frames := callee :: frame :: rest }
    have goes : { m with steps := m.steps + 1 }.execute p (codeAddress p.codeBase pos)
        (.call entry) = .next entry m' := by
      simp only [Machine.execute, codeAddress_succ]
      rw [if_neg full, running.frames]
    refine Executes.instr addressable here notStopped goes rfl fun rounds₁ fewer => ?_
    obtain ⟨before, r, others, split, begins, stops, -, -⟩ := made.entry_leads known
    have placed : Placed routines (Routine.extent before) r := ⟨before, others, split, rfl⟩
    have calling : Running p m' callee (frame :: rest) (Routine.extent before + r.size) :=
      ⟨rfl, stops, running.count⟩
    have entered := routine_executes addressable made placed
      (fun rounds₂ (least : rounds₂ ≤ rounds₁) => shorter rounds₂ (by omega)) calling 0
    rw [← begins] at entered
    refine Executes.called entered (fun segs w runs => by cases runs)
      fun rounds₂ m₂ segs enters least count frames => ?_
    exact next rounds₂ (by omega) m₂ segs _ r placed begins enters
      ⟨frames, running.stop, by rw [count]; exact running.count⟩

/-- A call passes its arguments, goes through the routine and comes back. -/
theorem call_executes (shorter : ∀ rounds₁ < rounds, TextExecutes p routines rounds₁)
    {name : String} {entry declared : Int} {args : List Operand}
    (text : TextAt p pos (.step (.call name entry declared args) tail) stop)
    (running : Running p m frame rest stop) :
    m.Executes p rounds (codeAddress p.codeBase pos) frame rest
      (Runs (p.library routines) (.text pos (.step (.call name entry declared args) tail)) m.view)
      (codeAddress p.codeBase (pos + (Nest.step (.call name entry declared args) tail).size)) := by
  obtain ⟨offered, few⟩ := text.sound (.call name entry declared args) mem_cons_self
  have known : p.IsEntry entry := offered.isEntry
  have count := running.count
  have length : (Simple.call name entry declared args).code.length = args.length + 1 := by
    simp [Simple.code]
  have after := text.afterSimple
  rw [length] at after
  have fits := after.fits
  have enough : 0 + args.length ≤ m.core.params.count := by
    change 0 + args.length ≤ m.params.count
    omega
  have effects := effects?_passArguments p.wordSize enough
  refine Executes.code addressable text.simple.left effects (fun k within => ?_)
    (Registers.count_fill ..) fun rounds₁ split => ?_
  · rw [length_passArguments] at within
    exact running.not_atStop addressable text.inside (by omega)
  · have here := text.simple.right.head
    rw [length_passArguments] at here split ⊢
    let m₁ := m.after args.length
      { m.core with params := m.params.fill 0 (args.map (·.wordIn p.wordSize m.memory)) }
    have passed : m₁.params.count = m.params.count := Registers.count_fill ..
    have running₁ : Running p m₁ frame rest stop :=
      ⟨running.frames, running.stop, by rw [passed, count]⟩
    refine callee_executes (m := m₁) addressable made known here running₁ (by omega) text.inside
      (fun rounds₂ fewer => shorter rounds₂ (by omega)) ?_
    intro rounds₂ fewer m₂ segs q r placed begins enters running₂
    have later := shorter rounds₂ (by omega) after running₂
    rw [Nest.size, length, ← Nat.add_assoc, begins]
    exact later.imp fun segs' w exit runs => .call placed enters runs

end Statements

/-! ## Structures -/

theorem effects?_storeIndex (size : Int) (index : Option Int) (c : Core) :
    Instr.effects? size (index.toList.map .store) c = some { c with
      memory :=
        match index with
        | none => c.memory
        | some place => c.memory.putWord size place c.acc } := by
  cases index <;> rfl

section Structures

variable {p : Program} {routines : List Routine} {rounds pos stop : Nat} {body tail : Nest}
  {m : Machine} {frame : Frame} {rest : List Frame} {e : Expression} {r : Relation}
  (addressable : p.Addressable) {index : Option Int}

include addressable

open Machine (Executes)

/-- The head of a structure under a relation evaluates its expression, and leaves the structure when
the relation fails. -/
theorem test_executes (defined : e.Defined) {leave : Nat}
    (stands : p.HasCode pos (e.code ++ [.jump r.failTest (codeAddress p.codeBase leave)]))
    (running : Running p m frame rest stop) (fits : pos + (e.code.length + 1) ≤ stop)
    (inside : stop ≤ p.code.size) {target : Int}
    (next : ∀ rounds₁ < rounds, ∀ (m₁ : Machine) (pos₁ : Nat),
      m₁.view = m.view.evaluate p.wordSize e → Running p m₁ frame rest stop →
      pos₁ = (if r.holds (m.view.evaluate p.wordSize e).acc then pos + (e.code.length + 1)
        else leave) →
      m₁.Executes p rounds₁ (codeAddress p.codeBase pos₁) frame rest
        (fun segs w exit => required (Segment.heading p.wordSize pos e m.view ++ segs) w exit)
        target) : m.Executes p rounds (codeAddress p.codeBase pos) frame rest required target := by
  refine expression_executes addressable defined stands.left running (by omega) inside
    fun rounds₁ fewer m₁ view running₁ => ?_
  have acc : m₁.acc = (m.view.evaluate p.wordSize e).acc := congrArg View.acc view
  have goes : { m₁ with steps := m₁.steps + 1 }.execute p
      (codeAddress p.codeBase (pos + e.code.length))
      (.jump r.failTest (codeAddress p.codeBase leave)) =
      .next (codeAddress p.codeBase
        (if r.holds (m.view.evaluate p.wordSize e).acc then pos + (e.code.length + 1) else leave))
        { m₁ with steps := m₁.steps + 1 } := by
    simp only [Machine.execute, codeAddress_succ, r.taken_failTest, acc]
    cases r.holds (m.view.evaluate p.wordSize e).acc <;> rfl
  refine Executes.instr addressable stands.right.head
    (running₁.not_atStop addressable inside (by omega)) goes rfl fun rounds₂ fewer₂ => ?_
  rw [view]
  exact next rounds₂ (by omega) _ _ view ⟨running₁.frames, running₁.stop, running₁.count⟩ rfl

variable (shorter : ∀ rounds₁ < rounds, TextExecutes p routines rounds₁)

include shorter

theorem if_executes (text : TextAt p pos (.block (.ifBlock e r) body tail) stop)
    (running : Running p m frame rest stop) :
    m.Executes p rounds (codeAddress p.codeBase pos) frame rest
      (Runs (p.library routines) (.text pos (.block (.ifBlock e r) body tail)) m.view)
      (codeAddress p.codeBase (pos + (Nest.block (.ifBlock e r) body tail).size)) := by
  have defined : e.Defined := (text.sound (.openIf e r.failTest) mem_cons_self).1
  have fits := text.body.fits
  have size : (ifBlock e r).enterSize = e.code.length + 1 := rfl
  rw [Nest.size, ← Nat.add_assoc pos]
  refine test_executes addressable defined text.enter running (by omega) text.inside
    fun rounds₁ fewer m₁ pos₁ view running₁ there => ?_
  cases test : r.holds (m.view.evaluate p.wordSize e).acc with
  | false =>
    rw [test, if_neg Bool.false_ne_true] at there
    subst there
    have later := shorter rounds₁ fewer text.after running₁
    rw [view] at later
    exact later.imp fun segs w exit runs => Runs.ifFails test runs
  | true =>
    rw [test, if_pos rfl] at there
    subst there
    have inner := shorter rounds₁ fewer text.body running₁
    rw [view] at inner
    refine Executes.andThen inner (fun segs w runs => Runs.ifReturns test runs) ?_
    intro rounds₂ m₂ segs runs least count frames
    have later := shorter rounds₂ (by omega) text.after (running₁.of_frames frames count)
    rw [Nat.add_assoc]
    refine later.imp fun segs' w exit runs' => ?_
    rw [← append_assoc]
    exact Runs.ifHolds test runs runs'

theorem while_executes (text : TextAt p pos (.block (.whileLoop e r) body tail) stop)
    (running : Running p m frame rest stop) :
    m.Executes p rounds (codeAddress p.codeBase pos) frame rest
      (Runs (p.library routines) (.text pos (.block (.whileLoop e r) body tail)) m.view)
      (codeAddress p.codeBase (pos + (Nest.block (.whileLoop e r) body tail).size)) := by
  have defined : e.Defined := (text.sound (.openWhile e r.failTest) mem_cons_self).1
  have fits := text.after.fits
  have size : (whileLoop e r).enterSize = e.code.length + 1 := rfl
  have backSize : (whileLoop e r).backSize = 1 := rfl
  refine test_executes addressable defined text.enter running (by omega) text.inside
    fun rounds₁ fewer m₁ pos₁ view running₁ there => ?_
  cases test : r.holds (m.view.evaluate p.wordSize e).acc with
  | false =>
    rw [test, if_neg Bool.false_ne_true] at there
    subst there
    have later := shorter rounds₁ fewer text.after running₁
    rw [view, Nat.add_assoc pos] at later
    exact later.imp fun segs w exit runs => Runs.whileFails test runs
  | true =>
    rw [test, if_pos rfl] at there
    subst there
    have inner := shorter rounds₁ fewer text.body running₁
    rw [view] at inner
    refine Executes.andThen inner (fun segs w runs => Runs.whileReturns test runs) ?_
    intro rounds₂ m₂ segs runs least count frames
    have running₂ := running₁.of_frames frames count
    rw [Nat.add_assoc]
    refine Executes.instr addressable text.back.head
      (running₂.not_atStop addressable text.inside (by omega)) rfl rfl fun rounds₃ fewer₃ => ?_
    -- Behind the jump the loop stands as at first, with fewer rounds left.
    have again := shorter rounds₃ (by omega) text (m := { m₂ with steps := m₂.steps + 1 })
      ⟨running₂.frames, running₂.stop, running₂.count⟩
    refine again.imp fun segs' w exit runs' => ?_
    exact Runs.whileHolds test runs runs'

section

variable (start : p.HasCode pos (.loopIndex :: index.toList.map .store))
  (text : TextAt p (pos + (index.toList.length + 1)) body stop)
include start text

/-- A round begins with the number of rounds that remain in the accumulator and in the index
variable. Then the text of the loop is carried out, with the counter on top of the frame. -/
theorem round_executes
    (running : Running p m { frame with loops := ((remaining : Int) + 1) :: frame.loops } rest stop)
    {target : Int}
    (next : ∀ rounds₁ < rounds, ∀ (m₁ : Machine) (segs₁ : List Segment),
      Runs (p.library routines) (.text (pos + (index.toList.length + 1)) body)
        (m.view.startRound p.wordSize index remaining) segs₁ m₁.view .through →
      Running p m₁ { frame with loops := ((remaining : Int) + 1) :: frame.loops } rest stop →
      m₁.Executes p rounds₁ (codeAddress p.codeBase (pos + (index.toList.length + 1 + body.size)))
        frame rest
        (fun segs w exit =>
          Runs (p.library routines) (.rounds pos index body (remaining + 1)) m.view
            (⟨pos, 1, m.view⟩ :: ⟨pos + 1, index.toList.length, { m.view with acc := remaining }⟩ ::
              (segs₁ ++ segs)) w exit) target) :
    m.Executes p rounds (codeAddress p.codeBase pos) frame rest
      (Runs (p.library routines) (.rounds pos index body (remaining + 1)) m.view) target := by
  have fits := text.fits
  let m₁ : Machine := { m with steps := m.steps + 1, acc := remaining }
  have indexed : { m with steps := m.steps + 1 }.execute p (codeAddress p.codeBase pos) .loopIndex =
      .next (codeAddress p.codeBase (pos + 1)) m₁ := by
    simp only [Machine.execute, running.frames, codeAddress_succ, Int.add_sub_cancel, m₁]
  have running₁ : Running p m₁ _ rest stop := ⟨running.frames, running.stop, running.count⟩
  refine Executes.instr addressable start.head
    (running.not_atStop addressable text.inside (by omega)) indexed rfl fun rounds₁ fewer => ?_
  refine Executes.code (m := m₁) addressable start.tail (effects?_storeIndex p.wordSize index _)
    (fun k within => ?_) rfl fun rounds₂ split => ?_
  · rw [length_map] at within
    exact running₁.not_atStop addressable text.inside (by omega)
  · rw [length_map] at split ⊢
    rw [Nat.add_assoc pos, Nat.add_comm 1]
    refine Executes.andThen
      (shorter rounds₂ (by omega) text ⟨running₁.frames, running₁.stop, running₁.count⟩)
      (fun segs w runs => Runs.roundReturns runs) ?_
    intro rounds₃ m₃ segs runs least count frames
    rw [Nat.add_assoc pos]
    exact next rounds₃ (by omega) m₃ segs runs (running₁.of_frames frames count)

/-- The rounds of a counted loop that are left, from the start of one of them. -/
theorem rounds_execute
    (back : p.code[pos + (index.toList.length + 1 + body.size)]? =
      some (.loopNext (codeAddress p.codeBase pos)))
    (fits : pos + (index.toList.length + 1 + body.size) < stop)
    (running : Running p m { frame with loops := ((remaining : Int) + 1) :: frame.loops } rest
      stop) :
    m.Executes p rounds (codeAddress p.codeBase pos) frame rest
      (Runs (p.library routines) (.rounds pos index body (remaining + 1)) m.view)
      (codeAddress p.codeBase (pos + (index.toList.length + 1 + body.size) + 1)) := by
  induction remaining generalizing rounds m with
  | zero =>
    refine round_executes addressable shorter start text running
      fun rounds₁ fewer m₁ segs runs running₁ => ?_
    -- The counter is used up: it is dropped, and control goes on behind the loop.
    have last : { m₁ with steps := m₁.steps + 1 }.execute p
        (codeAddress p.codeBase (pos + (index.toList.length + 1 + body.size)))
        (.loopNext (codeAddress p.codeBase pos)) =
        .next (codeAddress p.codeBase (pos + (index.toList.length + 1 + body.size) + 1))
          { m₁ with steps := m₁.steps + 1, frames := frame :: rest } := by
      simp [Machine.execute, running₁.frames, codeAddress_succ]
    refine Executes.instr addressable back (running₁.not_atStop addressable text.inside fits) last
      rfl fun rounds₂ fewer₂ => ?_
    exact Executes.here rfl (Runs.round runs .noRound)
  | succ remaining ih =>
    refine round_executes addressable shorter start text running
      fun rounds₁ fewer m₁ segs runs running₁ => ?_
    let m₂ : Machine :=
      { m₁ with
        steps := m₁.steps + 1
        frames := { frame with loops := ((remaining : Int) + 1) :: frame.loops } :: rest }
    have again : { m₁ with steps := m₁.steps + 1 }.execute p
        (codeAddress p.codeBase (pos + (index.toList.length + 1 + body.size)))
        (.loopNext (codeAddress p.codeBase pos)) = .next (codeAddress p.codeBase pos) m₂ := by
      simp only [Machine.execute, running₁.frames, Int.add_sub_cancel, Int.natCast_add, m₂]
      rw [if_pos (by omega)]
      rfl
    refine Executes.instr addressable back (running₁.not_atStop addressable text.inside fits) again
      rfl fun rounds₂ fewer₂ => ?_
    have later := ih (m := m₂)
      (fun rounds₃ (fewer₃ : rounds₃ < rounds₂) => shorter rounds₃ (by omega))
      ⟨rfl, running₁.stop, running₁.count⟩
    exact later.imp fun segs' w exit runs' => Runs.round runs runs'

end

theorem for_executes (text : TextAt p pos (.block (.forLoop e index) body tail) stop)
    (running : Running p m frame rest stop) :
    m.Executes p rounds (codeAddress p.codeBase pos) frame rest
      (Runs (p.library routines) (.text pos (.block (.forLoop e index) body tail)) m.view)
      (codeAddress p.codeBase (pos + (Nest.block (.forLoop e index) body tail).size)) := by
  have defined : e.Defined := text.sound (.openFor e index) mem_cons_self
  have fits := text.after.fits
  have size : (forLoop e index).enterSize =
      e.code.length + 1 + (index.toList.length + 1) := by
    simp [enterSize, expression, roundStart]
  have backSize : (forLoop e index).backSize = 1 := rfl
  have enter := text.enter
  refine expression_executes addressable defined enter.left running (by omega) text.inside
    fun rounds₁ fewer m₁ view running₁ => ?_
  have head := enter.right.head
  have notStopped : m₁.atStop (codeAddress p.codeBase (pos + e.code.length)) = false :=
    running₁.not_atStop addressable text.inside (by omega)
  have acc : m₁.acc = (m.view.evaluate p.wordSize e).acc := congrArg View.acc view
  by_cases positive : m₁.acc ≤ 0
  · -- The loop is skipped and no counter is made.
    have goes : { m₁ with steps := m₁.steps + 1 }.execute p
        (codeAddress p.codeBase (pos + e.code.length)) (.loopHead _) =
        .next (codeAddress p.codeBase (pos + ((forLoop e index).enterSize + body.size +
          (forLoop e index).backSize))) { m₁ with steps := m₁.steps + 1 } := if_pos positive
    refine Executes.instr addressable head notStopped goes rfl fun rounds₂ fewer₂ => ?_
    have later := shorter rounds₂ (by omega) text.after (m := { m₁ with steps := m₁.steps + 1 })
      ⟨running₁.frames, running₁.stop, running₁.count⟩
    rw [Nat.add_assoc pos] at later
    refine later.imp fun segs w exit runs => ?_
    have none_ : Runs (p.library routines) (.rounds (pos + (e.code.length + 1)) index body
        (m.view.evaluate p.wordSize e).acc.toNat) (m.view.evaluate p.wordSize e) []
        (m.view.evaluate p.wordSize e) .through := by
      rw [← acc, Int.toNat_of_nonpos positive]
      exact .noRound
    rw [view]
    exact Runs.forEnds none_ (view ▸ runs)
  · obtain ⟨remaining, counter⟩ : ∃ remaining : Nat, m₁.acc = (remaining : Int) + 1 :=
      ⟨(m₁.acc - 1).toNat, by omega⟩
    let m₂ : Machine :=
      { m₁ with
        steps := m₁.steps + 1
        frames := { frame with loops := ((remaining : Int) + 1) :: frame.loops } :: rest }
    have goes : { m₁ with steps := m₁.steps + 1 }.execute p
        (codeAddress p.codeBase (pos + e.code.length))
        (.loopHead (codeAddress p.codeBase (pos + ((forLoop e index).enterSize + body.size +
          (forLoop e index).backSize)))) =
        .next (codeAddress p.codeBase (pos + (e.code.length + 1))) m₂ := by
      simp only [Machine.execute, running₁.frames, codeAddress_succ, m₂]
      rw [if_neg positive, counter]
      rfl
    refine Executes.instr addressable head notStopped goes rfl fun rounds₂ fewer₂ => ?_
    have start : p.HasCode (pos + (e.code.length + 1)) (.loopIndex :: index.toList.map .store) :=
      enter.right.tail
    have inText := text.body
    rw [size, ← Nat.add_assoc] at inText
    have behind : pos + ((forLoop e index).enterSize + body.size) =
        pos + (e.code.length + 1) + (index.toList.length + 1 + body.size) := by omega
    have back := text.back.head
    rw [behind] at back
    have inner := rounds_execute (m := m₂) addressable
      (fun rounds₃ (fewer₃ : rounds₃ < rounds₂) => shorter rounds₃ (by omega)) start inText back
      (by omega)
      ⟨rfl, running₁.stop, running₁.count⟩
    have times : (m.view.evaluate p.wordSize e).acc.toNat = remaining + 1 := by omega
    have seen : m₂.view = m.view.evaluate p.wordSize e := view
    rw [seen, ← times] at inner
    rw [view]
    refine Executes.andThen inner (fun segs w runs => Runs.forReturns runs) ?_
    intro rounds₃ m₃ segs runs least count frames
    have later := shorter rounds₃ (by omega) text.after (running₁.of_frames frames count)
    rw [Nat.add_assoc pos] at later
    rw [← behind, Nat.add_assoc pos]
    exact later.imp fun segs' w exit runs' => Runs.forEnds runs runs'

end Structures

/-! ## Whole texts and whole routines -/

section Whole

variable {p : Program} {routines : List Routine}

/-- Every text is carried out as it prescribes, however many rounds are left. -/
theorem text_executes (addressable : p.Addressable) (made : p.MadeOf routines) (rounds : Nat) :
    TextExecutes p routines rounds := by
  -- Not on the text: a loop comes back to its own code, and a call may go to any text. Each time
  -- at least one round has been used up.
  induction rounds using Nat.strongRecOn with
  | ind rounds shorter =>
    intro pos stop n m frame rest text running
    cases n with
    | nil => exact .here running.frames .nil
    | step s tail =>
      cases s with
      | ret => exact ret_executes addressable text running
      | eval e => exact eval_executes addressable shorter text running
      | call name entry declared args => exact call_executes addressable made shorter text running
    | block o body tail =>
      cases o with
      | ifBlock e r => exact if_executes addressable shorter text running
      | whileLoop e r => exact while_executes addressable shorter text running
      | forLoop count index => exact for_executes addressable shorter text running

end Whole

end HighAsm
