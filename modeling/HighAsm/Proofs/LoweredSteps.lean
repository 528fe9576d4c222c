import HighAsm.Proofs.Calls
import HighAsm.Proofs.ControlSteps
import HighAsm.Proofs.LoweredControl

/-!
# The machine and lowered code side by side

Lowered code follows the machine round by round. Control stands at the label of the position where
control of the machine stands, the registers that matter there are mirrored, every frame has the
counters of the loops around its position, and for every call that is active a function waits
(`Matches`). A round keeps all that, and when the last frame is left the function returns with the
memory of the machine in storage.
-/

namespace HighAsm

/-- The access that is made when an instruction is carried out. -/
def Visit.access? (p : Program) (v : Visit) : Option Access :=
  (p.instr? v.pc).bind (·.access? v.view.acc)

namespace Lowering

open IL List

/-- A program has been lowered to a module: every routine has a function that hosts its code. -/
structure Hosting (p : Program) (routines : List Routine) (module : IL.Module) : Prop where
  made : p.MadeOf routines
  addressable : p.Addressable
  twoBytes : p.wordSize = 2
  enough : p.PassesEnough
  hosted : ∀ q r, Placed routines q r → ∃ f,
    module.function? (functionName (r.procedure p.codeBase q)) = some f ∧ Hosts p f q (q + r.size)

/-- A routine in its place, and the function that it is lowered to. -/
structure Site where
  start : Nat
  routine : Routine
  function : IL.Function

/-- Where the code of the routine stops. -/
def Site.stop (site : Site) : Nat := site.start + site.routine.size

/-- Whether a position is among the instructions that store what the routine was given. -/
def Site.storing (site : Site) (position : Nat) : Bool :=
  position < site.start + site.routine.places.length

/-- Loops have their counters in temporaries. -/
def Counters (p : Program) (temps : Temp → Option Datum) (heads : List Nat) (loops : List Int) :
    Prop :=
  Forall₂ (fun head n => temps (.counter (codeAddress p.codeBase head)) =
    some (.word (BitVec.ofInt 32 n)) ∧ InWord n ∧ InWord (n - 1)) heads loops

/-- A frame of the machine stands at a position, and a function has the counters of the loops around
it. -/
structure Follows (p : Program) (routines : List Routine) (site : Site) (position : Nat)
    (frame : Frame) (pc : Int) (temps : Temp → Option Datum) : Prop where
  placed : Placed routines site.start site.routine
  hosts : Hosts p site.function site.start site.stop
  least : site.start ≤ position
  most : position ≤ site.stop
  address : pc = codeAddress p.codeBase position
  stop : frame.stop = codeAddress p.codeBase site.stop
  counters : Counters p temps (p.loopsAt site.start position) frame.loops

/-- Functions wait for the frames of the machine, from a call that returns to an address on. -/
inductive Waits (p : Program) (routines : List Routine) : Int → List Frame → List Caller → Prop
  | outermost (ret : Int) : Waits p routines ret [] []
  | call {ret : Int} {frame : Frame} {frames : List Frame} {callers : List Caller} {site : Site}
      {position : Nat} {temps : Temp → Option Datum} (label : IL.Label)
      (follows : Follows p routines site position frame ret temps)
      (quiet : p.Quiet site.stop position)
      (hasArgs : ∀ storage, ∀ number < p.maxParams.toNat,
        ((var (.arg number)).word? ⟨temps, storage⟩).isSome)
      (others : Waits p routines frame.ret frames callers) :
      Waits p routines ret (frame :: frames) (⟨.acc, ⟨site.function, temps, ⟨label, [], none⟩,
        site.function.blocksFrom (labelAt p position)⟩⟩ :: callers)

/-- The machine and lowered code stand at the same position. -/
structure Abreast (p : Program) (routines : List Routine) (blob : BitVec 64) (outer : Storage)
    (site : Site) (position : Nat) (frame : Frame) (frames : List Frame) (callers : List Caller)
    (d : Data) (m : Machine) (pc : Int) (s : State) : Prop where
  active : m.frames = frame :: frames
  follows : Follows p routines site position frame pc d.temps
  control : s.At site.function (labelAt p position) d callers
  mirrors : Mirrors blob outer p.maxParams.toNat (site.storing position)
    (p.Live site.stop position) m.core d
  waits : Waits p routines frame.ret frames callers

/-- The machine and lowered code stand at the same position of some routine. -/
def Matches (p : Program) (routines : List Routine) (blob : BitVec 64) (outer : Storage)
    (m : Machine) (pc : Int) (s : State) : Prop :=
  ∃ site position frame frames callers d,
    Abreast p routines blob outer site position frame frames callers d m pc s

/-- Lowered code goes on as the machine does: it comes to where the machine goes on, or returns
where the machine is done. -/
def Answered (p : Program) (routines : List Routine) (module : IL.Module) (blob : BitVec 64)
    (outer : Storage) (s : State) : Machine.Outcome → Prop
  | .next pc m => ∃ t, State.Reaches module blob s t ∧ Matches p routines blob outer m pc t
  | .done m => ∃ t value storage, State.Reaches module blob s t ∧
      t.step module blob = .returned value storage ∧ Storage.Holds blob outer m.memory storage
  | .stopped _ _ => True

/-! ## Counters -/

section Counting

variable {p : Program} {d d' : Data} {heads : List Nat} {loops : List Int}

theorem Counters.of_same (counters : Counters p d.temps heads loops) (same : SameCounters d d') :
    Counters p d'.temps heads loops :=
  counters.imp fun _ _ held => by rwa [same]

/-- Setting the counter of an inner loop leaves those of outer loops as they are. -/
theorem Counters.of_counts {head : Nat} {n : Int} (counters : Counters p d.temps heads loops)
    (counts : Counts p head n d d') (below : ∀ other ∈ heads, other < head)
    (small : head < 0x8000000000000000) : Counters p d'.temps heads loops := by
  induction counters with
  | nil => exact .nil
  | @cons other _ _ _ held _ ih =>
    obtain ⟨lower, others⟩ := forall_mem_cons.mp below
    refine .cons ?_ (ih others)
    rwa [counts.others]
    rw [ne_eq, codeAddress_inj (by omega) small]
    omega

end Counting

/-! ## Beginning a function -/

theorem words?_of_isSome {d : Data} {values : List Value} (all : ∀ v ∈ values, (v.word? d).isSome) :
    ∃ words, Value.words? d values = some words ∧ words.length = values.length ∧
      ∀ (k : Nat) (v : Value), values[k]? = some v → words[k]? = v.word? d := by
  induction values with
  | nil => exact ⟨[], rfl, rfl, by simp⟩
  | cons v rest ih =>
    obtain ⟨x, held⟩ := Option.isSome_iff_exists.mp (all v mem_cons_self)
    obtain ⟨words, others, length, each⟩ :=
      ih fun w member => all w (mem_cons_of_mem _ member)
    refine ⟨x :: words, ?_, by rw [length_cons, length_cons, length], ?_⟩
    · rw [Value.words?, held, others]
      rfl
    · intro k w here
      cases k with
      | zero =>
        cases here
        exact held.symm
      | succ k => exact each k w here

/-- A function that was given the parameters of its routine comes to the first instruction. -/
theorem Hosting.begins {p : Program} {routines : List Routine} {module : IL.Module}
    {blob : BitVec 64} {outer storage : Storage} {q : Nat} {r : Routine} {g : IL.Function}
    {ret : Int} {frames : List Frame} {callers : List Caller} {m : Machine}
    {words : List (BitVec 32)} (hosting : Hosting p routines module) (placed : Placed routines q r)
    (hosts : Hosts p g q (q + r.size)) (waits : Waits p routines ret frames callers)
    (active : m.frames = ⟨ret, codeAddress p.codeBase (q + r.size), []⟩ :: frames)
    (length : words.length = p.maxParams.toNat) (holds : Storage.Holds blob outer m.memory storage)
    (passed : ∀ number < r.places.length, ∃ n x, m.params.get? number = some n ∧
      words[number]? = some x ∧ x.setWidth 16 = BitVec.ofInt 16 n) :
    ∃ a t, g.begin? words = some a ∧ State.Reaches module blob ⟨storage, a, callers⟩ t ∧
      Matches p routines blob outer m (codeAddress p.codeBase q) t := by
  obtain ⟨heads, blocks⟩ := hosts.first
  have begun : g.begin? words = some ⟨g, IL.Function.arguments words,
      prologue p.maxParams.toNat heads, g.blocksFrom (labelAt p q)⟩ := by
    rw [IL.Function.begin?, if_pos (length.trans hosts.params.symm), blocks]
    rfl
  obtain ⟨d, comes, mirrors⟩ : ∃ d,
      g.Comes module blob .start ⟨IL.Function.arguments words, storage⟩ (labelAt p q) d ∧
      Mirrors blob outer p.maxParams.toNat true (p.Live (q + r.size) q) m.core d := by
    refine hosts.comes_prologue (Nat.le_add_right _ _) holds ?_
    intro reg live
    obtain ⟨number, rfl, least, most⟩ := placed.live_entry hosting.made hosting.enough live
    obtain ⟨number, rfl⟩ := Int.eq_ofNat_of_zero_le least
    obtain ⟨n, x, held⟩ := passed number (by omega)
    exact ⟨number, n, x, rfl, held⟩
  obtain ⟨t, there, reaches⟩ := comes callers ⟨storage, ⟨g, IL.Function.arguments words,
    prologue p.maxParams.toNat heads, g.blocksFrom (labelAt p q)⟩, callers⟩
    ⟨rfl, rfl, rfl, by rw [hosts.whole, blocks]⟩
  refine ⟨_, t, begun, reaches, ⟨q, r, g⟩, q, _, frames, callers, d, active, ⟨placed, hosts,
    Nat.le_refl q, Nat.le_add_right _ _, rfl, rfl, ?_⟩, there, ?_, waits⟩
  · rw [p.loopsAt_start]
    exact .nil
  · cases storing : Site.storing ⟨q, r, g⟩ q with
    | true => exact mirrors
    | false =>
      refine mirrors.forget rfl (fun reg live => ?_) _
      obtain ⟨number, -, least, most⟩ := placed.live_entry hosting.made hosting.enough live
      have none_ : ¬ q < q + r.places.length := of_decide_eq_false storing
      omega

/-! ## One instruction -/

section Executing

variable {p : Program} {routines : List Routine} {module : IL.Module} {blob : BitVec 64}
  {outer : Storage} {site : Site} {position : Nat} {frame : Frame} {frames : List Frame}
  {callers : List Caller} {d d' : Data} {m m' : Machine} {pc : Int} {s : State} {i : Instr}
  (abreast : Abreast p routines blob outer site position frame frames callers d m pc s)

section

include abreast

/-- Control comes to another position of the routine. -/
theorem Abreast.goes {target : Nat} {loops : List Int}
    (comes : site.function.Comes module blob (labelAt p position) d (labelAt p target) d')
    (bounds : site.start ≤ target ∧ target ≤ site.stop)
    (active : m'.frames = { frame with loops := loops } :: frames)
    (counters : Counters p d'.temps (p.loopsAt site.start target) loops)
    (mirrors : Mirrors blob outer p.maxParams.toNat (site.storing target)
      (p.Live site.stop target) m'.core d') :
    Answered p routines module blob outer s (.next (codeAddress p.codeBase target) m') := by
  obtain ⟨t, there, reaches⟩ := comes _ _ abreast.control
  have follows := abreast.follows
  exact ⟨t, reaches, site, target, _, frames, callers, d', active, ⟨follows.placed, follows.hosts,
    bounds.1, bounds.2, rfl, follows.stop, counters⟩, there, mirrors, abreast.waits⟩

/-- A return leaves the frame, and goes on behind the call that waits. -/
theorem Abreast.leaves {label : IL.Label} {later : List IL.Block}
    (block : site.function.blocksFrom (labelAt p position) =
      ⟨label, [], some (.ret acc)⟩ :: later) :
    Answered p routines module blob outer s m.leave := by
  obtain ⟨active, -, control, mirrors, waits⟩ := abreast
  obtain ⟨value, held⟩ := Option.isSome_iff_exists.mp mirrors.hasAcc
  obtain rfl := control.eq block
  let returning : State :=
    ⟨d.storage, ⟨site.function, d.temps, ⟨label, [], some (.ret acc)⟩, later⟩, callers⟩
  have held : acc.word? returning.data = some value := held
  have step : returning.step module blob = returning.leave value := by
    change returning.exit (some (.ret acc)) = _
    rw [State.exit, held]
  generalize back : frame.ret = ret at waits
  rw [Machine.leave, active]
  cases waits with
  | outermost => exact ⟨returning, value, d.storage, .refl _, step, mirrors.holds⟩
  | @call _ caller _ callers site position temps label follows quiet hasArgs others =>
    let d' : Data := (Data.mk temps d.storage).assign .acc (.word value)
    obtain ⟨first, rest, blocks⟩ :=
      exists_cons_of_ne_nil (follows.hosts.ne_nil follows.least follows.most)
    let behind : State := ⟨d.storage, ⟨site.function, d'.temps, ⟨label, [], none⟩,
      site.function.blocksFrom (labelAt p position)⟩, callers⟩
    have left : returning.step module blob = .next behind := step
    have goes : behind.step module blob =
        behind.goto (site.function.blocksFrom (labelAt p position)) := rfl
    rw [blocks] at goes
    have same : SameCounters ⟨temps, d.storage⟩ d' := fun _ => rfl
    refine ⟨_, .head left (.one goes), site, position, caller, _, callers, d', rfl,
      { follows with
        counters := follows.counters.of_same same
        address := back.trans follows.address },
      ⟨rfl, rfl, rfl, blocks.symm⟩, ⟨mirrors.holds, ?_, ?_, ?_⟩, others⟩
    · simp [d']
    · intro number inside
      simpa [d'] using hasArgs d.storage number inside
    · exact fun reg live => absurd live (quiet reg)

end

section

variable (going : position < site.stop) (here : p.code[position]? = some i)
include going here

theorem live_of_reads {reg : Register} (reads : i.Reads p reg) : p.Live site.stop position reg :=
  (Program.live_iff here going).mpr (.inl reads)

variable (hosting : Hosting p routines module)
include abreast hosting

/-- Behind an instruction that control goes on from, what it writes is known and what was known. -/
theorem Abreast.onward {c : Core} (mirrors : Mirrors blob outer p.maxParams.toNat
      (site.storing position) (fun reg => i.Writes reg ∨ p.Live site.stop position reg) c d') :
    Mirrors blob outer p.maxParams.toNat (site.storing (position + 1))
      (p.Live site.stop (position + 1)) c d' := by
  by_cases same : site.storing (position + 1) = site.storing position
  · rw [same]
    refine mirrors.mono fun reg live => ?_
    by_cases writes : i.Writes reg
    · exact .inl writes
    · exact .inr ((Program.live_iff here going).mpr (.inr ⟨writes, live⟩))
  · -- The last parameter has been stored, and no register matters.
    have last : position + 1 = site.start + site.routine.places.length := by
      unfold Site.storing at same
      simp only [decide_eq_decide] at same
      omega
    refine mirrors.forget rfl ?_ _
    rw [last]
    exact abreast.follows.placed.quiet_body hosting.made hosting.enough

/-- Where an instruction leads to no register matters, and the same loops are open. -/
theorem Abreast.target {t : Nat} (most : t ≤ site.stop)
    (names : Program.targetOf? i = some (codeAddress p.codeBase t)) :
    p.Quiet site.stop t ∧ p.loopsAt site.start t = p.loopsAt site.start position := by
  have placed := abreast.follows.placed
  have small : site.stop < 0x8000000000000000 :=
    Nat.lt_of_le_of_lt abreast.follows.hosts.inside hosting.addressable
  have rests := placed.rests hosting.made hosting.enough abreast.follows.least going here
  obtain ⟨t', -, most', same, quiet⟩ := rests.targets _ names
  rw [codeAddress_inj (by omega) (Nat.lt_of_le_of_lt most' small)] at same
  exact same ▸ quiet

/-- What is passed on is in use behind the instructions that store parameters. -/
theorem Abreast.uses : Instr.Uses (site.storing position) i := by
  have stands := abreast.follows.placed.hasCode hosting.made
  by_cases early : position < site.start + site.routine.places.length
  · have member := stands.left.mem abreast.follows.least (by rwa [length_storeParams]) here
    obtain ⟨number, place, rfl⟩ := eq_of_mem_storeParams member
    exact decide_eq_true early
  · have member := stands.right.mem (by rw [length_storeParams]; omega)
      (by rw [length_storeParams, Nest.length_code, Nat.add_assoc]; exact going) here
    cases i with
    | loadParam | call => exact decide_eq_false early
    | storeParam number place => exact absurd rfl (Nest.code_stores _ _ _ _ member number place)
    | _ => trivial

/-- An instruction that moves data goes on at the next position. -/
theorem Abreast.plain {crash : Crash} (plain : i.crash? = some crash)
    (clear : ∀ a, i.access? m.acc = some a → ¬ a.Wraps) :
    Answered p routines module blob outer s (m.execute p pc i) := by
  have follows := abreast.follows
  rw [Instr.execute_plain plain]
  cases effect : i.effect? p.wordSize m.core with
  | none => trivial
  | some c =>
    rw [hosting.twoBytes] at effect
    obtain ⟨ctx, u, b, u', -, made, block⟩ :=
      follows.hosts.block position i follows.least going here
    obtain ⟨exits, d', moves, mirrors, same⟩ := block_mirrors made effect
      (abreast.uses going here hosting) (fun reg => live_of_reads going here) clear abreast.mirrors
    rw [Option.elim_some, follows.address, codeAddress_succ]
    refine abreast.goes (IL.Function.comes_block block moves ?_ ?_)
      ⟨Nat.le_succ_of_le follows.least, going⟩ abreast.active ?_
      (abreast.onward going here hosting mirrors)
    · rw [exits]
      rfl
    · exact follows.hosts.ne_nil (Nat.le_succ_of_le follows.least) going
    · rw [Program.loopsAt_same follows.least here (by rintro _ rfl; contradiction)
        (by rintro _ rfl; contradiction)]
      exact follows.counters.of_same same

end

section

variable (hosting : Hosting p routines module) (going : position < site.stop)
include abreast hosting going

theorem Abreast.jump {test : Test} {target : Int}
    (here : p.code[position]? = some (.jump test target)) :
    Answered p routines module blob outer s (m.execute p pc (.jump test target)) := by
  have follows := abreast.follows
  obtain ⟨defined, t, least, most, rfl⟩ :=
    follows.placed.fits hosting.made follows.least going here
  obtain ⟨quiet, around⟩ := abreast.target going here hosting most rfl
  have onward := Program.loopsAt_same follows.least here (by simp) (by simp)
  obtain ⟨d', comes, mirrors, same⟩ := follows.hosts.comes_jump module follows.least going here
    defined ⟨least, most⟩ (fun tests => live_of_reads going here ⟨tests, rfl⟩) abreast.mirrors
  have counters := follows.counters.of_same same
  rw [Machine.execute, follows.address, codeAddress_succ]
  cases taken : test.taken m.acc with
  | true =>
    have taken : test.taken m.core.acc = true := taken
    rw [taken] at comes
    exact abreast.goes comes ⟨least, most⟩ abreast.active (around ▸ counters)
      (mirrors.forget rfl quiet _)
  | false =>
    have taken : test.taken m.core.acc = false := taken
    rw [taken] at comes
    refine abreast.goes comes ⟨Nat.le_succ_of_le follows.least, going⟩ abreast.active
      (onward ▸ counters) (abreast.onward going here hosting (mirrors.mono ?_))
    exact fun reg known => known.resolve_left id

theorem Abreast.loopHead {leave : Int} (here : p.code[position]? = some (.loopHead leave)) :
    Answered p routines module blob outer s (m.execute p pc (.loopHead leave)) := by
  have follows := abreast.follows
  obtain ⟨t, least, most, rfl⟩ := follows.placed.fits hosting.made follows.least going here
  obtain ⟨quiet, around⟩ := abreast.target going here hosting most rfl
  have reads : p.Live site.stop position .acc := live_of_reads going here rfl
  obtain ⟨d', comes, mirrors, counts⟩ := follows.hosts.comes_loopHead module follows.least going
    here ⟨least, most⟩ reads abreast.mirrors
  have counters := follows.counters.of_counts counts Program.lt_of_mem_loopsAt
    (Nat.lt_trans (Nat.lt_of_lt_of_le going follows.hosts.inside) hosting.addressable)
  have fits : InWord m.acc := (abreast.mirrors.acc reads).1
  rw [Machine.execute, follows.address, codeAddress_succ]
  split
  · next none_ =>
    have none_ : ¬ 0 < m.core.acc := Int.not_lt.mpr none_
    rw [if_neg none_] at comes
    exact abreast.goes comes ⟨least, most⟩ abreast.active (around ▸ counters)
      (mirrors.forget rfl quiet _)
  · next some_ =>
    have some_ : 0 < m.core.acc := Int.not_le.mp some_
    rw [if_pos some_] at comes
    simp only [abreast.active]
    refine abreast.goes comes ⟨Nat.le_succ_of_le follows.least, going⟩ rfl ?_
      (abreast.onward going here hosting (mirrors.mono ?_))
    · rw [Program.loopsAt_head follows.least ⟨_, here⟩]
      exact .cons ⟨counts.set, fits, by unfold InWord at fits ⊢; omega⟩ counters
    · exact fun reg known => known.resolve_left id

theorem Abreast.loopIndex (here : p.code[position]? = some .loopIndex) :
    Answered p routines module blob outer s (m.execute p pc .loopIndex) := by
  have follows := abreast.follows
  obtain ⟨head, first, heads, behind⟩ :=
    follows.placed.fits hosting.made follows.least going here
  have counters := follows.counters
  rw [behind, Program.loopsAt_head first heads] at counters
  obtain ⟨n, loops, ⟨counter, -, small⟩, -, same⟩ := forall₂_cons_left_iff.mp counters
  obtain ⟨d', comes, mirrors, kept⟩ := follows.hosts.comes_loopIndex module follows.least going here
    behind small counter abreast.mirrors
  obtain ⟨ret, stop, _⟩ := frame
  obtain rfl : _ = n :: loops := same
  simp only [Machine.execute, abreast.active, follows.address, codeAddress_succ]
  refine abreast.goes comes ⟨Nat.le_succ_of_le follows.least, going⟩ rfl ?_
    (abreast.onward going here hosting mirrors)
  rw [Program.loopsAt_same follows.least here (by simp) (by simp)]
  exact follows.counters.of_same kept

theorem Abreast.loopNext {body : Int} (here : p.code[position]? = some (.loopNext body)) :
    Answered p routines module blob outer s (m.execute p pc (.loopNext body)) := by
  have follows := abreast.follows
  have small : position < 0x8000000000000000 :=
    Nat.lt_trans (Nat.lt_of_lt_of_le going follows.hosts.inside) hosting.addressable
  obtain ⟨head, first, last, heads, rfl⟩ :=
    follows.placed.fits hosting.made follows.least going here
  have opens := Program.loopsAt_head first heads
  obtain ⟨quiet, around⟩ := abreast.target going here hosting last rfl
  rw [opens] at around
  have after : head < position := Program.lt_of_mem_loopsAt head (around ▸ mem_cons_self)
  have counters := follows.counters
  rw [← around] at counters
  obtain ⟨n, loops, ⟨counter, -, fits⟩, rest, same⟩ := forall₂_cons_left_iff.mp counters
  obtain ⟨d', comes, mirrors, counts⟩ := follows.hosts.comes_loopNext module follows.least going
    here first after fits counter abreast.mirrors
  have others := Counters.of_counts rest counts Program.lt_of_mem_loopsAt (by omega)
  obtain ⟨ret, stop, _⟩ := frame
  obtain rfl : _ = n :: loops := same
  simp only [Machine.execute, abreast.active, follows.address, codeAddress_succ]
  split
  · next more =>
    rw [if_pos more] at comes
    refine abreast.goes comes ⟨by omega, by omega⟩ rfl ?_ (mirrors.forget rfl quiet _)
    rw [opens]
    exact .cons ⟨counts.set, fits, by unfold InWord at fits ⊢; omega⟩ others
  · next none_ =>
    rw [if_neg none_] at comes
    refine abreast.goes comes ⟨Nat.le_succ_of_le follows.least, going⟩ rfl ?_
      (abreast.onward going here hosting (mirrors.mono ?_))
    · rw [Program.loopsAt_next follows.least here, ← around]
      exact others
    · exact fun reg known => known.resolve_left id

/-- A call enters the function of the procedure at its target, which begins with what it was
given. -/
theorem Abreast.call {entry : Int} (here : p.code[position]? = some (.call entry)) :
    Answered p routines module blob outer s (m.execute p pc (.call entry)) := by
  have follows := abreast.follows
  have passing : site.storing position = false := abreast.uses going here hosting
  have onward := Program.loopsAt_same follows.least here (by simp) (by simp)
  have rests := follows.placed.rests hosting.made hosting.enough follows.least going here
  obtain ⟨ctx, u, b, u', rfl, made, block⟩ :=
    follows.hosts.block position _ follows.least going here
  cases found : ctx.program.procedureAt? entry with
  | none =>
    simp only [instr, found] at made
    contradiction
  | some callee =>
    rw [instr_call found] at made
    cases made
    have known : ctx.program.IsEntry entry :=
      ⟨callee, mem_of_find?_eq_some found, by simpa using find?_some found⟩
    obtain ⟨before, r, after, split, rfl, stops, leads, -⟩ := hosting.made.entry_leads known
    obtain rfl := Option.some.inj (found.symm.trans leads)
    have placed : Placed routines (Routine.extent before) r := ⟨before, after, split, rfl⟩
    obtain ⟨g, named, hosted⟩ := hosting.hosted _ r placed
    let values := (range ctx.program.maxParams.toNat).map fun (i : Nat) => var (.arg i)
    have all : ∀ v ∈ values, (v.word? d).isSome := by
      intro v member
      obtain ⟨number, below, rfl⟩ := mem_map.mp member
      exact abreast.mirrors.hasArgs number (mem_range.mp below)
    obtain ⟨words, passed, length, each⟩ := words?_of_isSome all
    have waits : Waits ctx.program routines (wrap64 (pc + 1)) (frame :: frames) _ :=
      .call (.code (codeAddress ctx.program.codeBase position))
        { follows with
          least := Nat.le_succ_of_le follows.least
          most := going
          address := by rw [follows.address, codeAddress_succ]
          counters := onward ▸ follows.counters }
        (rests.returns _ rfl) (fun _ => abreast.mirrors.hasArgs) abreast.waits
    rw [Machine.execute]
    split
    · trivial
    obtain ⟨a, t, begun, reaches, matches_⟩ :
        ∃ a t, g.begin? words = some a ∧ State.Reaches module blob ⟨d.storage, a, _⟩ t ∧
          Matches ctx.program routines blob outer
            { m with frames := ⟨wrap64 (pc + 1), ctx.program.stopOf _, []⟩ :: m.frames } _ t := by
      refine hosting.begins placed hosted waits (by rw [abreast.active, stops])
        (by simp [length, values]) abreast.mirrors.holds fun number below => ?_
      have few := (hosting.made.sound r placed.mem).params
      have fits : number < ctx.program.maxParams.toNat := by omega
      have value : values[number]? = some (var (.arg number)) := by
        simp only [values, getElem?_map, getElem?_range fits, Option.map_some]
      obtain ⟨n, x, held, word, low⟩ := abreast.mirrors.registers (.param number)
        (live_of_reads going here ⟨_, number, found, rfl, by omega, Int.ofNat_lt.mpr below⟩)
      rw [passing] at word
      exact ⟨n, x, held, (each number _ value).trans word, low⟩
    exact ⟨t, .head (abreast.control.enters block named passed begun) reaches, matches_⟩

theorem Abreast.execute (here : p.code[position]? = some i)
    (clear : ∀ a, i.access? m.acc = some a → ¬ a.Wraps) :
    Answered p routines module blob outer s (m.execute p pc i) := by
  cases i with
  | load | loadIndirect | binary | store | storeIndirect | copyToTemp | loadParam | storeParam =>
    exact abreast.plain going here hosting rfl clear
  | jump => exact abreast.jump hosting going here
  | loopHead => exact abreast.loopHead hosting going here
  | loopIndex => exact abreast.loopIndex hosting going here
  | loopNext => exact abreast.loopNext hosting going here
  | call => exact abreast.call hosting going here
  | ret =>
    obtain ⟨_, _, _, _, -, made, block⟩ :=
      abreast.follows.hosts.block position _ abreast.follows.least going here
    cases made
    exact abreast.leaves block
  | undefined => trivial

end

end Executing

/-! ## Runs -/

section Running

variable {p : Program} {routines : List Routine} {module : IL.Module} {blob : BitVec 64}
  {outer : Storage} {m m' : Machine} {pc : Int} {s : State} (hosting : Hosting p routines module)
include hosting

theorem Matches.round (matches_ : Matches p routines blob outer m pc s)
    (clear : ¬ m.atStop pc = true → ∀ a, Visit.access? p ⟨pc, m.view⟩ = some a → ¬ a.Wraps) :
    Answered p routines module blob outer s (m.round p pc) := by
  obtain ⟨site, position, frame, frames, callers, d, abreast⟩ := matches_
  have follows := abreast.follows
  have inside := follows.hosts.inside
  have small : site.stop < 0x8000000000000000 := Nat.lt_of_le_of_lt inside hosting.addressable
  have atStop : m.atStop pc = true ↔ site.stop = position := by
    rw [Machine.atStop, abreast.active, head?_cons, Option.any_some, beq_iff_eq, follows.stop,
      follows.address, codeAddress_inj small (Nat.lt_of_le_of_lt follows.most small)]
  by_cases stop : m.atStop pc = true
  · rw [Machine.round, if_pos stop]
    obtain rfl := atStop.mp stop
    exact abreast.leaves follows.hosts.last
  · have going : position < site.stop := by
      exact Nat.lt_of_le_of_ne follows.most fun same => stop (atStop.mpr same.symm)
    have bound : position < p.code.size := Nat.lt_of_lt_of_le going inside
    have here : p.code[position]? = some p.code[position] := Array.getElem?_eq_getElem bound
    have found : p.instr? pc = some p.code[position] := by
      rw [follows.address]
      exact Program.instr?_codeAddress hosting.addressable here
    rw [Machine.round_of_instr stop found]
    split
    · trivial
    · have counted : Abreast p routines blob outer site position frame frames callers d
          { m with steps := m.steps + 1 } pc s :=
        ⟨abreast.active, follows, abreast.control, abreast.mirrors, abreast.waits⟩
      refine counted.execute hosting going here fun a accesses => clear stop a ?_
      rw [Visit.access?, found]
      exact accesses

/-- Where a run of the machine ends with the last frame left, lowered code returns, and it leaves in
storage what the machine leaves in memory. -/
theorem Matches.run {rounds : Nat} (matches_ : Matches p routines blob outer m pc s)
    (clear : ∀ v ∈ Machine.visits p rounds m pc, ∀ a, v.access? p = some a → ¬ a.Wraps)
    (ends : Machine.run p rounds m pc = (none, m')) :
    ∃ t value storage, State.Reaches module blob s t ∧
      t.step module blob = .returned value storage ∧
      Storage.Holds blob outer m'.memory storage := by
  induction rounds generalizing m pc s with
  | zero => exact absurd (Prod.mk.inj ends).1 (by simp)
  | succ rounds ih =>
    have first {seen : List Visit} (visited : Machine.visits p (rounds + 1) m pc =
          (if m.atStop pc then [] else [⟨pc, m.view⟩]) ++ seen) :
        Answered p routines module blob outer s (m.round p pc) := by
      refine matches_.round hosting fun going => clear ⟨pc, m.view⟩ ?_
      simp [visited, going]
    rw [Machine.visits] at clear first
    rw [Machine.run] at ends
    split at ends
    · next goes =>
      rw [goes] at clear first
      obtain ⟨t, reaches, onward⟩ := first rfl
      obtain ⟨u, value, storage, later, rest⟩ :=
        ih onward (fun v member => clear v (mem_append_right _ member)) ends
      exact ⟨u, value, storage, reaches.trans later, rest⟩
    · next done =>
      obtain rfl := (Prod.mk.inj ends).2
      rw [done] at first
      exact first (append_nil _).symm
    · next stops =>
      obtain ⟨differs, -⟩ := Prod.mk.inj ends
      contradiction

end Running

end Lowering

end HighAsm
