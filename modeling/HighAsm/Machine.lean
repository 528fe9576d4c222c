import HighAsm.Crash
import HighAsm.Memory
import HighAsm.Program
import HighAsm.Registers

/-!
# The accumulator machine

The machine runs procedures of a program. Its words are signed and wrap at the word size of the
program. Every call has a frame with the counters of its loops; a procedure returns by an
instruction, or by reaching the place where the next procedure begins. Memory and registers stay
as they are between runs.

A run goes through rounds. In a round either an instruction is carried out, which counts as a
step, or a frame whose procedure has come to its end is left, which does not. `rounds` is a number
of rounds that a run within its step limit never uses up.
-/

namespace HighAsm

/-- One active call: where control goes after it, where its code stops, and the counters of its
open loops with the innermost first. -/
structure Frame where
  ret : Int
  stop : Int
  loops : List Int := []
  deriving DecidableEq, Repr

structure Machine where
  memory : Memory
  maxSteps : Int := 1000000
  acc : Int := 0
  temp : Int := 0
  params : Registers
  frames : List Frame := []
  /-- The steps of the last run. A 64-bit counter holds them as long as they have a limit below its
  largest value. -/
  steps : Nat := 0

inductive Stop
  | noProcedure (name : Text)
  | tooManyArguments (given : Nat) (allowed : Nat)
  | outside (pc : Int)
  | stepLimit (pc : Int)
  | stackOverflow (pc : Int)
  | indexOutsideLoop (pc : Int)
  | nextOutsideLoop (pc : Int)
  | undefinedInstruction (pc : Int)
  | crash (crash : Crash)
  /-- A run without a limit was given up. -/
  | unfinished
  deriving DecidableEq, Repr

def Stop.message : Stop → Text
  | noProcedure name => Text.join ["no procedure '", name, "'"]
  | tooManyArguments given allowed =>
    Text.join [Text.ofNat given, " arguments, at most ", Text.ofNat allowed, " allowed"]
  | outside pc => Text.join ["pc $", Text.hex 4 pc, " outside the program"]
  | stepLimit pc => at_ pc "step limit exceeded"
  | stackOverflow pc => at_ pc "call stack overflow"
  | indexOutsideLoop pc => at_ pc "index outside a loop"
  | nextOutsideLoop pc => at_ pc "next outside a loop"
  | undefinedInstruction pc => at_ pc "unknown instruction "
  | crash c => c.message?.getD []
  | unfinished => "run without a limit given up"
where
  at_ (pc : Int) (what : String) : Text := Text.join ["at $", Text.hex 4 pc, ": ", what]

namespace Machine

def maxFrames : Nat := 1024

def load (p : Program) : Except Crash Machine :=
  if p.maxParams < 0 ∨ Registers.maxCount < p.maxParams then .error (.badSize p.maxParams)
  else
    .ok {
      memory := Memory.zeros.load (Memory.cell p.dataBase) p.data.toList
      params := Registers.zeros p.maxParams.toNat }

def wrap (p : Program) (n : Int) : Int :=
  if p.wordSize = 1 then n.bmod 256 else n.bmod 65536

def word (p : Program) (m : Machine) (address : Int) : Int :=
  let low := (m.memory.byte address).toNat
  if p.wordSize = 1 then (low : Int).bmod 256
  else
    let high := (m.memory.byte (address + 1)).toNat
    ((low + 256 * high : Nat) : Int).bmod 65536

def setWord (p : Program) (m : Machine) (address value : Int) : Machine :=
  let memory := m.memory.setByte address (Memory.lowByte value)
  if 1 < p.wordSize then
    { m with memory := memory.setByte (address + 1) (Memory.lowByte (value / 256)) }
  else { m with memory := memory }

def setByte (m : Machine) (address value : Int) : Machine :=
  { m with memory := m.memory.setByte address (Memory.lowByte value) }

def value (p : Program) (m : Machine) : Operand → Int
  | .const n => wrap p n
  | .var address => m.word p address

/-- How a round ends: control goes on at an address, the outermost call has returned, or the run
stops. -/
inductive Outcome
  | next (pc : Int) (m : Machine)
  | done (m : Machine)
  | stopped (why : Stop) (m : Machine)

def leave (m : Machine) : Outcome :=
  match m.frames with
  | frame :: rest@(_ :: _) => .next frame.ret { m with frames := rest }
  | _ => .done { m with frames := [] }

def execute (p : Program) (m : Machine) (pc : Int) (i : Instr) : Outcome :=
  let following := wrap64 (pc + 1)
  match i with
  | .load source => .next following { m with acc := m.value p source }
  | .loadIndirect .byte => .next following { m with acc := (m.memory.byte m.acc).toNat }
  | .loadIndirect .word => .next following { m with acc := m.word p m.acc }
  | .binary op right =>
    match op.eval? m.acc (m.value p right) with
    | some n => .next following { m with acc := wrap p n }
    | none => .stopped (.crash (.undefinedOperator op.code)) m
  | .store address => .next following (m.setWord p address m.acc)
  | .storeIndirect .byte => .next following { m.setByte m.acc m.temp with acc := m.temp }
  | .storeIndirect .word => .next following { m.setWord p m.acc m.temp with acc := m.temp }
  | .copyToTemp => .next following { m with temp := m.acc }
  | .loadParam register source =>
    match m.params.set? register (m.value p source) with
    | some params => .next following { m with params := params }
    | none => .stopped (.crash (.noRegister register)) m
  | .storeParam register address =>
    match m.params.get? register with
    | some n => .next following (m.setWord p address n)
    | none => .stopped (.crash (.noRegister register)) m
  | .jump test target => .next (if test.taken m.acc then target else following) m
  | .loopHead exit =>
    if m.acc ≤ 0 then .next exit m
    else
      match m.frames with
      | frame :: rest =>
        .next following { m with frames := { frame with loops := m.acc :: frame.loops } :: rest }
      | [] => .next following m
  | .loopIndex =>
    match m.frames with
    | { loops := counter :: _, .. } :: _ => .next following { m with acc := counter - 1 }
    | _ => .stopped (.indexOutsideLoop pc) m
  | .loopNext body =>
    match m.frames with
    | frame@{ loops := counter :: loops, .. } :: rest =>
      if 0 < counter - 1 then
        .next body { m with frames := { frame with loops := (counter - 1) :: loops } :: rest }
      else .next following { m with frames := { frame with loops := loops } :: rest }
    | _ => .stopped (.nextOutsideLoop pc) m
  | .call entry =>
    if maxFrames ≤ m.frames.length then .stopped (.stackOverflow pc) m
    else .next entry { m with frames := ⟨following, p.stopOf entry, []⟩ :: m.frames }
  | .ret => m.leave
  | .undefined => .stopped (.undefinedInstruction pc) m

/-- Whether the innermost procedure has come to the place where its code stops. -/
def atStop (m : Machine) (pc : Int) : Bool := m.frames.head?.any (·.stop == pc)

/-- One round: a frame at its end is left, or the instruction at an address is carried out. -/
def round (p : Program) (m : Machine) (pc : Int) : Outcome :=
  if m.atStop pc then m.leave
  else
    match p.instr? pc with
    | none => .stopped (.outside pc) m
    | some i =>
      let m := { m with steps := m.steps + 1 }
      if 0 < m.maxSteps ∧ m.maxSteps < m.steps then .stopped (.stepLimit pc) m
      else m.execute p pc i

def run (p : Program) : Nat → Machine → Int → Option Stop × Machine
  | 0, m, _ => (some .unfinished, m)
  | rounds + 1, m, pc =>
    match m.round p pc with
    | .next pc m => run p rounds m pc
    | .done m => (none, m)
    | .stopped why m => (some why, m)

/-- A number of rounds that is enough for every run within a limit on its steps. Without a limit it
is more than any machine will go through. -/
def rounds (maxSteps : Int) : Nat :=
  if 0 < maxSteps then 2 * maxSteps.toNat + 3 else 0x400000000000000000

/-- Calls the procedure that begins at an address. The result is the accumulator. -/
def callAt (p : Program) (m : Machine) (entry : Int) (args : List Int) :
    Except Stop Int × Machine :=
  if m.params.count < args.length then
    (.error (.tooManyArguments args.length m.params.count), m)
  else
    let start :=
      { m with
        params := m.params.fill 0 (args.map (wrap p))
        frames := [⟨-1, p.stopOf entry, []⟩]
        steps := 0 }
    match run p (rounds m.maxSteps) start entry with
    | (none, m) => (.ok m.acc, m)
    | (some why, m) => (.error why, m)

def call (p : Program) (m : Machine) (name : Text) (args : List Int) :
    Except Stop Int × Machine :=
  match p.procedureNamed? name with
  | none => (.error (.noProcedure name), m)
  | some proc => m.callAt p proc.entry args

end Machine

end HighAsm
