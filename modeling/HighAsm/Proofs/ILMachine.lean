import HighAsm.IL

/-!
# Running the intermediate language

What the instructions of the intermediate language mean. A word has 32 bits and a long has 64, and
arithmetic on them wraps. Storage is one row of bytes at all 64-bit addresses, and the memory blob
of a module lies in it from some address on, which a pointer into the blob is counted from. Every
activation of a function has temporaries of its own, which hold nothing before they are assigned.

The machine goes on one instruction at a time. It is stuck where the language gives no meaning: a
temporary is read before it is assigned or a word where a long is asked for, a division has no
quotient, a label or a function is not there, a call has the wrong number of arguments, or the last
block of a function has no exit.
-/

namespace HighAsm.IL

variable {value₁ value₂ : BitVec 32}

/-- What a temporary holds. -/
inductive Datum
  | word (bits : BitVec 32)
  | long (bits : BitVec 64)
  deriving DecidableEq, Repr

/-- The word that a datum is used as: a long gives its low half. -/
def Datum.low : Datum → BitVec 32
  | word bits => bits
  | long bits => bits.setWidth 32

/-- The long that a datum is used as; a word is none. -/
def Datum.long? : Datum → Option (BitVec 64)
  | word _ => none
  | long bits => some bits

/-- The bytes at all addresses. -/
abbrev Storage := BitVec 64 → UInt8

/-- Storage with the byte at an address replaced. -/
def Storage.put (s : Storage) (address : BitVec 64) (bits : BitVec 8) : Storage :=
  fun other => if other = address then UInt8.ofBitVec bits else s other

/-- The half word at an address, its low byte first. -/
def Storage.half (s : Storage) (address : BitVec 64) : BitVec 16 :=
  (s (address + 1)).toBitVec ++ (s address).toBitVec

/-- Storage with the half word at an address replaced. -/
def Storage.putHalf (s : Storage) (address : BitVec 64) (bits : BitVec 16) : Storage :=
  (s.put address (bits.setWidth 8)).put (address + 1) ((bits >>> (8 : Nat)).setWidth 8)

/-- What instructions work on: the temporaries that have been assigned, and storage. -/
structure Data where
  temps : Temp → Option Datum
  storage : Storage

/-- The data after an assignment. -/
def Data.assign (d : Data) (target : Temp) (datum : Datum) : Data :=
  { d with temps := fun t => if t = target then some datum else d.temps t }

namespace Value

/-- The word that a value stands for. -/
def word? (d : Data) : Value → Option (BitVec 32)
  | temp t => (d.temps t).map Datum.low
  | int n => some (BitVec.ofInt 32 n)

/-- The long that a value stands for. -/
def long? (d : Data) : Value → Option (BitVec 64)
  | temp t => (d.temps t).bind Datum.long?
  | int n => some (BitVec.ofInt 64 n)

section Assignments

variable (d : Data) (target t : Temp) (datum : Datum)

@[simp] theorem word?_int (n : Int) : (int n).word? d = some (BitVec.ofInt 32 n) := rfl

@[simp] theorem word?_assign : (temp t).word? (d.assign target datum) =
    if t = target then some datum.low else (temp t).word? d := by
  simp only [word?, Data.assign]
  split <;> rfl

@[simp] theorem long?_assign : (temp t).long? (d.assign target datum) =
    if t = target then datum.long? else (temp t).long? d := by
  simp only [long?, Data.assign]
  split <;> rfl

end Assignments

end Value

@[simp] theorem Data.storage_assign (d : Data) (target : Temp) (datum : Datum) :
    (d.assign target datum).storage = d.storage := rfl

/-- Whether two words have a quotient. A divisor of zero has none, and neither has the least word
divided by minus one, which would be too large. -/
def hasQuotient (x y : BitVec 32) : Bool :=
  y != 0 && !(x == BitVec.intMin 32 && y == BitVec.allOnes 32)

/-- The value of an operation on words. Division truncates toward zero. -/
def operate? (op : BinOp) (x y : BitVec 32) : Option (BitVec 32) :=
  match op with
  | .add => some (x + y)
  | .sub => some (x - y)
  | .mul => some (x * y)
  | .div => if hasQuotient x y then some (x.sdiv y) else none
  | .rem => if hasQuotient x y then some (x.srem y) else none
  | .and => some (x &&& y)
  | .or => some (x ||| y)
  | .xor => some (x ^^^ y)
  | .undefined _ => none

/-- Whether a comparison holds of two signed words. -/
def Comparison.holds : Comparison → BitVec 32 → BitVec 32 → Bool
  | equal, x, y => x == y
  | atLeast, x, y => y.sle x
  | greater, x, y => y.slt x

namespace Instr

/-- What an instruction other than a call does, in a module whose blob lies at an address. -/
def effect? (blob : BitVec 64) (d : Data) : Instr → Option Data
  | copy t v => (v.word? d).map fun x => d.assign t (.word x)
  | arith t op a b =>
    (a.word? d).bind fun x => (b.word? d).bind fun y =>
      (operate? op x y).map fun z => d.assign t (.word z)
  | compare t c a b =>
    (a.word? d).bind fun x => (b.word? d).map fun y =>
      d.assign t (.word (if c.holds x y then 1 else 0))
  | pointer t v => (v.long? d).map fun x => d.assign t (.long (blob + x))
  | widen t v => (v.word? d).map fun x => d.assign t (.long (x.setWidth 64))
  | signHalf t v => (v.word? d).map fun x => d.assign t (.word ((x.setWidth 16).signExtend 32))
  | load .byte t p =>
    (p.long? d).map fun a => d.assign t (.word ((d.storage a).toBitVec.setWidth 32))
  | load .word t p =>
    (p.long? d).map fun a => d.assign t (.word ((d.storage.half a).signExtend 32))
  | store .byte v p =>
    (v.word? d).bind fun x => (p.long? d).map fun a =>
      { d with storage := d.storage.put a (x.setWidth 8) }
  | store .word v p =>
    (v.word? d).bind fun x => (p.long? d).map fun a =>
      { d with storage := d.storage.putHalf a (x.setWidth 16) }
  | call _ _ _ => none

/-- What instructions do one after the other. -/
def effects? (blob : BitVec 64) : List Instr → Data → Option Data
  | [], d => some d
  | i :: rest, d => (i.effect? blob d).bind (effects? blob rest)

theorem effects?_append (blob : BitVec 64) (first second : List Instr) (d : Data) :
    effects? blob (first ++ second) d = (effects? blob first d).bind (effects? blob second) := by
  induction first generalizing d with
  | nil => rfl
  | cons i rest ih =>
    rw [List.cons_append, effects?, effects?, Option.bind_assoc]
    exact congrArg _ (funext ih)

end Instr

/-- A function that is being carried out: what is left of its current block, and the blocks behind
that one. -/
structure Activation where
  function : Function
  temps : Temp → Option Datum
  here : Block
  later : List Block

/-- A function that waits for the result of a call, and where the result goes. -/
structure Caller where
  target : Temp
  activation : Activation

/-- A state of the machine: storage, the function that is carried out, and those that called it, the
last one first. -/
structure State where
  storage : Storage
  current : Activation
  callers : List Caller

/-- How a step ends: the machine goes on, the outermost call returns, or there is no next step. -/
inductive Outcome
  | next (s : State)
  | returned (value : BitVec 32) (storage : Storage)
  | stuck

namespace Function

/-- The function at the first of some of its blocks. -/
def resume? (f : Function) (temps : Temp → Option Datum) : List Block → Option Activation
  | [] => none
  | b :: later => some ⟨f, temps, b, later⟩

/-- The blocks from the one with a label on. -/
def blocksFrom (f : Function) (label : Label) : List Block := f.blocks.dropWhile (·.label != label)

/-- The temporaries of a function that was given arguments: only its parameters are assigned. -/
def arguments (words : List (BitVec 32)) : Temp → Option Datum
  | .param register =>
    if 0 ≤ register then (words[register.toNat]?).map Datum.word else none
  | _ => none

/-- The function at its start, with a number of arguments that fits. -/
def begin? (f : Function) (words : List (BitVec 32)) : Option Activation :=
  if words.length = f.params then f.resume? (arguments words) f.blocks else none

end Function

/-- The first function of a name. -/
def Module.function? (m : Module) (name : String) : Option Function :=
  m.functions.find? (·.name == name)

/-- The words that values stand for. -/
def Value.words? (d : Data) : List Value → Option (List (BitVec 32))
  | [] => some []
  | v :: rest => (v.word? d).bind fun x => (words? d rest).map (x :: ·)

namespace State

/-- The data of the current function. -/
def data (s : State) : Data := ⟨s.current.temps, s.storage⟩

/-- The state with other data, and the first instruction of the block done. -/
def proceed (s : State) (d : Data) (rest : List Instr) : State :=
  { s with
    storage := d.storage
    current := { s.current with temps := d.temps, here := { s.current.here with instrs := rest } } }

/-- Control goes to the first of some blocks. -/
def goto (s : State) (blocks : List Block) : Outcome :=
  match s.current.function.resume? s.current.temps blocks with
  | some a => .next { s with current := a }
  | none => .stuck

/-- Control goes to the start of a function. What is left of the current block comes after it. -/
def enter (m : Module) (s : State) (target : Temp) (name : String) (args : List Value)
    (rest : List Instr) : Outcome :=
  match (m.function? name).bind fun f => (Value.words? s.data args).bind f.begin? with
  | some callee =>
    .next ⟨s.storage, callee, ⟨target, (s.proceed s.data rest).current⟩ :: s.callers⟩
  | none => .stuck

/-- A value goes back to the last caller. -/
def leave (s : State) (value : BitVec 32) : Outcome :=
  match s.callers with
  | [] => .returned value s.storage
  | caller :: others =>
    let d := (Data.mk caller.activation.temps s.storage).assign caller.target (.word value)
    .next ⟨s.storage, { caller.activation with temps := d.temps }, others⟩

/-- Control leaves a block. -/
def exit (s : State) : Option Exit → Outcome
  | none => s.goto s.current.later
  | some (.jump label) => s.goto (s.current.function.blocksFrom label)
  | some (.branch v nonZero zero) =>
    match v.word? s.data with
    | some x => s.goto (s.current.function.blocksFrom (if x != 0 then nonZero else zero))
    | none => .stuck
  | some (.ret v) =>
    match v.word? s.data with
    | some x => s.leave x
    | none => .stuck

/-- One step: an instruction is carried out, or a block is left. -/
def step (m : Module) (blob : BitVec 64) (s : State) : Outcome :=
  match s.current.here.instrs with
  | [] => s.exit s.current.here.exit?
  | .call target name args :: rest => s.enter m target name args rest
  | i :: rest =>
    match i.effect? blob s.data with
    | some d => .next (s.proceed d rest)
    | none => .stuck

/-- The state after a number of steps, if the machine goes on that long. -/
def after (m : Module) (blob : BitVec 64) : Nat → State → Option State
  | 0, s => some s
  | steps + 1, s =>
    match s.step m blob with
    | .next t => after m blob steps t
    | _ => none

/-- The machine comes from one state to another. -/
def Reaches (m : Module) (blob : BitVec 64) (s t : State) : Prop :=
  ∃ steps, s.after m blob steps = some t

namespace Reaches

variable {m : Module} {blob : BitVec 64} {s t u : State}

theorem refl (s : State) : Reaches m blob s s := ⟨0, rfl⟩

theorem head (first : s.step m blob = .next t) (others : Reaches m blob t u) :
    Reaches m blob s u := by
  obtain ⟨steps, ends⟩ := others
  exact ⟨steps + 1, by rw [after, first]; exact ends⟩

theorem one (step : s.step m blob = .next t) : Reaches m blob s t := head step (refl t)

theorem trans (first : Reaches m blob s t) (second : Reaches m blob t u) : Reaches m blob s u := by
  obtain ⟨steps, ends⟩ := first
  induction steps generalizing s with
  | zero =>
    cases ends
    exact second
  | succ steps ih =>
    unfold after at ends
    split at ends
    · next goes => exact head goes (ih ends)
    · contradiction

theorem keeps {P : State → Prop} (reaches : Reaches m blob s t) (start : P s)
    (step : ∀ s t : State, P s → s.step m blob = .next t → P t) : P t := by
  obtain ⟨steps, ends⟩ := reaches
  induction steps generalizing s with
  | zero =>
    cases ends
    exact start
  | succ steps ih =>
    unfold after at ends
    split at ends
    · next goes => exact ih (step _ _ start goes) ends
    · contradiction

end Reaches

/-- Instructions without calls are carried out one after the other. -/
theorem reaches_effects {m : Module} {blob : BitVec 64} {s : State} {code rest : List Instr}
    {d : Data} (here : s.current.here.instrs = code ++ rest)
    (effects : Instr.effects? blob code s.data = some d) :
    Reaches m blob s (s.proceed d rest) := by
  induction code generalizing s with
  | nil =>
    cases effects
    have same : s.proceed s.data rest = s := by
      obtain ⟨storage, ⟨f, temps, ⟨label, instrs, exit?⟩, later⟩, callers⟩ := s
      obtain rfl : instrs = rest := here
      rfl
    rw [same]
    exact .refl s
  | cons i code ih =>
    obtain ⟨e, first, others⟩ := Option.bind_eq_some_iff.mp effects
    have goes : s.step m blob = .next (s.proceed e (code ++ rest)) := by
      unfold step
      rw [here, List.cons_append]
      split
      · contradiction
      · next same =>
        cases same
        contradiction
      · next same =>
        cases same
        rw [first]
    exact .head goes (ih rfl others)

/-- Where the machine returns it returns once and for all. -/
theorem returned_unique {m : Module} {blob : BitVec 64} {s t₁ t₂ : State} {n₁ n₂ : Nat}
    {storage₁ storage₂ : Storage} (there₁ : s.after m blob n₁ = some t₁)
    (there₂ : s.after m blob n₂ = some t₂) (returned₁ : t₁.step m blob = .returned value₁ storage₁)
    (returned₂ : t₂.step m blob = .returned value₂ storage₂) :
    value₁ = value₂ ∧ storage₁ = storage₂ := by
  -- While both go on they go to the same state, and where one returns the other does too.
  induction n₁ generalizing s n₂ with
  | zero =>
    cases there₁
    cases n₂ with
    | zero =>
      cases there₂
      exact Outcome.returned.inj (returned₁.symm.trans returned₂)
    | succ n₂ =>
      rw [after, returned₁] at there₂
      contradiction
  | succ n₁ ih =>
    cases n₂ with
    | zero =>
      cases there₂
      rw [after, returned₂] at there₁
      contradiction
    | succ n₂ =>
      rw [after] at there₁ there₂
      cases goes : s.step m blob with
      | next u =>
        rw [goes] at there₁ there₂
        exact ih there₁ there₂
      | returned | stuck =>
        rw [goes] at there₁
        contradiction

end State

/-- A call from outside returns: the function of a name is given words, and leaves a value and
storage. -/
def Module.Returns (m : Module) (blob : BitVec 64) (name : String) (words : List (BitVec 32))
    (storage : Storage) (value : BitVec 32) (storage' : Storage) : Prop :=
  ∃ f a s, m.function? name = some f ∧ f.begin? words = some a ∧
    State.Reaches m blob ⟨storage, a, []⟩ s ∧ s.step m blob = .returned value storage'

theorem Module.Returns.unique {m : Module} {blob : BitVec 64} {name : String}
    {words : List (BitVec 32)} {storage storage₁ storage₂ : Storage}
    (first : m.Returns blob name words storage value₁ storage₁)
    (second : m.Returns blob name words storage value₂ storage₂) :
    value₁ = value₂ ∧ storage₁ = storage₂ := by
  obtain ⟨f, a, t₁, found₁, begun₁, ⟨n₁, there₁⟩, returned₁⟩ := first
  obtain ⟨g, b, t₂, found₂, begun₂, ⟨n₂, there₂⟩, returned₂⟩ := second
  obtain rfl := Option.some.inj (found₁.symm.trans found₂)
  obtain rfl := Option.some.inj (begun₁.symm.trans begun₂)
  exact State.returned_unique there₁ there₂ returned₁ returned₂

end HighAsm.IL
