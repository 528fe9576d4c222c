import HighAsm.Crash
import HighAsm.Program

/-!
# Building a program

A `Builder` holds the program written so far. It lays out data, stores each string constant once,
appends instructions, and completes the forward jumps of control structures when their targets are
known. Every request that changes the program is entered in a log, together with its answer.

What reads and assembles source text does not rely on a builder: it stores literals with any
`StringAllocator` and writes statements to any `CodeGenerator`.
-/

namespace HighAsm

inductive Request
  | alloc (count : Int)
  | string (text : Text)
  | begin (name : String) (params : Int)
  | emit (instr : Instr)
  /-- The jump at an address gets a test and a target. -/
  | patch (address : Int) (test : Test) (target : Int)
  | openLoop
  | closeLoop (head : Int)
  deriving DecidableEq, Repr

/-- What stores string constants: it has an address for every text it is given. -/
class StringAllocator (γ : Type) where
  store : γ → Text → Int × γ

/-- What code is written to. It says where it stands, and carries out requests or breaks off. -/
class CodeGenerator (γ : Type) where
  address : γ → Int × γ
  perform : γ → Request → Except Crash (Option Int × γ)

/-- A program under construction, and the requests it was made by. -/
structure Builder where
  program : Program
  /-- Each request with its answer, which is an address for storage and nothing otherwise. -/
  log : Array (Request × Option Int) := #[]
  deriving DecidableEq, Repr

namespace Builder

def address (b : Builder) : Int := b.program.codeEnd

/-- The builder after a request whose effect on the program is known. -/
def enter (b : Builder) (request : Request) (answer : Option Int) (program : Program) : Builder :=
  ⟨program, b.log.push (request, answer)⟩

/-- The most bytes that an address space of 48 bits has room for. -/
def maxSize : Int := 0x1000000000000

def alloc (b : Builder) (count : Int) : Except Crash (Int × Builder) :=
  let size := wrap64 (count * b.program.wordSize)
  if size < 0 ∨ maxSize < size then .error (.badSize size)
  else
    let place := b.program.dataEnd
    let program :=
      { b.program with data := b.program.data ++ Array.replicate size.toNat (0 : UInt8) }
    .ok (place, b.enter (.alloc count) (some place) program)

/-- The address of a string constant, which ends with a zero byte. Equal texts share one place. -/
def intern (b : Builder) (text : Text) : Int × Builder :=
  match b.program.strings.find? (·.2 == text) with
  | some (place, _) => (place, b.enter (.string text) (some place) b.program)
  | none =>
    let place := b.program.dataEnd
    let program :=
      { b.program with
        data := b.program.data ++ (text ++ [0]).toArray
        strings := b.program.strings ++ [(place, text)] }
    (place, b.enter (.string text) (some place) program)

def begin (b : Builder) (name : String) (params : Int) : Builder :=
  b.enter (.begin name params) none
    { b.program with procedures := b.program.procedures ++ [⟨name, b.address, params⟩] }

def append (p : Program) (i : Instr) : Program := { p with code := p.code.push i }

def emit (b : Builder) (i : Instr) : Builder := b.enter (.emit i) none (append b.program i)

def emitAll (b : Builder) (instrs : List Instr) : Builder := instrs.foldl emit b

def replace (p : Program) (i : Nat) (instr : Instr) : Program :=
  { p with code := p.code.setIfInBounds i instr }

def patch (b : Builder) (at_ : Int) (test : Test) (target : Int) : Except Crash Builder :=
  match b.program.index? at_, b.program.instr? at_ with
  | some i, some (.jump _ _) =>
    .ok (b.enter (.patch at_ test target) none (replace b.program i (.jump test target)))
  | _, _ => .error (.noJump at_)

/-- The head of a counted loop, whose way out is not known yet, and the load of the first index. -/
def openLoop (b : Builder) : Builder :=
  b.enter .openLoop none (append (append b.program (.loopHead 0)) .loopIndex)

/-- The end of the counted loop whose head stands at an address. -/
def closeLoop (b : Builder) (head : Int) : Except Crash Builder :=
  match b.program.index? head, b.program.instr? head with
  | some i, some (.loopHead _) =>
    let program := append b.program (.loopNext (wrap64 (head + 1)))
    .ok (b.enter (.closeLoop head) none (replace program i (.loopHead program.codeEnd)))
  | _, _ => .error (.noLoopHead head)

def perform (b : Builder) : Request → Except Crash (Option Int × Builder)
  | .alloc count => (b.alloc count).map fun (place, b) => (some place, b)
  | .string text => .ok ((b.intern text).map some id)
  | .begin name params => .ok (none, b.begin name params)
  | .emit i => .ok (none, b.emit i)
  | .patch at_ test target => (b.patch at_ test target).map (none, ·)
  | .openLoop => .ok (none, b.openLoop)
  | .closeLoop head => (b.closeLoop head).map (none, ·)

instance : StringAllocator Builder := ⟨intern⟩

instance : CodeGenerator Builder := ⟨fun b => (b.address, b), perform⟩

end Builder

end HighAsm
