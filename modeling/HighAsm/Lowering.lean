import HighAsm.Crash
import HighAsm.IL
import HighAsm.Program

/-!
# Lowering to the intermediate language

Every procedure becomes a function and every instruction a block of it, labelled by its address.
The registers of the machine are temporaries of the function, the parameter registers of a call are
its arguments, and the 64K of memory are the blob. Only programs with words of two bytes can be
lowered, and control may not leave a procedure but by a call or a return.
-/

namespace HighAsm

inductive LoweringError
  | wordSize (size : Int)
  | dataOutside (base end_ : Int)
  | jumpOutside (procedure : String) (target : Int)
  | noRegister (procedure : String) (register : Int)
  | noProcedure (procedure : String) (entry : Int)
  | undefinedInstruction (procedure : String)
  | crash (crash : Crash)
  deriving DecidableEq, Repr

def LoweringError.message : LoweringError → Text
  | wordSize size =>
    Text.join ["qbe backend needs a word size of 2, not ", Text.ofInt size]
  | dataOutside base end_ =>
    Text.join ["data image $", Text.hex 4 base, "-$", Text.hex 4 end_, " does not fit in 64K"]
  | jumpOutside procedure target =>
    inside procedure ["jump to $", Text.hex 4 target, " leaves the procedure"]
  | noRegister procedure register =>
    inside procedure ["parameter register ", Text.ofInt register, " out of range"]
  | noProcedure procedure entry =>
    inside procedure ["call to $", Text.hex 4 entry, " which is not a procedure entry"]
  | undefinedInstruction procedure => inside procedure ["unknown instruction "]
  | crash c => c.message?.getD []
where
  inside (procedure : String) (what : List Text) : Text :=
    Text.join ("procedure '" :: procedure :: "': " :: what)

namespace Lowering

def memorySize : Int := 65536

/-- The most parameters, with 16 bytes for the name of each, that an address space of 48 bits has
room for. -/
def maxParams : Int := 0x100000000000

/-- The name of the function of a procedure. An exported procedure keeps its name, without the
marks and with underscores for dots; the others are named for their entries. -/
def functionName (proc : Procedure) : String :=
  if isGlobal proc then
    String.ofList ((proc.name.toList.filter (· != '$')).map fun c => if c = '.' then '_' else c)
  else "p_" ++ String.ofList ((Text.hex 4 proc.entry).map fun b => Char.ofNat b.toNat)
where
  isGlobal (proc : Procedure) : Bool := proc.name.toList.head? == some '$'

def memory (p : Program) : Except LoweringError (List IL.Item) :=
  if p.dataBase < 0 ∨ memorySize < p.dataEnd then .error (.dataOutside p.dataBase p.dataEnd)
  else
    let rest := wrap64 (memorySize - p.dataEnd)
    .ok ((if 0 < p.dataBase then [.zeros p.dataBase] else []) ++
      (if p.data.isEmpty then [] else [.bytes p.data.toList]) ++
      (if 0 < rest then [.zeros rest] else []))

abbrev var (t : IL.Temp) : IL.Value := .temp t

abbrev acc : IL.Value := .temp .acc

/-- A piece of code: its instructions, what they compute, and how many fresh temporaries have been
used after it. -/
structure Piece where
  instrs : List IL.Instr
  value : IL.Value
  used : Nat

def pointerTo (used : Nat) (address : Int) : Piece :=
  let t := IL.Temp.fresh (used + 1)
  ⟨[.pointer t (.int (address % memorySize))], var t, used + 1⟩

def pointerAcc (used : Nat) : Piece :=
  let masked := IL.Temp.fresh (used + 1)
  let wide := IL.Temp.fresh (used + 2)
  let t := IL.Temp.fresh (used + 3)
  ⟨[.arith masked .and acc (.int 65535), .widen wide (var masked), .pointer t (var wide)],
    var t, used + 3⟩

def loadFrom (width : Width) (pointer : Piece) : Piece :=
  let t := IL.Temp.fresh (pointer.used + 1)
  ⟨pointer.instrs ++ [.load width t pointer.value], var t, pointer.used + 1⟩

def operand (used : Nat) : Operand → Piece
  | .const n => ⟨[], .int (n.bmod 65536), used⟩
  | .var address => loadFrom .word (pointerTo used address)

/-- The accumulator combined with an operand. Dividing by zero gives zero: the divisor is then one
and the quotient is masked. -/
def binary (used : Nat) (op : BinOp) (right : Operand) : List IL.Instr × Nat :=
  let rhs := operand used right
  let narrow : IL.Instr := .signHalf .acc acc
  if op = .div ∨ op = .rem then
    let isZero := IL.Temp.fresh (rhs.used + 1)
    let divisor := IL.Temp.fresh (rhs.used + 2)
    let quotient := IL.Temp.fresh (rhs.used + 3)
    let keep := IL.Temp.fresh (rhs.used + 4)
    (rhs.instrs ++
      [.compare isZero .equal rhs.value (.int 0),
        .arith divisor .add rhs.value (var isZero),
        .arith quotient op acc (var divisor),
        .arith keep .sub (var isZero) (.int 1),
        .arith .acc .and (var quotient) (var keep),
        narrow],
      rhs.used + 4)
  else (rhs.instrs ++ [.arith .acc op acc rhs.value, narrow], rhs.used)

/-- The procedure that is lowered: its name, and where its code begins and stops. -/
structure Context where
  program : Program
  name : String
  entry : Int
  stop : Int

def label (c : Context) (target : Int) : Except LoweringError IL.Label :=
  if target < c.entry ∨ c.stop < target then .error (.jumpOutside c.name target)
  else .ok (.code target)

def checkRegister (c : Context) (register : Int) : Except LoweringError Unit :=
  if c.program.maxParams ≤ register then .error (.noRegister c.name register) else .ok ()

/-- The block of an instruction at an address, and the number of fresh temporaries used after it. -/
def instr (c : Context) (used : Nat) (address : Int) (i : Instr) :
    Except LoweringError (IL.Block × Nat) :=
  let block (instrs : List IL.Instr) (exit? : Option IL.Exit) : IL.Block :=
    ⟨.code address, instrs, exit?⟩
  let following := IL.Label.code (wrap64 (address + 1))
  match i with
  | .load source =>
    let v := operand used source
    .ok (block (v.instrs ++ [.copy .acc v.value]) none, v.used)
  | .loadIndirect width =>
    let v := loadFrom width (pointerAcc used)
    .ok (block (v.instrs ++ [.copy .acc v.value]) none, v.used)
  | .binary op right =>
    let (instrs, used) := binary used op right
    .ok (block instrs none, used)
  | .store target =>
    let p := pointerTo used target
    .ok (block (p.instrs ++ [.store .word acc p.value]) none, p.used)
  | .storeIndirect width =>
    let p := pointerAcc used
    .ok (block (p.instrs ++ [.store width (var .tmp) p.value, .copy .acc (var .tmp)]) none, p.used)
  | .copyToTemp => .ok (block [.copy .tmp acc] none, used)
  | .loadParam register source => do
    checkRegister c register
    let v := operand used source
    return (block (v.instrs ++ [.copy (.arg register) v.value]) none, v.used)
  | .storeParam register target => do
    checkRegister c register
    let p := pointerTo used target
    return (block (p.instrs ++ [.store .word (var (.param register)) p.value]) none, p.used)
  | .jump test target => do
    let label ← label c target
    match test with
    | .always => return (block [] (some (.jump label)), used)
    | .zero => return (block [] (some (.branch acc following label)), used)
    | .nonZero => return (block [] (some (.branch acc label following)), used)
    | .nonNegative =>
      let t := IL.Temp.fresh (used + 1)
      return (block [.compare t .atLeast acc (.int 0)] (some (.branch (var t) label following)),
        used + 1)
    | .undefined => return (block [] none, used)
  | .loopHead leave => do
    let label ← label c leave
    let t := IL.Temp.fresh (used + 1)
    return (block [.copy (.counter address) acc, .compare t .greater acc (.int 0)]
      (some (.branch (var t) following label)), used + 1)
  | .loopIndex =>
    .ok (block [.arith .acc .sub (var (.counter (wrap64 (address - 1)))) (.int 1)] none, used)
  | .loopNext body => do
    let label ← label c body
    let counter := IL.Temp.counter (wrap64 (body - 1))
    let t := IL.Temp.fresh (used + 1)
    return (block [.arith counter .sub (var counter) (.int 1),
        .compare t .greater (var counter) (.int 0)]
      (some (.branch (var t) label following)), used + 1)
  | .call entry =>
    match c.program.procedureAt? entry with
    | none => .error (.noProcedure c.name entry)
    | some callee =>
      let args := (List.range c.program.maxParams.toNat).map fun (i : Nat) => var (.arg i)
      .ok (block [.call .acc (functionName callee) args] none, used)
  | .ret => .ok (block [] (some (.ret acc)), used)
  | .undefined => .error (.undefinedInstruction c.name)

def blocks (c : Context) : Nat → Int → List Instr → Except LoweringError (List IL.Block × Nat)
  | used, _, [] => .ok ([], used)
  | used, address, i :: rest => do
    let (block, used) ← instr c used address i
    let (more, used) ← blocks c used (wrap64 (address + 1)) rest
    return (block :: more, used)

def loopHeads : Int → List Instr → List Int
  | _, [] => []
  | address, i :: rest =>
    let more := loopHeads (wrap64 (address + 1)) rest
    match i with
    | .loopHead _ => address :: more
    | _ => more

/-- The first block of a function, where all registers are zero. -/
def prologue (params : Nat) (heads : List Int) : IL.Block :=
  let zero (t : IL.Temp) : IL.Instr := .copy t (.int 0)
  ⟨.start,
    [zero .acc, zero .tmp] ++ (List.range params).map (fun (i : Nat) => zero (.arg i)) ++
      heads.map fun h => zero (.counter h),
    none⟩

def slice (p : Program) (entry stop : Int) : Except LoweringError (List Instr) :=
  if stop ≤ entry then .ok []
  else
    match p.index? entry with
    | none => .error (.crash .outsideCode)
    | some i =>
      let count := (stop - entry).toNat
      if p.code.size < i + count then .error (.crash .outsideCode)
      else .ok ((p.code.toList.drop i).take count)

def function (p : Program) (used : Nat) (proc : Procedure) (stop : Int) :
    Except LoweringError (IL.Function × Nat) := do
  if p.maxParams < 0 ∨ maxParams < p.maxParams then throw (.crash (.badSize p.maxParams))
  let instrs ← slice p proc.entry stop
  let (body, used) ← blocks ⟨p, proc.name, proc.entry, stop⟩ used proc.entry instrs
  let last : IL.Block := ⟨.code stop, [], some (.ret acc)⟩
  return (⟨functionName.isGlobal proc, functionName proc, p.maxParams.toNat,
    prologue p.maxParams.toNat (loopHeads proc.entry instrs) :: body ++ [last]⟩, used)

def functions (p : Program) : Nat → List Procedure → Except LoweringError (List IL.Function)
  | _, [] => .ok []
  | used, proc :: rest => do
    let (f, used) ← function p used proc (p.stopAmong (proc :: rest))
    let more ← functions p used rest
    return f :: more

def program (p : Program) : Except LoweringError IL.Module := do
  if p.wordSize ≠ 2 then throw (.wordSize p.wordSize)
  let memory ← memory p
  let functions ← functions p 0 p.procedures
  return ⟨memory, functions⟩

end Lowering

end HighAsm
