import HighAsm.Crash
import HighAsm.Program

/-!
# Listings

A listing shows a program for an idealised accumulator machine: one instruction a line, each with
its address, and a dump of the data image. String constants are shown as text; other data is shown
by words where a word has two bytes, and by bytes otherwise.
-/

namespace HighAsm

namespace Listing

def mnemonic : BinOp → String
  | .add => "add"
  | .sub => "sub"
  | .mul => "mul"
  | .div => "div"
  | .rem => "mod"
  | .and => "and"
  | .or => "ora"
  | .xor => "xor"
  | .undefined _ => ""

def place (address : Int) : Text := Text.join ["($", Text.hex 4 address, ")"]

def target (address : Int) : Text := "$" ++ Text.hex 6 address

def operand : Operand → Text
  | .const n => "#$" ++ Text.hex 4 (n % 65536)
  | .var address => place address

def register (n : Int) : Text := "r" ++ Text.ofInt n

def jump : Test → Except Crash String
  | .always => .ok "jmp"
  | .zero => .ok "jz"
  | .nonZero => .ok "jnz"
  | .nonNegative => .ok "jp"
  | .undefined => .error .undefinedTest

def instr : Instr → Except Crash (String × Text)
  | .load source => .ok ("lda", operand source)
  | .loadIndirect .byte => .ok ("ldb", "[a]")
  | .loadIndirect .word => .ok ("lda", "[a]")
  | .binary op right => .ok (mnemonic op, operand right)
  | .store address => .ok ("sta", place address)
  | .storeIndirect .byte => .ok ("stb", "[a]")
  | .storeIndirect .word => .ok ("sta", "[a]")
  | .copyToTemp => .ok ("tab", [])
  | .loadParam n source => .ok ("ldr", Text.join [register n, ",", operand source])
  | .storeParam n address => .ok ("str", Text.join [register n, ",", place address])
  | .jump test address => (jump test).map (·, target address)
  | .loopHead leave => .ok ("for", target leave)
  | .loopIndex => .ok ("idx", [])
  | .loopNext body => .ok ("next", target body)
  | .call entry => .ok ("jsr", target entry)
  | .ret => .ok ("rts", [])
  | .undefined => .ok ("???", [])

def line (address : Int) (i : Instr) : Except Crash Text := do
  let (name, argument) ← instr i
  let text := Text.join [target address, "  ", Text.padRight 4 name, " ", argument]
  return Text.trimEnd (· = 32) text ++ "\n"

def heading (p : Program) (address : Int) : Text :=
  match p.procedureAt? address with
  | some proc => Text.join ["; ", proc.name, "(", Text.ofInt proc.params, ")\n"]
  | none => []

def codeFrom (p : Program) : Int → List Instr → Except Crash (List Text)
  | _, [] => .ok []
  | address, i :: rest => do
    let text ← line address i
    let more ← codeFrom p (wrap64 (address + 1)) rest
    return (heading p address ++ text) :: more

def code (p : Program) : Except Crash Text :=
  (codeFrom p p.codeBase p.code.toList).map Text.join

inductive DataLine
  | string (address : Int) (text : Text)
  | word (address : Int) (low high : UInt8)
  | byte (address : Int) (value : UInt8)
  deriving DecidableEq, Repr

namespace DataLine

def render : DataLine → Text
  | string address text => Text.join [target address, "  db   \"", text, "\",0\n"]
  | word address low high =>
    Text.join [target address, "  dw   $", Text.hex 4 (low.toNat + 256 * high.toNat : Nat), "\n"]
  | byte address value => Text.join [target address, "  db   $", Text.hex 2 value.toNat, "\n"]

end DataLine

/-- The dump of data from an address on, after a number of bytes that belong to the line before. -/
def dataFrom (p : Program) : Nat → Int → List UInt8 → List DataLine
  | _, _, [] => []
  | skip + 1, address, _ :: rest => dataFrom p skip (wrap64 (address + 1)) rest
  | 0, address, b :: rest =>
    let next := wrap64 (address + 1)
    match p.string? address with
    | some text => .string address text :: dataFrom p text.length next rest
    | none =>
      match rest with
      | high :: _ =>
        if p.wordSize = 2 then .word address b high :: dataFrom p 1 next rest
        else .byte address b :: dataFrom p 0 next rest
      | [] => [.byte address b]

def dataLines (p : Program) : List DataLine := dataFrom p 0 p.dataBase p.data.toList

def data (p : Program) : Text :=
  if p.data.isEmpty then [] else "; data\n" ++ (dataLines p).flatMap DataLine.render

def render (p : Program) : Except Crash Text := (code p).map (· ++ data p)

end Listing

end HighAsm
