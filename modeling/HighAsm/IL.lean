import HighAsm.Instruction
import HighAsm.Text.Number

/-!
# An intermediate language with basic blocks

The target of lowering: a module has one blob of memory and some functions, and a function is a list
of blocks of three-address instructions on named temporaries. Words have 32 bits and pointers have
64. A block without an exit goes on with the block after it.
-/

namespace HighAsm.IL

inductive Temp
  | acc
  | tmp
  | arg (register : Int)
  | param (register : Int)
  /-- The counter of the loop whose head stands at an address. -/
  | counter (head : Int)
  | fresh (number : Nat)
  deriving DecidableEq, Repr

inductive Value
  | temp (t : Temp)
  | int (n : Int)
  deriving DecidableEq, Repr

inductive Comparison
  | equal | atLeast | greater
  deriving DecidableEq, Repr

inductive Instr
  | copy (target : Temp) (value : Value)
  | arith (target : Temp) (op : BinOp) (left right : Value)
  | compare (target : Temp) (comparison : Comparison) (left right : Value)
  | pointer (target : Temp) (offset : Value)
  /-- A word widened to the size of a pointer, as an unsigned number. -/
  | widen (target : Temp) (value : Value)
  /-- The low half of a word, as a signed number. -/
  | signHalf (target : Temp) (value : Value)
  | load (width : Width) (target : Temp) (pointer : Value)
  | store (width : Width) (value pointer : Value)
  | call (target : Temp) (function : String) (args : List Value)
  deriving DecidableEq, Repr

inductive Label
  | start
  | code (address : Int)
  deriving DecidableEq, Repr

inductive Exit
  | jump (label : Label)
  | branch (value : Value) (nonZero zero : Label)
  | ret (value : Value)
  deriving DecidableEq, Repr

structure Block where
  label : Label
  instrs : List Instr
  exit? : Option Exit
  deriving DecidableEq, Repr

structure Function where
  exported : Bool
  name : String
  params : Nat
  blocks : List Block
  deriving DecidableEq, Repr

inductive Item
  | zeros (count : Int)
  | bytes (values : List UInt8)
  deriving DecidableEq, Repr

structure Module where
  memory : List Item
  functions : List Function
  deriving DecidableEq, Repr

def Temp.render : Temp → Text
  | acc => "%acc"
  | tmp => "%tmp"
  | arg register => "%a" ++ Text.ofInt register
  | param register => "%r" ++ Text.ofInt register
  | counter head => "%for" ++ Text.hex 0 head
  | fresh number => "%t" ++ Text.ofNat number

def Value.render : Value → Text
  | temp t => t.render
  | int n => Text.ofInt n

def opName : BinOp → String
  | .add => "add"
  | .sub => "sub"
  | .mul => "mul"
  | .div => "div"
  | .rem => "rem"
  | .and => "and"
  | .or => "or"
  | .xor => "xor"
  | .undefined _ => ""

def Comparison.name : Comparison → String
  | equal => "ceqw"
  | atLeast => "csgew"
  | greater => "csgtw"

def assign (t : Temp) (right : List Text) : Text := Text.join (t.render :: " =w " :: right)

def Instr.render : Instr → Text
  | copy t v => assign t ["copy ", v.render]
  | arith t op a b => assign t [opName op, " ", a.render, ", ", b.render]
  | compare t c a b => assign t [c.name, " ", a.render, ", ", b.render]
  | pointer t offset => Text.join [t.render, " =l add $mem, ", offset.render]
  | widen t v => Text.join [t.render, " =l extuw ", v.render]
  | signHalf t v => assign t ["extsh ", v.render]
  | load .byte t p => assign t ["loadub ", p.render]
  | load .word t p => assign t ["loadsh ", p.render]
  | store .byte v p => Text.join ["storeb ", v.render, ", ", p.render]
  | store .word v p => Text.join ["storeh ", v.render, ", ", p.render]
  | call t f args =>
    assign t ["call $", f, "(", Text.joinWith ", " (args.map fun a => "w " ++ a.render), ")"]

def Label.render : Label → Text
  | start => "@start"
  | code address => "@a" ++ Text.hex 0 address

def Exit.render : Exit → Text
  | jump label => "jmp " ++ label.render
  | branch v nonZero zero =>
    Text.join ["jnz ", v.render, ", ", nonZero.render, ", ", zero.render]
  | ret v => "ret " ++ v.render

def Block.render (b : Block) : Text :=
  Text.join [b.label.render, "\n",
    b.instrs.flatMap fun i => Text.join ["\t", i.render, "\n"],
    b.exit?.toList.flatMap fun e => Text.join ["\t", e.render, "\n"]]

def Function.render (f : Function) : Text :=
  let params := (List.range f.params).map fun (i : Nat) => Text.join ["w ", (Temp.param i).render]
  Text.join ["\n", if f.exported then "export " else "", "function w $", f.name, "(",
    Text.joinWith ", " params, ") \x7b\n", f.blocks.flatMap Block.render, "\x7d\n"]

def Item.render : Item → Text
  | zeros count => "z " ++ Text.ofInt count
  | bytes values => Text.join ["b", values.flatMap fun v => Text.join [" ", Text.ofNat v.toNat]]

def Module.render (m : Module) : Text :=
  Text.join ["export data $mem = align 8 \x7b ", Text.joinWith ", " (m.memory.map Item.render),
    " \x7d\n", m.functions.flatMap Function.render]

end HighAsm.IL
