import HighAsm.Settings
import HighAsm.SymbolTable

/-!
# Expressions

An expression is a term followed by operations on the accumulator: an operator with a constant or
a variable, or a store. Everything happens strictly from left to right; there is no precedence.
Parsing resolves every name, so that an expression says which addresses it works on, and code is
then a matter of the expression alone.
-/

namespace HighAsm

/-- A constant, a variable, or memory that a variable points to, at an offset. -/
inductive Term
  | simple (operand : Operand)
  | indexed (base : Int) (offset : Operand) (width : Width)
  deriving DecidableEq, Repr

inductive Place
  | direct (address : Int)
  | indexed (base : Int) (offset : Operand) (width : Width)
  deriving DecidableEq, Repr

inductive Operation
  | combine (op : BinOp) (right : Operand)
  | store (place : Place)
  deriving DecidableEq, Repr

structure Expression where
  first : Term
  operations : List Operation
  deriving DecidableEq, Repr

namespace Term

def code : Term → List Instr
  | simple operand => [.load operand]
  | indexed base offset width => [.load (.var base), .binary .add offset, .loadIndirect width]

end Term

namespace Place

def code : Place → List Instr
  | direct address => [.store address]
  | indexed base offset width =>
    [.copyToTemp, .load (.var base), .binary .add offset, .storeIndirect width]

end Place

namespace Operation

def code : Operation → List Instr
  | combine op right => [.binary op right]
  | store place => place.code

end Operation

namespace Expression

def code (e : Expression) : List Instr := e.first.code ++ e.operations.flatMap Operation.code

end Expression

def Mark.operator? : Mark → Option BinOp
  | .plus => some .add
  | .minus => some .sub
  | .star => some .mul
  | .slash => some .div
  | .percent => some .rem
  | .ampersand => some .and
  | .bar => some .or
  | .caret => some .xor
  | _ => none

structure Scope where
  settings : Settings
  table : SymbolTable

namespace Scope

def address? (scope : Scope) (name : String) : Option Int :=
  (scope.table.variableOf? name).map (·.value)

/-- A constant has to be a signed 64-bit integer, and a variable has to be known. -/
def operand (scope : Scope) : Lexeme → Except Fault Operand
  | .number n =>
    if n < 0x8000000000000000 then .ok (.const n)
    else .error (.badNumber (Lexeme.number n).value)
  | .ident name =>
    match scope.address? name with
    | some address => .ok (.var address)
    | none => .error (.undefinedVariable name)
  | other => .error (.notATerm other.spelling)

/-- Gives a first operand an offset. Only a variable can be indexed, and only some settings allow
a variable as the offset. -/
def index (scope : Scope) (base offset : Lexeme) (width : Width) (operand : Operand) :
    Except Fault Term :=
  match operand with
  | .const _ => .error (.indexedConstant base.spelling)
  | .var address => do
    match ← scope.operand offset with
    | .const n => .ok (.indexed address (.const n) width)
    | .var place =>
      if scope.settings.features .variableOffsets then .ok (.indexed address (.var place) width)
      else .error (.variableOffset offset.spelling)

/-- The term at the start of some lexemes, and how many of them it takes. -/
def term (scope : Scope) : List Lexeme → Except Fault (Term × Nat)
  | [] => .error .missingTerm
  | base :: rest => do
    let operand ← scope.operand base
    match rest with
    | .mark .lbracket :: more =>
      match more with
      | offset :: .mark .rbracket :: _ => return (← scope.index base offset .word operand, 4)
      | _ => .error (.unterminatedIndex base.spelling)
    | .mark .wordAt :: more =>
      match more with
      | offset :: _ => return (← scope.index base offset .word operand, 3)
      | [] => .error (.missingOffset .wordAt)
    | .mark .byteAt :: more =>
      match more with
      | offset :: _ => return (← scope.index base offset .byte operand, 3)
      | [] => .error (.missingOffset .byteAt)
    | _ => return (.simple operand, 1)

def place (target : Lexeme) : Term → Except Fault Place
  | .simple (.var address) => .ok (.direct address)
  | .simple (.const _) => .error (.constantTarget target.spelling)
  | .indexed base offset width => .ok (.indexed base offset width)

def right (target : Lexeme) : Term → Except Fault Operand
  | .simple operand => .ok operand
  | .indexed _ _ _ => .error (.indexedLater target.spelling)

/-- What a mark does with the term that follows it; nothing when it is no operator. -/
def operation? (mark : Lexeme) : Option (Lexeme → Term → Except Fault Operation) :=
  match mark with
  | .mark .store => some fun target t => (place target t).map .store
  | .mark m => m.operator?.map fun op target t => (right target t).map (.combine op)
  | _ => none

/-- The operations that some lexemes hold, after a number of them that belong to the term before. -/
def operations (scope : Scope) : Nat → List Lexeme → Except Fault (List Operation)
  | _, [] => .ok []
  | skip + 1, _ :: rest => scope.operations skip rest
  | 0, mark :: rest =>
    match operation? mark with
    | none => .error (.notAnOperator mark.spelling)
    | some build =>
      match rest with
      | [] => .error (.missingOperand mark.spelling)
      | target :: _ => do
        let (t, used) ← scope.term rest
        let operation ← build target t
        let more ← scope.operations used rest
        return operation :: more

def expression (scope : Scope) (lexemes : List Lexeme) : Except Fault Expression := do
  let (first, used) ← scope.term lexemes
  let operations ← scope.operations used lexemes
  return ⟨first, operations⟩

end Scope

end HighAsm
