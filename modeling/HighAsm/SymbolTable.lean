import HighAsm.Fault

/-!
# The symbol table

Names stand for variables and for procedures. Both live in one table, where a procedure is entered
under its name followed by an opening parenthesis, so that a variable and a procedure may share a
name. Names are compared without white space at their ends and without regard to letter case.
-/

namespace HighAsm

inductive Meaning
  | data (address : Int)
  /-- Code, with the number of its parameters and the address of the first of them. -/
  | code (entry : Int) (params : Int) (paramBase : Int)
  deriving DecidableEq, Repr

/-- The form in which names are compared. -/
def normalName (name : Text) : String :=
  String.ofList ((Text.trimList isBlank (Text.chars name)).map lowerChar)

structure Symbol where
  name : String
  meaning : Meaning
  deriving DecidableEq, Repr

namespace Symbol

def ofVariable (name : Text) (address : Int) : Symbol := ⟨normalName name, .data address⟩

def ofProcedure (name : Text) (entry params paramBase : Int) : Symbol :=
  ⟨normalName name, .code entry params paramBase⟩

def isProcedure (s : Symbol) : Bool :=
  match s.meaning with
  | .code _ _ _ => true
  | .data _ => false

def kindName (s : Symbol) : String := if s.isProcedure then "procedure" else "variable"

/-- What a symbol is entered under. Its name is in normal form, and normalising it again would not
change it. -/
def key (s : Symbol) : String := if s.isProcedure then s.name ++ "(" else s.name

/-- Whether a symbol carries the mark of a global, which procedures need for other modules. -/
def isExported (s : Symbol) : Bool := isGlobalName s.name

/-- Whether a symbol outlives the procedure that it was made in. -/
def isGlobal (s : Symbol) : Bool := s.isProcedure || s.isExported

def value (s : Symbol) : Int :=
  match s.meaning with
  | .data address => address
  | .code entry _ _ => entry

def params (s : Symbol) : Int :=
  match s.meaning with
  | .data _ => 0
  | .code _ params _ => params

def paramBase (s : Symbol) : Int :=
  match s.meaning with
  | .data _ => 0
  | .code _ _ base => base

end Symbol

/-- The symbols known at a point of the assembly, under different keys. One variable, the result,
is shared by all modules. -/
structure SymbolTable where
  result : String
  entries : List Symbol := []
  deriving DecidableEq, Repr

namespace SymbolTable

def empty (resultName : Text) : SymbolTable := { result := normalName resultName }

def entry? (t : SymbolTable) (key : String) : Option Symbol := t.entries.find? (·.key == key)

def find? (t : SymbolTable) (key : Text) : Option Symbol := t.entry? (normalName key)

def variableOf? (t : SymbolTable) (name : Text) : Option Symbol :=
  (t.entry? (normalName name)).filter fun s => !s.isProcedure

def procedureOf? (t : SymbolTable) (name : Text) : Option Symbol :=
  (t.entry? (normalName name ++ "(")).filter (·.isProcedure)

def add (t : SymbolTable) (s : Symbol) : Except Fault SymbolTable :=
  match t.entry? s.key with
  | some _ => .error (.duplicate s.key)
  | none => .ok { t with entries := t.entries ++ [s] }

def dropLocals (t : SymbolTable) : SymbolTable :=
  { t with entries := t.entries.filter (·.isGlobal) }

def closeModule (t : SymbolTable) : SymbolTable :=
  { t with entries := t.entries.filter fun s => s.isProcedure || s.key == t.result }

def isShared (t : SymbolTable) (s : Symbol) : Bool :=
  if s.isProcedure then s.isExported else s.name == t.result

def keepShared (t : SymbolTable) : SymbolTable :=
  { t with entries := t.entries.filter t.isShared }

def symbols (t : SymbolTable) : List Symbol :=
  t.entries.mergeSort fun a b => !decide (b.key < a.key)

/-- The symbols that other modules see, in the order of their keys. -/
def shared (t : SymbolTable) : List Symbol := t.symbols.filter t.isShared

def render (t : SymbolTable) : Text :=
  t.symbols.flatMap fun s =>
    let head := Text.join [s.key, " ", s.kindName, " $", Text.hex 4 s.value]
    if s.isProcedure then Text.join [head, " ", Text.ofInt s.params, "\n"] else head ++ "\n"

end SymbolTable

end HighAsm
