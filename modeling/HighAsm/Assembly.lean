import HighAsm.ProcedureSource
import HighAsm.Source
import HighAsm.Statement

/-!
# Assembling modules

Modules are assembled one after the other into one program. Each may call the exported procedures
of those before it and shares the result variable with them. Within a module, global variables get
their storage first; then every procedure is assembled in turn, header and body. What was done
before a fault stays done.

Statements can be written to any code generator; a module is assembled with a `Builder`.
-/

namespace HighAsm

/-- An assembly in progress, with what its code is written to. -/
structure Assembly (γ : Type := Builder) where
  builder : γ
  table : SymbolTable
  line : Int := 1
  modules : Nat := 0
  /-- The remarks on all modules, in the order in which they were made. -/
  cautions : List Caution := []

/-- A structure whose end has not been reached, with what its end has to complete. -/
inductive OpenBlock
  | ifBlock (skip : Test) (jump : Int)
  | whileLoop (start : Int) (leave : Test) (jump : Int)
  | forLoop (head : Int)
  deriving DecidableEq, Repr

def OpenBlock.block : OpenBlock → Block
  | ifBlock _ _ => .ifBlock
  | whileLoop _ _ _ => .whileLoop
  | forLoop _ => .forLoop

namespace Assembly

/-- A step of an assembly, which may fail and keeps what it did before. -/
abbrev AsmOf (γ : Type) := EStateM Failure (Assembly γ)

abbrev Asm := AsmOf Builder

def start (settings : Settings) : Assembly :=
  { builder := { program := settings.emptyProgram }
    table := SymbolTable.empty settings.resultName }

def fail {γ α : Type} (fault : Fault) : AsmOf γ α := do throw (.fault (← get).line fault)

def check {γ α : Type} : Except Fault α → AsmOf γ α
  | .ok a => pure a
  | .error fault => fail fault

/-- The builder that an operation leads to, if it does not crash. -/
def build {γ α : Type} : Except Crash α → AsmOf γ α
  | .ok a => pure a
  | .error crash => throw (.crash crash)

def setBuilder (b : Builder) : Asm Unit := modify fun a => { a with builder := b }

def remark {γ : Type} (c : Caution) : AsmOf γ Unit :=
  modify fun a => { a with cautions := a.cautions ++ [c] }

def address : Asm Int := do return (← get).builder.address

def allocWord : Asm Int := do
  let (place, b) ← build ((← get).builder.alloc 1)
  setBuilder b
  return place

def emit (instrs : List Instr) : Asm Unit :=
  modify fun a => { a with builder := a.builder.emitAll instrs }

/-- Enters a symbol, with a line for the case that its key is taken. -/
def declare (line : Int) (s : Symbol) : Asm Unit := do
  match (← get).table.add s with
  | .ok table => modify fun a => { a with table := table }
  | .error fault => throw (.fault line fault)

def declareVariable (line : Int) (name : String) : Asm Unit := do
  let place ← allocWord
  declare line (Symbol.ofVariable name place)

def readSource (settings : Settings) (lines : List Text) : Asm (List Lexeme) := fun a =>
  match Source.read settings lines ⟨a.builder, a.cautions⟩ with
  | .ok tokens o =>
    .ok (tokens.map (·.lexeme)) { a with builder := o.builder, cautions := o.cautions }
  | .error failure o => .error failure { a with builder := o.builder, cautions := o.cautions }

/-- Gives every global variable of a module its storage, and rejects code before the first
procedure. -/
def declareGlobals (before : Option Lexeme) (inside : Bool) (line : Int) :
    List Lexeme → Asm Unit
  | [] => pure ()
  | .endOfLine :: rest => declareGlobals (some .endOfLine) inside (line + 1) rest
  | l :: rest => do
    let inside := inside || l == .keyword .proc
    if !inside && l != .mark .colon && l != .endOfFile then
      throw (.fault line (.codeOutsideProcedure l.spelling))
    match l with
    | .ident name =>
      if isGlobalName name && rest.head? != some (.mark .lparen)
          && before != some (.keyword .proc) && ((← get).table.variableOf? name).isNone then
        declareVariable line name
    | _ => pure ()
    declareGlobals (some l) inside line rest

def parameterNames : List Lexeme → Except Fault (List String)
  | [] => .error .missingParameter
  | .ident name :: rest =>
    if isGlobalName name then .error (.badParameter name)
    else
      match rest with
      | [] => .ok [name]
      | .mark .comma :: more => (parameterNames more).map (name :: ·)
      | other :: _ => .error (.missingComma other.spelling)
  | l :: _ => .error (.badParameter l.spelling)

def parseHeader (lexemes : List Lexeme) : Except Fault (String × List String) :=
  match lexemes with
  | .keyword .proc :: .ident name :: .mark .lparen :: rest =>
    if rest.getLast? = some (.mark .rparen) then
      if rest.dropLast.isEmpty then .ok (name, [])
      else (parameterNames rest.dropLast).map (name, ·)
    else .error .badHeader
  | _ => .error .badHeader

/-- Makes a variable of every parameter from a register on, and fills it from the register. The
result is the address of the first one, or zero. -/
def declareParams (line : Int) : Nat → List String → Asm Int
  | _, [] => pure 0
  | register, name :: rest => do
    let place ← allocWord
    declare line (Symbol.ofVariable name place)
    emit [.storeParam register place]
    let _ ← declareParams line (register + 1) rest
    return place

def header (settings : Settings) (lexemes : List Lexeme) : Asm Unit := do
  let (name, params) ← check (parseHeader lexemes)
  if settings.maxParams < params.length then
    fail (.tooManyParameters name params.length settings.maxParams)
  modify fun a =>
    { a with table := a.table.dropLocals, builder := a.builder.begin name params.length }
  let entry ← address
  let line := (← get).line
  let base ← declareParams line 0 params
  declare line (Symbol.ofProcedure name entry params.length base)

/-- Whether the lexeme after the target of a store makes it a store through a pointer. -/
def startsOffset (l : Lexeme) : Bool :=
  l == .mark .lbracket || l == .mark .wordAt || l == .mark .byteAt

/-- Gives every local variable that a body stores to directly its storage, so that it may be read
before the statement that assigns to it. -/
def declareLocals (settings : Settings) (line : Int) : List Lexeme → Asm Unit
  | [] => pure ()
  | .endOfLine :: rest => declareLocals settings (line + 1) rest
  | .mark .store :: rest => do
    match rest with
    | .ident name :: more =>
      if !isGlobalName name && !more.head?.any startsOffset
          && ((← get).table.variableOf? name).isNone && settings.features .implicitLocals then
        declareVariable line name
        remark (.implicitLocal line name)
    | _ => pure ()
    declareLocals settings line rest
  | _ :: rest => declareLocals settings line rest

def passArguments (register : Nat) : List Operand → List Instr
  | [] => []
  | arg :: rest => .loadParam register arg :: passArguments (register + 1) rest

/-! ## Statements -/

section Statements

variable {γ : Type} [CodeGenerator γ]

/-- Asks where the next instruction will stand. -/
def position : AsmOf γ Int := do
  let (place, generator) := CodeGenerator.address (← get).builder
  modify fun a => { a with builder := generator }
  return place

def request (r : Request) : AsmOf γ Unit := do
  let (_, generator) ← build (CodeGenerator.perform (← get).builder r)
  modify fun a => { a with builder := generator }

def write (code : List Instr) : AsmOf γ Unit := code.forM fun i => request (.emit i)

def expression (settings : Settings) (lexemes : List Lexeme) : AsmOf γ Unit := do
  let e ← check (Scope.expression ⟨settings, (← get).table⟩ lexemes)
  write e.first.code
  e.operations.forM fun o => write o.code

/-- Opens a structure that is left when a test fails. Its exit gets its target at its end. -/
def openTest (settings : Settings) (block : Block) (inner : List Lexeme)
    (opened : Int → Test → Int → OpenBlock) : AsmOf γ OpenBlock := do
  let (front, fails) ← check (Statement.test block inner)
  let start ← position
  expression settings front
  let jump ← position
  request (.emit (.jump fails 0))
  return opened start fails jump

/-- Opens a loop of a number of rounds. The index goes to a variable if there is one for it. -/
def openCount (settings : Settings) (inner : List Lexeme) : AsmOf γ OpenBlock :=
  if inner.isEmpty then fail .missingCount
  else do
    expression settings inner
    let head ← position
    request .openLoop
    if settings.features .indexVariable then
      match Scope.address? ⟨settings, (← get).table⟩ settings.indexName with
      | some index => request (.emit (.store index))
      | none => pure ()
    return .forLoop head

/-- Closes the innermost structure, which has to be of the kind that is closed. -/
def closeBlock (block : Block) (blocks : List OpenBlock) : AsmOf γ (List OpenBlock) :=
  match block, blocks with
  | .ifBlock, .ifBlock skip jump :: others => do
    request (.patch jump skip (← position))
    return others
  | .whileLoop, .whileLoop start leave jump :: others => do
    request (.emit (.jump .always start))
    request (.patch jump leave (← position))
    return others
  | .forLoop, .forLoop head :: others => do
    request (.closeLoop head)
    return others
  | _, _ => fail (.mismatch block (blocks.head?.map (·.block)))

def callProcedure (settings : Settings) (name : String) (inner : List Lexeme) : AsmOf γ Unit := do
  match (← get).table.procedureOf? name with
  | none => fail (.unknownProcedure name)
  | some callee =>
    let args ← check (Statement.arguments ⟨settings, (← get).table⟩ name 1 inner)
    if settings.maxParams < args.length then
      fail (.tooManyArguments name args.length settings.maxParams)
    else
      if (args.length : Int) ≠ callee.params then
        remark (.argCount (← get).line name callee.params args.length)
      write (passArguments 0 args)
      request (.emit (.call callee.value))

/-- Assembles the statement at the start of some lexemes. The result is what is open after it, and
how many lexemes follow its first one. -/
def compile (settings : Settings) (blocks : List OpenBlock) (first : Lexeme)
    (rest : List Lexeme) : AsmOf γ (List OpenBlock × Nat) :=
  match first with
  | .keyword .endproc => do
    request (.emit .ret)
    return (blocks, 0)
  | .keyword (.closes block) => do return (← closeBlock block blocks, 0)
  | .keyword (.opens block) => do
    let inner ← check (Statement.parenthesized first rest)
    let opened ←
      match block with
      | .ifBlock => openTest settings block inner fun _ skip jump => .ifBlock skip jump
      | .whileLoop => openTest settings block inner .whileLoop
      | .forLoop => openCount settings inner
    return (opened :: blocks, inner.length + 2)
  | _ =>
    match first, rest with
    | .ident name, .mark .lparen :: _ => do
      let inner ← check (Statement.parenthesized first rest)
      callProcedure settings name inner
      return (blocks, inner.length + 2)
    | _, _ => do
      let tail := rest.takeWhile fun l => !Statement.endsExpression l
      expression settings
        (if Statement.endsExpression first && !first.isKeyword then [] else first :: tail)
      return (blocks, tail.length)

end Statements

structure Flow where
  /-- A return outside all structures was seen. -/
  returned : Bool := false
  /-- The statement after such a return was remarked on. -/
  remarked : Bool := false
  ends : Bool := false

/-- What is known behind one more statement, with the structures that are open then. -/
def Flow.behind (flow : Flow) (first : Lexeme) (blocks : List OpenBlock) : Flow where
  returned := flow.returned || (first == .keyword .endproc && blocks.isEmpty)
  remarked := flow.returned
  ends := flow.ends || first == .keyword .endproc

/-- Assembles the lexemes of a body, after a number of them that belong to the statement before. -/
def statements (settings : Settings) : Nat → List OpenBlock → Flow → List Lexeme → Asm Unit
  | _, blocks, flow, [] => do
    match blocks with
    | top :: _ => fail (.unclosed top.block)
    | [] => if !flow.ends then remark (.missingEndproc (← get).line)
  | skip + 1, blocks, flow, _ :: rest => statements settings skip blocks flow rest
  | 0, blocks, flow, .endOfLine :: rest => do
    modify fun a => { a with line := a.line + 1 }
    statements settings 0 blocks flow rest
  | 0, blocks, flow, .mark .colon :: rest => statements settings 0 blocks flow rest
  | 0, blocks, flow, l :: rest => do
    if flow.returned && !flow.remarked then remark (.unreachable (← get).line)
    let (blocks, used) ← compile settings blocks l rest
    statements settings used blocks (flow.behind l blocks) rest

def body (settings : Settings) (lexemes : List Lexeme) : Asm Unit := do
  declareLocals settings (← get).line lexemes
  statements settings 0 [] {} lexemes

def procedures (settings : Settings) : List ProcedureSource → Asm Unit
  | [] => pure ()
  | source :: rest => do
    modify fun a => { a with line := source.line }
    header settings source.header
    body settings source.body
    procedures settings rest

def assembleModule (settings : Settings) (lines : List Text) : Asm Unit := do
  modify fun a =>
    { a with
      line := 1
      table := if a.modules = 0 then a.table else a.table.keepShared
      modules := a.modules + 1 }
  if ((← get).table.variableOf? settings.resultName).isNone then
    declareVariable 1 settings.resultName
  let lexemes ← readSource settings lines
  declareGlobals none false 1 lexemes
  procedures settings (ProcedureSource.all lexemes)
  modify fun a => { a with table := a.table.closeModule }

end Assembly

end HighAsm
