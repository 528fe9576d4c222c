import HighAsm.Proofs.Backpatching

/-!
# The layout of a program

An assembled program is a row of routines, one for each procedure in the order of the source. The
code of a routine stores its parameters in their variables and goes on with the code of its text.
`Program.MadeOf` says this of a finished program; `WritesModules` says which source each routine
was read from, and what its names meant there. `recordModules` assembles modules and keeps a `Piece`
for every procedure: where it stands, and the state in which its statements were assembled, with all
names declared.
-/

namespace HighAsm

open List Assembly

/-- The instructions that store parameter registers from one on. -/
def storeParams (register : Nat) : List Int → List Instr
  | [] => []
  | place :: rest => .storeParam register place :: storeParams (register + 1) rest

@[simp] theorem length_storeParams (register : Nat) (places : List Int) :
    (storeParams register places).length = places.length := by
  induction places generalizing register with
  | nil => rfl
  | cons place rest ih => simp only [storeParams, length_cons, ih]

/-- A procedure as it is laid out: its name, the variables of its parameters, and its text. -/
structure Routine where
  name : String
  places : List Int
  body : Nest
  deriving DecidableEq, Repr

namespace Routine

/-- The number of instructions of a routine. -/
def size (r : Routine) : Nat := r.places.length + r.body.size

/-- The code of a routine that begins at a position. -/
def code (base : Int) (position : Nat) (r : Routine) : List Instr :=
  storeParams 0 r.places ++ r.body.code base (position + r.places.length)

/-- The procedure that a routine is for the rest of the program. -/
def procedure (base : Int) (position : Nat) (r : Routine) : Procedure :=
  ⟨r.name, codeAddress base position, r.places.length⟩

/-- The number of instructions of routines. -/
def extent : List Routine → Nat
  | [] => 0
  | r :: rest => r.size + extent rest

/-- The code of routines, one behind the other. -/
def layout (base : Int) (position : Nat) : List Routine → List Instr
  | [] => []
  | r :: rest => r.code base position ++ layout base (position + r.size) rest

/-- The procedures that routines are. -/
def procedures (base : Int) (position : Nat) : List Routine → List Procedure
  | [] => []
  | r :: rest => r.procedure base position :: procedures base (position + r.size) rest

/-- There are registers for the parameters, and every statement is sound. -/
structure Sound (limit : Int) (known : Procedure → Prop) (r : Routine) : Prop where
  params : (r.places.length : Int) ≤ limit
  statements : ∀ s ∈ r.body.statements, s.Sound limit known

theorem Sound.mono {limit : Int} {known more : Procedure → Prop} {r : Routine}
    (sound : r.Sound limit known) (grown : ∀ callee, known callee → more callee) :
    r.Sound limit more :=
  ⟨sound.params, fun s inside => (sound.statements s inside).mono grown⟩

@[simp] theorem length_code (base : Int) (position : Nat) (r : Routine) :
    (r.code base position).length = r.size := by
  simp only [code, size, length_append, length_storeParams, Nest.length_code]

@[simp] theorem length_layout (base : Int) (position : Nat) (routines : List Routine) :
    (layout base position routines).length = extent routines := by
  induction routines generalizing position with
  | nil => rfl
  | cons r rest ih => simp only [layout, extent, length_append, length_code, ih]

@[simp] theorem extent_append (first second : List Routine) :
    extent (first ++ second) = extent first + extent second := by
  induction first with
  | nil => simp only [nil_append, extent, Nat.zero_add]
  | cons r rest ih => simp only [cons_append, extent, ih, Nat.add_assoc]

variable (base : Int) (position : Nat) (first : List Routine) (second : List Routine)

theorem layout_append :
    layout base position (first ++ second) =
      layout base position first ++ layout base (position + extent first) second := by
  induction first generalizing position with
  | nil => simp only [nil_append, layout, extent, Nat.add_zero]
  | cons r rest ih =>
    simp only [cons_append, layout, extent, ih, append_assoc, Nat.add_assoc]

theorem procedures_append :
    procedures base position (first ++ second) =
      procedures base position first ++ procedures base (position + extent first) second := by
  induction first generalizing position with
  | nil => simp only [nil_append, procedures, extent, Nat.add_zero]
  | cons r rest ih => simp only [cons_append, procedures, extent, ih, Nat.add_assoc]

end Routine

/-- A procedure of the program begins at an address. -/
def Program.IsEntry (p : Program) (entry : Int) : Prop := ∃ proc ∈ p.procedures, proc.entry = entry

/-- The program has a procedure with the given normal form of its name, entry and number of
parameters. -/
def Program.Offers (p : Program) (callee : Procedure) : Prop :=
  ∃ proc ∈ p.procedures, callee = { proc with name := normalName proc.name }

theorem Program.Offers.append {p p' : Program} {callee : Procedure} (offered : p.Offers callee)
    {more : List Procedure} (grown : p'.procedures = p.procedures ++ more) : p'.Offers callee := by
  obtain ⟨proc, member, same⟩ := offered
  exact ⟨proc, grown ▸ mem_append_left _ member, same⟩

theorem Program.Offers.isEntry {p : Program} {callee : Procedure} (offered : p.Offers callee) :
    p.IsEntry callee.entry := by
  obtain ⟨proc, member, rfl⟩ := offered
  exact ⟨proc, member, rfl⟩

/-- The program consists of routines, which are sound and call only each other. -/
structure Program.MadeOf (p : Program) (routines : List Routine) : Prop where
  code : p.code.toList = Routine.layout p.codeBase 0 routines
  procedures : p.procedures = Routine.procedures p.codeBase 0 routines
  sound : ∀ r ∈ routines, r.Sound p.maxParams p.Offers

/-- What has been assembled between two procedures consists of routines, and every procedure that
the table knows is one of them. -/
structure Assembly.MadeOf (settings : Settings) (routines : List Routine) (a : Assembly) :
    Prop where
  program : a.builder.program.MadeOf routines
  limit : a.builder.program.maxParams = settings.maxParams
  linked : ∀ callee, a.table.Knows callee → a.builder.program.Offers callee

/-! ## Headers -/

section Header

variable {settings : Settings} {line base : Int} {a a' : Assembly} {names : List String}
  {lexemes : List Lexeme}

/-- Every parameter gets a variable of its name and an instruction that fills it. -/
theorem declareParams_ok (settings : Settings) {register : Nat}
    (ok : declareParams line register names a = .ok base a') :
    ∃ places symbols data strings,
      a'.builder.program = { a.builder.program with data := data, strings := strings }.withCode
        (a.builder.program.code.toList ++ storeParams register places) ∧
      a'.table.entries = a.table.entries ++ symbols ∧
      (∀ s ∈ symbols, s.isProcedure = false) ∧
      names.map (Scope.mk settings a'.table).address? = places.map some := by
  induction names generalizing register base a with
  | nil =>
    obtain ⟨-, rfl⟩ := step_pure_ok_iff.mp ok
    refine ⟨[], [], a.builder.program.data, a.builder.program.strings, ?_, by simp, by simp, rfl⟩
    rw [storeParams, append_nil]
    exact (Program.withCode_toList a.builder.program).symm
  | cons name rest ih =>
    obtain ⟨a₁, a₂, _, given, entered, others⟩ := declareParams_cons_ok ok
    obtain ⟨declares, meaning⟩ := allocated_ok given entered
    obtain ⟨data, strings, program⟩ := declares.program
    obtain ⟨one, entries, isVariable⟩ := declares.table
    obtain ⟨places, symbols, data', strings', program', entries', areVariables, meanings⟩ :=
      ih others
    refine ⟨base :: places, one ++ symbols, data', strings', ?_, ?_, ?_, ?_⟩
    · rw [program', Builder.emitAll_program, program]
      simp [storeParams, Program.withCode]
    · rw [entries', entries, append_assoc]
    · intro s member
      rcases mem_append.mp member with early | late
      · exact isVariable s early
      · exact areVariables s late
    · rw [map_cons, map_cons, meanings, Scope.address?,
        SymbolTable.variableOf?_append meaning entries']
      rfl

/-- The names of variables keep their meaning when symbols are entered behind them. -/
theorem addresses_append {t t' : SymbolTable} {more : List Symbol} {places : List Int}
    (known : names.map (Scope.mk settings t).address? = places.map some)
    (entries : t'.entries = t.entries ++ more) :
    names.map (Scope.mk settings t').address? = places.map some := by
  rw [← known]
  refine map_congr_left fun name member => ?_
  obtain ⟨place, -, found⟩ := mem_map.mp (known ▸ mem_map_of_mem member)
  obtain ⟨s, meaning, -⟩ := Option.map_eq_some_iff.mp found.symm
  rw [Scope.address?, Scope.address?, SymbolTable.variableOf?_append meaning entries, meaning]

/-- How the header of a procedure is written. -/
def headerLexemes (name : String) (params : List String) : List Lexeme :=
  .keyword .proc :: .ident name :: .mark .lparen ::
    ((params.map .ident).intersperse (.mark .comma) ++ [.mark .rparen])

theorem parameterNames_ok (accepted : parameterNames lexemes = .ok names) :
    lexemes = (names.map Lexeme.ident).intersperse (.mark .comma) ∧ names ≠ [] := by
  fun_induction parameterNames lexemes generalizing names with
  | case1 => contradiction
  | case2 => contradiction
  | case3 name local_ =>
    cases accepted
    exact ⟨rfl, by simp⟩
  | case4 name local_ more ih =>
    obtain ⟨others, read, rfl⟩ := map_ok_iff.mp accepted
    obtain ⟨rfl, some_⟩ := ih read
    cases others with
    | nil => contradiction
    | cons next rest => exact ⟨rfl, by simp⟩
  | case5 => contradiction
  | case6 => contradiction

theorem parseHeader_ok {name : String} (accepted : parseHeader lexemes = .ok (name, names)) :
    lexemes = headerLexemes name names := by
  unfold parseHeader at accepted
  split at accepted
  · next name' rest =>
    split at accepted
    · next closed =>
      obtain ⟨inner, rfl⟩ := getLast?_eq_some_iff.mp closed
      rw [dropLast_concat] at accepted
      split at accepted
      · next empty =>
        cases accepted
        rw [isEmpty_iff.mp empty]
        rfl
      · obtain ⟨found, read, same⟩ := map_ok_iff.mp accepted
        cases same
        rw [headerLexemes, ← (parameterNames_ok read).1]
    · contradiction
  · contradiction

/-- The header of a procedure has been assembled. -/
structure Begins (settings : Settings) (lexemes : List Lexeme) (name : String) (places : List Int)
    (a a' : Assembly) : Prop where
  header : ∃ names, lexemes = headerLexemes name names ∧
    names.map (Scope.mk settings a'.table).address? = places.map some
  params : (places.length : Int) ≤ settings.maxParams
  program : ∃ data strings, a'.builder.program =
    { a.builder.program with
      data := data
      strings := strings
      procedures := a.builder.program.procedures ++
        [Procedure.mk name a.builder.address places.length] }.withCode
      (a.builder.program.code.toList ++ storeParams 0 places)
  linked : ∀ callee, a'.table.Knows callee →
    a.table.Knows callee ∨ callee = ⟨normalName name, a.builder.address, places.length⟩
  others : ∀ s ∈ a.table.entries, s.isProcedure → s.name ≠ normalName name ∧ s ∈ a'.table.entries
  entered : ∃ s ∈ a'.table.entries, s.isProcedure ∧ s.name = normalName name

/-- The state in which the parameters of a procedure are declared. -/
def Assembly.begun (a : Assembly) (name : String) (params : Nat) : Assembly :=
  { a with table := a.table.dropLocals, builder := a.builder.begin name params }

theorem header_ok (ok : header settings lexemes a = .ok () a') :
    ∃ name names base a₁ table, parseHeader lexemes = .ok (name, names) ∧
      (names.length : Int) ≤ settings.maxParams ∧
      declareParams a.line 0 names (a.begun name names.length) = .ok base a₁ ∧
      a₁.table.add (Symbol.ofProcedure name a.builder.address names.length base) = .ok table ∧
      a' = { a₁ with table := table } := by
  obtain ⟨⟨name, names⟩, _, parsed, ok⟩ := step_bind_ok_iff.mp ok
  obtain ⟨accepted, rfl⟩ := check_ok_iff.mp parsed
  dsimp only at ok
  split at ok
  · obtain ⟨_, _, failed, -⟩ := step_bind_ok_iff.mp ok
    exact absurd failed fail_ne_ok
  · next few =>
    obtain ⟨_, a₁, begun, ok⟩ := step_bind_ok_iff.mp ok
    obtain rfl := step_modify_ok_iff.mp begun
    obtain ⟨entry, _, addressed, ok⟩ := step_bind_ok_iff.mp ok
    cases addressed
    replace ok := step_get_ok ok
    obtain ⟨base, a₂, declared, ok⟩ := step_bind_ok_iff.mp ok
    obtain ⟨table, added, rfl⟩ := declare_ok ok
    exact ⟨name, names, base, a₂, table, accepted, Int.not_lt.mp few, declared, added, rfl⟩

/-- A header begins a procedure at the current address, stores its parameters and enters it. -/
theorem header_begins (ok : header settings lexemes a = .ok () a') :
    ∃ name places, Begins settings lexemes name places a a' := by
  obtain ⟨name, names, base, a₂, table, accepted, few, declared, added, rfl⟩ := header_ok ok
  obtain ⟨places, symbols, data, strings, program, entries, areVariables, meanings⟩ :=
    declareParams_ok settings declared
  obtain ⟨free, rfl⟩ := SymbolTable.add_ok added
  have count : names.length = places.length := by
    simpa using congrArg List.length meanings
  have written := parseHeader_ok accepted
  refine ⟨name, places, ⟨names, written, addresses_append meanings rfl⟩, by omega, ?_, ?_, ?_, ?_⟩
  · refine ⟨data, strings, ?_⟩
    rw [program, count]
    rfl
  · rintro callee ⟨s, member, procedure, rfl⟩
    simp only [entries] at member
    rcases mem_append.mp member with early | late
    · rcases mem_append.mp early with kept | declared
      · exact .inl ⟨s, (mem_filter.mp kept).1, procedure, rfl⟩
      · exact absurd procedure (by simp [areVariables s declared])
    · obtain rfl := mem_singleton.mp late
      rw [← count]
      exact .inr rfl
  · intro s member procedure
    have global : s.isGlobal := by simp [Symbol.isGlobal, procedure]
    have kept : s ∈ a₂.table.entries := by
      rw [entries]
      exact mem_append_left _ (mem_filter.mpr ⟨member, global⟩)
    refine ⟨?_, mem_append_left _ kept⟩
    intro same
    have key : s.key = normalName name ++ "(" := by rw [Symbol.key, if_pos procedure, same]
    exact find?_eq_none.mp free s kept (beq_iff_eq.mpr key)
  · exact ⟨_, mem_append_right _ mem_cons_self, rfl, rfl⟩

end Header

/-! ## Procedures -/

/-- A routine is what the source of a procedure says when its names mean what a table says. Its
text is the only one with the statements that the body is spelled with. -/
structure Routine.Reads (settings : Settings) (table : SymbolTable) (source : ProcedureSource)
    (r : Routine) : Prop where
  header : ∃ names, source.header = headerLexemes r.name names ∧
    names.map (Scope.mk settings table).address? = r.places.map some
  body : ∃ read, Statement.sequence ⟨settings, table⟩ 0 source.body = .ok read ∧
    Statement.SpelledAll ⟨settings, table⟩ source.body read ∧
    ∀ n : Nest, n.statements = read ↔ n = r.body

/-- Assembling procedures leads from one state to another and writes routines. -/
inductive Writes (settings : Settings) :
    List ProcedureSource → Assembly → List Routine → Assembly → Prop
  | nil (a : Assembly) : Writes settings [] a [] a
  | cons {source : ProcedureSource} {rest : List ProcedureSource} {a a₁ a₂ a₃ a' : Assembly}
      {r : Routine} {routines : List Routine}
      (header : header settings source.header { a with line := source.line } = .ok () a₁)
      (locals : declareLocals settings a₁.line source.body a₁ = .ok () a₂)
      (reads : r.Reads settings a₂.table source)
      (body : statements settings 0 [] {} source.body a₂ = .ok () a₃)
      (others : Writes settings rest a₃ routines a') :
      Writes settings (source :: rest) a (r :: routines) a'

/-- What the code of a routine has been added to consists of one more routine. -/
theorem routine_added {settings : Settings} {source : ProcedureSource} {routines : List Routine}
    {a a₁ a₂ a₃ : Assembly} (made : a.MadeOf settings routines)
    (begun : header settings source.header { a with line := source.line } = .ok () a₁)
    (locals : declareLocals settings a₁.line source.body a₁ = .ok () a₂)
    (body : statements settings 0 [] {} source.body a₂ = .ok () a₃)
    (addressable : a₃.builder.program.Addressable) :
    ∃ r : Routine, r.Reads settings a₂.table source ∧ a₃.MadeOf settings (routines ++ [r]) := by
  obtain ⟨name, places, begins⟩ := header_begins begun
  have declares := declareLocals_declares _ _ _ locals
  have follows := statements_follows body
  obtain ⟨names, accepted, meanings⟩ := begins.header
  obtain ⟨data, strings, program⟩ := begins.program
  obtain ⟨data', strings', program'⟩ := declares.program
  obtain ⟨symbols, entries, -⟩ := declares.table
  obtain ⟨read, n, sequence, whole, code⟩ := statements_nest body addressable
  have final := follows.program
  rw [program', program] at final
  have base : a₃.builder.program.codeBase = a.builder.program.codeBase := by rw [final]; rfl
  have grown : a₃.builder.program.procedures = a.builder.program.procedures ++
      [⟨name, a.builder.address, places.length⟩] := by rw [final]; rfl
  have limit : a₃.builder.program.maxParams = settings.maxParams := by
    rw [final]
    exact made.limit
  have before : a₂.builder.program.code.toList =
      a.builder.program.code.toList ++ storeParams 0 places := by
    simp [program', program]
  have size : a.builder.program.code.size = Routine.extent routines := by
    rw [size_of_toList made.program.code, Routine.length_layout]
  -- What a body may call is what the table knew before, and the procedure itself.
  have linked : ∀ callee, a₂.table.Knows callee → a₃.builder.program.Offers callee := by
    rintro callee ⟨s, member, procedure, same⟩
    rcases begins.linked callee ⟨s, declares.procedure_mem member procedure, procedure, same⟩ with
      known | own
    · exact (made.linked callee known).append grown
    · refine ⟨⟨name, a.builder.address, places.length⟩, ?_, own⟩
      rw [grown]
      exact mem_append_right _ mem_cons_self
  have heads := addresses_append meanings entries
  have spelled := Statement.sequence_spelled sequence
  refine ⟨⟨name, places, n⟩, ⟨⟨names, accepted, heads⟩, read, sequence, spelled, ?_⟩, ⟨?_, ?_, ?_⟩,
    limit, ?_⟩
  · intro other
    rw [← whole]
    exact ⟨Nest.statements_inj, fun same => same ▸ rfl⟩
  · rw [code, ← Array.length_toList, before, made.program.code, base, Routine.layout_append]
    simp [Routine.layout, Routine.code]
  · rw [grown, made.program.procedures, base, Routine.procedures_append, Builder.address,
      Program.codeEnd_eq, size]
    simp [Routine.procedures, Routine.procedure]
  · intro r member
    rcases mem_append.mp member with early | late
    · rw [limit, ← made.limit]
      exact (made.program.sound r early).mono fun callee offered => offered.append grown
    · obtain rfl := mem_singleton.mp late
      rw [limit]
      exact ⟨begins.params, fun s inside => (spelled.sound s (whole ▸ inside)).mono linked⟩
  · rw [follows.table]
    exact linked

/-- The code has not become shorter. -/
def Longer (a a' : Assembly) : Prop := a.builder.program.code.size ≤ a'.builder.program.code.size

theorem Longer.refl (a : Assembly) : Longer a a := Nat.le_refl _

theorem Longer.trans {a a' a'' : Assembly} (first : Longer a a') (second : Longer a' a'') :
    Longer a a'' :=
  Nat.le_trans first second

theorem Declares.longer {a a' : Assembly} (declares : Declares a a') : Longer a a' := by
  obtain ⟨data, strings, program⟩ := declares.program
  apply Nat.le_of_eq
  rw [program]

theorem header_longer (ok : header settings lexemes a = .ok () a') : Longer a a' := by
  obtain ⟨name, places, begins⟩ := header_begins ok
  obtain ⟨data, strings, program⟩ := begins.program
  rw [Longer, program]
  simp

/-! ## Modules -/

namespace Assembly

variable {lines : List Text} {sources : List ProcedureSource}

/-- What is done for a module before its procedures, which are returned. -/
def prepare (settings : Settings) (lines : List Text) : Asm (List ProcedureSource) := do
  modify fun a =>
    { a with
      line := 1
      table := if a.modules = 0 then a.table else a.table.keepShared
      modules := a.modules + 1 }
  if ((← get).table.variableOf? settings.resultName).isNone then
    declareVariable 1 settings.resultName
  let lexemes ← readSource settings lines
  declareGlobals none false 1 lexemes
  return ProcedureSource.all lexemes

theorem assembleModule_eq (settings : Settings) (lines : List Text) :
    assembleModule settings lines = (do
      let sources ← prepare settings lines
      procedures settings sources
      modify fun a => { a with table := a.table.closeModule }) := by
  simp only [assembleModule, prepare, bind_assoc]
  congr 1
  funext _
  congr 1
  funext a
  split
  · simp only [bind_assoc, pure_bind]
  · simp only [bind_assoc, pure_bind]

theorem assembleModule_ok_iff {settings : Settings} {a a' : Assembly} :
    assembleModule settings lines a = .ok () a' ↔
      ∃ sources a₁ a₂, prepare settings lines a = .ok sources a₁ ∧
        procedures settings sources a₁ = .ok () a₂ ∧
        a' = { a₂ with table := a₂.table.closeModule } := by
  rw [assembleModule_eq]
  constructor
  · intro ok
    obtain ⟨sources, a₁, prepared, ok⟩ := step_bind_ok_iff.mp ok
    obtain ⟨_, a₂, assembled, closed⟩ := step_bind_ok_iff.mp ok
    obtain rfl := step_modify_ok_iff.mp closed
    exact ⟨sources, a₁, a₂, prepared, assembled, rfl⟩
  · rintro ⟨sources, a₁, a₂, prepared, assembled, rfl⟩
    refine step_bind_ok_iff.mpr ⟨sources, a₁, prepared, ?_⟩
    exact step_bind_ok_iff.mpr ⟨(), a₂, assembled, rfl⟩

/-- Assembles modules in order. -/
def assembleModules (settings : Settings) : List (List Text) → Asm Unit
  | [] => pure ()
  | lines :: rest => do
    assembleModule settings lines
    assembleModules settings rest

variable {settings : Settings} {routines : List Routine} {a a' : Assembly}

theorem MadeOf.declares (made : a.MadeOf settings routines) (declares : Declares a a') :
    a'.MadeOf settings routines := by
  obtain ⟨data, strings, program⟩ := declares.program
  have offers : a'.builder.program.Offers = a.builder.program.Offers := by rw [program]; rfl
  refine ⟨⟨?_, ?_, ?_⟩, ?_, ?_⟩
  · rw [program]
    exact made.program.code
  · rw [program]
    exact made.program.procedures
  · rw [offers, program]
    exact made.program.sound
  · rw [program]
    exact made.limit
  · rintro callee ⟨s, member, procedure, same⟩
    rw [offers]
    exact made.linked callee ⟨s, declares.procedure_mem member procedure, procedure, same⟩

theorem MadeOf.narrowed (made : a.MadeOf settings routines) (builder : a'.builder = a.builder)
    (table : ∀ s ∈ a'.table.entries, s ∈ a.table.entries) : a'.MadeOf settings routines := by
  refine ⟨builder ▸ made.program, builder ▸ made.limit, ?_⟩
  rintro callee ⟨s, member, procedure, same⟩
  rw [builder]
  exact made.linked callee ⟨s, table s member, procedure, same⟩

/-- The state in which a module begins: only what other modules share is left of their names. -/
def enterModule (a : Assembly) : Assembly :=
  { a with
    line := 1
    table := if a.modules = 0 then a.table else a.table.keepShared
    modules := a.modules + 1 }

theorem prepare_steps (ok : prepare settings lines a = .ok sources a') :
    ∃ a₁ a₂ lexemes,
      ((a.enterModule.table.variableOf? settings.resultName = none ∧
          declareVariable 1 settings.resultName a.enterModule = .ok () a₁) ∨
        (a.enterModule.table.variableOf? settings.resultName).isSome ∧ a₁ = a.enterModule) ∧
      readSource settings lines a₁ = .ok lexemes a₂ ∧
      declareGlobals none false 1 lexemes a₂ = .ok () a' ∧
      sources = ProcedureSource.all lexemes := by
  obtain ⟨_, b, begun, ok⟩ := step_bind_ok_iff.mp ok
  obtain rfl : a.enterModule = b := step_modify_ok_iff.mp begun
  replace ok := step_get_ok ok
  have after {b : Assembly} (ok : (do
      let lexemes ← readSource settings lines
      declareGlobals none false 1 lexemes
      return ProcedureSource.all lexemes : Asm (List ProcedureSource)) b = .ok sources a') :
      ∃ a₂ lexemes, readSource settings lines b = .ok lexemes a₂ ∧
        declareGlobals none false 1 lexemes a₂ = .ok () a' ∧
        sources = ProcedureSource.all lexemes := by
    obtain ⟨lexemes, a₂, read, ok⟩ := step_bind_ok_iff.mp ok
    obtain ⟨_, _, globals, ok⟩ := step_bind_ok_iff.mp ok
    cases ok
    exact ⟨a₂, lexemes, read, globals, rfl⟩
  split at ok
  · next missing =>
    obtain ⟨_, a₁, declared, ok⟩ := step_bind_ok_iff.mp ok
    obtain ⟨a₂, lexemes, steps⟩ := after ok
    exact ⟨a₁, a₂, lexemes, .inl ⟨Option.isNone_iff_eq_none.mp missing, declared⟩, steps⟩
  · next known =>
    obtain ⟨a₂, lexemes, steps⟩ := after ok
    exact ⟨_, a₂, lexemes, .inr ⟨by simpa [Option.isSome_iff_ne_none] using known, rfl⟩, steps⟩

/-- What entering a variable, a fault and reading have, everything before the procedures of a module
has, from the state on in which it begins. -/
theorem prepare_composed {P : ∀ {α : Type}, Asm α → Prop} (steps : Composes P)
    (variable_ : ∀ line name, P (declareVariable line name))
    (fault_ : ∀ line fault, P (throw (.fault line fault) : Asm PUnit))
    (read_ : P (readSource settings lines)) :
    ∃ x : Asm (List ProcedureSource), P x ∧ ∀ a, prepare settings lines a = x a.enterModule := by
  have sources : P (do
      let lexemes ← readSource settings lines
      declareGlobals none false 1 lexemes
      return ProcedureSource.all lexemes) := by
    refine steps.bind read_ fun lexemes => ?_
    exact steps.bind (declareGlobals_composed steps variable_ fault_ _ _ _ _) fun _ => steps.pure _
  have known : P (do
      if ((← get).table.variableOf? settings.resultName).isNone then
        declareVariable 1 settings.resultName
      let lexemes ← readSource settings lines
      declareGlobals none false 1 lexemes
      return ProcedureSource.all lexemes) := by
    refine steps.bind steps.get fun b => iteInduction (fun _ => ?_) fun _ => sources
    exact steps.bind (variable_ _ _) fun _ => sources
  exact ⟨_, known, fun _ => rfl⟩

theorem prepare_keeps {R : Assembly → Assembly → Prop} (refl : ∀ a, R a a)
    (trans : ∀ {a b c}, R a b → R b c → R a c)
    (variable_ : ∀ line name, Keeps R (declareVariable line name))
    (read_ : Keeps R (readSource settings lines)) (ok : prepare settings lines a = .ok sources a') :
    R a.enterModule a' := by
  obtain ⟨x, keeps, same⟩ :=
    prepare_composed (Keeps.composes refl trans) variable_ (fun _ _ => .throw _) read_
  exact keeps ((same a).symm.trans ok)

/-- Everything before the procedures of a module leaves the routines alone. -/
theorem prepare_ok (ok : prepare settings lines a = .ok sources a') :
    ∃ a₁, a₁.builder = a.builder ∧ (a₁.table = a.table ∨ a₁.table = a.table.keepShared) ∧
      Declares a₁ a' := by
  have declares := prepare_keeps .refl .trans declareVariable_declares (readSource_declares _ _) ok
  refine ⟨a.enterModule, rfl, ?_, declares⟩
  unfold enterModule
  split
  · exact .inl rfl
  · exact .inr rfl

theorem prepare_longer (ok : prepare settings lines a = .ok sources a') : Longer a a' := by
  obtain ⟨a₁, builder, -, declares⟩ := prepare_ok ok
  have longer := declares.longer
  rwa [Longer, builder] at longer

theorem MadeOf.prepared (made : a.MadeOf settings routines)
    (ok : prepare settings lines a = .ok sources a') :
    a'.MadeOf settings routines := by
  obtain ⟨a₁, builder, table, declares⟩ := prepare_ok ok
  refine (made.narrowed builder ?_).declares declares
  intro s member
  rcases table with same | shared
  · exact same ▸ member
  · rw [shared] at member
    exact (mem_filter.mp member).1

end Assembly

/-! ## One piece for each procedure -/

/-- A procedure on its way through an assembly. -/
structure Piece where
  /-- The number of its module. -/
  module : Nat
  source : ProcedureSource
  /-- The program when its module began. -/
  opened : Program
  /-- The assembly when its statements began. -/
  bodied : Assembly

/-- What the names of a procedure mean. -/
def Piece.scope (settings : Settings) (piece : Piece) : Scope := ⟨settings, piece.bodied.table⟩

namespace Assembly

/-- Assembles procedures in order and keeps a piece for each. -/
def recordProcedures (settings : Settings) (module : Nat) (opened : Program) :
    List ProcedureSource → Asm (List Piece)
  | [] => pure []
  | source :: rest => do
    modify fun a => { a with line := source.line }
    header settings source.header
    declareLocals settings (← get).line source.body
    let bodied ← get
    statements settings 0 [] {} source.body
    let more ← recordProcedures settings module opened rest
    return ⟨module, source, opened, bodied⟩ :: more

/-- Assembles modules in order, the first of which has a number, and keeps a piece for every
procedure. -/
def recordModules (settings : Settings) (module : Nat) : List (List Text) → Asm (List Piece)
  | [] => pure []
  | lines :: rest => do
    let opened := (← get).builder.program
    let sources ← prepare settings lines
    let own ← recordProcedures settings module opened sources
    modify fun a => { a with table := a.table.closeModule }
    let others ← recordModules settings (module + 1) rest
    return own ++ others

/-! ## Keeping pieces changes nothing -/

theorem recordProcedures_eq (settings : Settings) (module : Nat) (opened : Program)
    (sources : List ProcedureSource) :
    (do let _ ← recordProcedures settings module opened sources) = procedures settings sources := by
  induction sources with
  | nil => rfl
  | cons source rest ih =>
    rw [procedures, ← ih]
    simp only [recordProcedures, body, bind_assoc, pure_bind]
    rfl

theorem recordModules_eq (settings : Settings) (module : Nat) (modules : List (List Text)) :
    (do let _ ← recordModules settings module modules) = assembleModules settings modules := by
  induction modules generalizing module with
  | nil => rfl
  | cons lines rest ih =>
    have own (opened : Program) (sources : List ProcedureSource) (next : Asm Unit) :
        (do let _ ← recordProcedures settings module opened sources; next) =
          (do procedures settings sources; next) := by
      rw [← recordProcedures_eq settings module opened]
      simp only [bind_assoc, pure_bind]
    rw [assembleModules, ← ih (module + 1), assembleModule_eq]
    simp only [recordModules, bind_assoc, pure_bind, own]
    rfl

section Inversion

variable {settings : Settings} {modules : List (List Text)} {a a' : Assembly}

theorem procedures_ok_iff {sources : List ProcedureSource} (module : Nat) (opened : Program) :
    procedures settings sources a = .ok () a' ↔
      ∃ pieces, recordProcedures settings module opened sources a = .ok pieces a' := by
  rw [← recordProcedures_eq settings module opened, step_discard_ok_iff]

theorem assembleModules_ok_iff (module : Nat) :
    assembleModules settings modules a = .ok () a' ↔
      ∃ pieces, recordModules settings module modules a = .ok pieces a' := by
  rw [← recordModules_eq settings module, step_discard_ok_iff]

variable {module : Nat} {opened : Program} {pieces : List Piece}

theorem recordProcedures_cons_ok {source : ProcedureSource} {rest : List ProcedureSource}
    (ok : recordProcedures settings module opened (source :: rest) a = .ok pieces a') :
    ∃ a₁ a₂ a₃ more,
      header settings source.header { a with line := source.line } = .ok () a₁ ∧
      declareLocals settings a₁.line source.body a₁ = .ok () a₂ ∧
      statements settings 0 [] {} source.body a₂ = .ok () a₃ ∧
      recordProcedures settings module opened rest a₃ = .ok more a' ∧
      pieces = ⟨module, source, opened, a₂⟩ :: more := by
  replace ok := step_modify_ok ok
  obtain ⟨_, a₁, begun, ok⟩ := step_bind_ok_iff.mp ok
  replace ok := step_get_ok ok
  obtain ⟨_, a₂, locals, ok⟩ := step_bind_ok_iff.mp ok
  replace ok := step_get_ok ok
  obtain ⟨_, a₃, body, ok⟩ := step_bind_ok_iff.mp ok
  obtain ⟨more, _, others, ok⟩ := step_bind_ok_iff.mp ok
  cases ok
  exact ⟨a₁, a₂, a₃, more, begun, locals, body, others, rfl⟩

theorem recordModules_cons_ok {lines : List Text} {rest : List (List Text)}
    (ok : recordModules settings module (lines :: rest) a = .ok pieces a') :
    ∃ sources a₁ a₂ own others, prepare settings lines a = .ok sources a₁ ∧
      recordProcedures settings module a.builder.program sources a₁ = .ok own a₂ ∧
      recordModules settings (module + 1) rest { a₂ with table := a₂.table.closeModule } =
        .ok others a' ∧ pieces = own ++ others := by
  replace ok := step_get_ok ok
  obtain ⟨sources, a₁, prepared, ok⟩ := step_bind_ok_iff.mp ok
  obtain ⟨own, a₂, recorded, ok⟩ := step_bind_ok_iff.mp ok
  replace ok := step_modify_ok ok
  obtain ⟨others, _, later, ok⟩ := step_bind_ok_iff.mp ok
  cases ok
  exact ⟨sources, a₁, a₂, own, others, prepared, recorded, later, rfl⟩

end Inversion

end Assembly

/-! ## Routines of modules -/

/-- Assembling modules leads from one state to another and writes routines. -/
inductive WritesModules (settings : Settings) :
    List (List Text) → Assembly → List Routine → Assembly → Prop
  | nil (a : Assembly) : WritesModules settings [] a [] a
  | cons {lines : List Text} {rest : List (List Text)} {sources : List ProcedureSource}
      {a a₁ a₂ a' : Assembly} {routines others : List Routine}
      (prepared : prepare settings lines a = .ok sources a₁)
      (written : Writes settings sources a₁ routines a₂)
      (later : WritesModules settings rest { a₂ with table := a₂.table.closeModule } others a') :
      WritesModules settings (lines :: rest) a (routines ++ others) a'

section Writing

variable {settings : Settings} {module : Nat} {routines : List Routine} {pieces : List Piece}
  {modules : List (List Text)} {a a' : Assembly}

/-- Routines are written from pieces, one from each. -/
structure WrittenFrom (settings : Settings) (pieces : List Piece) (routines : List Routine) :
    Prop where
  length : pieces.length = routines.length
  reads : ∀ pair ∈ pieces.zip routines,
    pair.2.Reads settings pair.1.bodied.table pair.1.source

theorem WrittenFrom.append {more : List Piece} {others : List Routine}
    (first : WrittenFrom settings pieces routines) (second : WrittenFrom settings more others) :
    WrittenFrom settings (pieces ++ more) (routines ++ others) where
  length := by rw [length_append, length_append, first.length, second.length]
  reads := by
    rw [zip_append first.length]
    exact forall_mem_append.mpr ⟨first.reads, second.reads⟩

theorem WrittenFrom.at {i : Nat} {piece : Piece} {r : Routine}
    (written : WrittenFrom settings pieces routines) (here : pieces[i]? = some piece)
    (there : routines[i]? = some r) : r.Reads settings piece.bodied.table piece.source :=
  written.reads (piece, r) (mem_of_getElem? (getElem?_zip_eq_some.mpr ⟨here, there⟩))

theorem recordProcedures_write {opened : Program} {sources : List ProcedureSource}
    (ok : recordProcedures settings module opened sources a = .ok pieces a') :
    Longer a a' ∧ ∀ {routines}, a.MadeOf settings routines → a'.builder.program.Addressable →
      ∃ own, WrittenFrom settings pieces own ∧ a'.MadeOf settings (routines ++ own) ∧
        Writes settings sources a own a' := by
  induction sources generalizing a pieces with
  | nil =>
    cases ok
    exact ⟨.refl _, fun made _ => ⟨[], ⟨rfl, by simp⟩, by simpa using made, .nil _⟩⟩
  | cons source rest ih =>
    obtain ⟨a₁, a₂, a₃, more, begun, locals, body, others, rfl⟩ := recordProcedures_cons_ok ok
    obtain ⟨later, writes⟩ := ih others
    have longer : Longer a a₂ :=
      (header_longer begun).trans (declareLocals_declares _ _ _ locals).longer
    refine ⟨longer.trans (.trans (statements_follows body).longer later),
      fun made addressable => ?_⟩
    obtain ⟨r, reads, made₃⟩ :=
      routine_added made begun locals body (Nat.lt_of_le_of_lt later addressable)
    obtain ⟨own, written, made', writes'⟩ := writes made₃ addressable
    have first : WrittenFrom settings [⟨module, source, opened, a₂⟩] [r] :=
      ⟨rfl, forall_mem_singleton.mpr reads⟩
    exact ⟨[r] ++ own, first.append written, by simpa using made',
      .cons begun locals reads body writes'⟩

/-- The program consists of the routines that are written from the pieces. -/
theorem recordModules_write (ok : recordModules settings module modules a = .ok pieces a') :
    Longer a a' ∧ ∀ {routines}, a.MadeOf settings routines → a'.builder.program.Addressable →
      ∃ own, WrittenFrom settings pieces own ∧ a'.MadeOf settings (routines ++ own) ∧
        WritesModules settings modules a own a' := by
  induction modules generalizing a module pieces with
  | nil =>
    cases ok
    exact ⟨.refl _, fun made _ => ⟨[], ⟨rfl, by simp⟩, by simpa using made, .nil _⟩⟩
  | cons lines rest ih =>
    obtain ⟨sources, a₁, a₂, own, others, prepared, recorded, later, rfl⟩ :=
      recordModules_cons_ok ok
    obtain ⟨longer₂, writes⟩ := recordProcedures_write recorded
    obtain ⟨longer, writes'⟩ := ih later
    refine ⟨(prepare_longer prepared).trans (longer₂.trans longer), ?_⟩
    intro routines made addressable
    obtain ⟨first, written, made₂, writes⟩ :=
      writes (made.prepared prepared) (Nat.lt_of_le_of_lt longer addressable)
    have closed : MadeOf settings (routines ++ first)
        { a₂ with table := a₂.table.closeModule } :=
      made₂.narrowed rfl fun s member => (mem_filter.mp member).1
    obtain ⟨more, written', made', writes'⟩ := writes' closed addressable
    exact ⟨first ++ more, written.append written', by simpa using made',
      .cons prepared writes writes'⟩

end Writing

theorem start_madeOf (settings : Settings) : (start settings).MadeOf settings [] := by
  refine ⟨⟨rfl, rfl, by simp⟩, rfl, ?_⟩
  rintro callee ⟨s, member, -⟩
  exact absurd member (by simp [start, SymbolTable.empty])

/-- A program consists of the routines that are written from the pieces of its modules. -/
theorem assembled_pieces {settings : Settings} {modules : List (List Text)} {a : Assembly}
    (ok : assembleModules settings modules (start settings) = .ok () a)
    (addressable : a.builder.program.Addressable) :
    ∃ pieces routines, recordModules settings 0 modules (start settings) = .ok pieces a ∧
      WrittenFrom settings pieces routines ∧ a.MadeOf settings routines ∧
      WritesModules settings modules (start settings) routines a := by
  obtain ⟨pieces, recorded⟩ := (assembleModules_ok_iff 0).mp ok
  obtain ⟨routines, written⟩ :=
    (recordModules_write recorded).2 (start_madeOf settings) addressable
  exact ⟨pieces, routines, recorded, written⟩

/-- The program that modules are assembled to, one after the other, unless there is a fault. -/
def Assembly.program? (settings : Settings) (modules : List (List Text)) : Option Program :=
  match assembleModules settings modules (start settings) with
  | .ok _ a => some a.builder.program
  | .error _ _ => none

/-- What the assembly of modules fails with, if it does. -/
def Assembly.failure? (settings : Settings) (modules : List (List Text)) : Option Failure :=
  match assembleModules settings modules (start settings) with
  | .ok _ _ => none
  | .error failure _ => some failure

/-- Routines are what the source of a program says. -/
def Written (settings : Settings) (modules : List (List Text)) (routines : List Routine)
    (p : Program) : Prop :=
  ∃ a, WritesModules settings modules (start settings) routines a ∧ a.builder.program = p

/-- A program that is assembled consists of the routines of its source. -/
theorem assembled_madeOf {settings : Settings} {modules : List (List Text)} {p : Program}
    (assembled : program? settings modules = some p) (addressable : p.Addressable) :
    ∃ routines, Written settings modules routines p ∧ p.MadeOf routines := by
  unfold program? at assembled
  split at assembled
  · next a ok =>
    cases assembled
    obtain ⟨_, routines, -, -, made, writes⟩ := assembled_pieces ok addressable
    exact ⟨routines, ⟨a, writes, rfl⟩, made.program⟩
  · contradiction

end HighAsm
