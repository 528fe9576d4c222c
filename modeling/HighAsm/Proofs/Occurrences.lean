import HighAsm.Proofs.Layout

/-!
# Where names occur

A name in front of a parenthesis is called, and any other one is a variable. Reading lexemes from
left to right, `variableNames` and `calledNames` gather both without parsing anything. The code of a
procedure works on the addresses that these variables have in its scope, and calls the entries that
these procedures have there, in the same order (`Routine.Reads.resolves`).
-/

namespace HighAsm

open List Lexeme Opening

/-- The name that a lexeme is. -/
def Lexeme.name? : Lexeme → Option String
  | .ident name => some name
  | _ => none

/-- The names of variables, in order. A counted loop also uses a variable for its index, behind the
number of its rounds. -/
def variableNames (index : Option String) : Bool → List Lexeme → List String
  | _, [] => []
  | _, .keyword (.opens .forLoop) :: rest => variableNames index true rest
  | true, .mark .rparen :: rest => index.toList ++ variableNames index false rest
  | counting, l :: rest =>
    if rest.head? = some (.mark .lparen) then variableNames index counting rest
    else l.name?.toList ++ variableNames index counting rest

/-- The names of called procedures, in order. -/
def calledNames : List Lexeme → List String
  | [] => []
  | l :: rest =>
    if rest.head? = some (.mark .lparen) then l.name?.toList ++ calledNames rest
    else calledNames rest

/-- The address of the variable that an operand is. -/
def Operand.place? : Operand → Option Int
  | .const _ => none
  | .var address => some address

/-- The address of the variable that an instruction works on. -/
def Instr.place? : Instr → Option Int
  | .load operand | .binary _ operand | .loadParam _ operand => operand.place?
  | .store address | .storeParam _ address => some address
  | _ => none

/-- The entry that an instruction calls. -/
def Instr.callee? : Instr → Option Int
  | call entry => some entry
  | _ => none

namespace Scope

/-- The entry of a procedure. -/
def callee? (scope : Scope) (name : String) : Option Int :=
  (scope.table.procedureOf? name).map (·.value)

/-- The variable for the index of counted loops, if there is one. -/
def indexName? (scope : Scope) : Option String :=
  if scope.settings.features .indexVariable then
    (scope.address? scope.settings.indexName).map fun _ => scope.settings.indexName
  else none

/-- The index goes to the variable that is named for it. -/
theorem map_indexName? {scope : Scope} {index : Option Int}
    (indexed : ∀ place, index = some place ↔ scope.settings.features .indexVariable = true ∧
      scope.address? scope.settings.indexName = some place) :
    scope.indexName?.toList.map scope.address? = index.toList.map some := by
  rw [indexName?]
  cases index with
  | none =>
    split
    · next on =>
      have unknown : scope.address? scope.settings.indexName = none := by
        apply Option.eq_none_iff_forall_ne_some.mpr
        intro place known
        exact absurd ((indexed place).mpr ⟨on, known⟩) (by simp)
      rw [unknown]
      rfl
    · rfl
  | some place =>
    obtain ⟨on, known⟩ := (indexed place).mp rfl
    rw [if_pos on, known]
    simp [known]

end Scope

/-! ## Lexemes without parentheses -/

/-- A lexeme is neither a parenthesis nor a reserved word. -/
def Lexeme.Inner : Lexeme → Prop
  | .mark .lparen | .mark .rparen | .keyword _ => False
  | _ => True

section Inner

variable {index : Option String} {counting : Bool} {inner rest : List Lexeme}

theorem head?_inner (free : ∀ l ∈ inner, l.Inner) (ends : rest.head? ≠ some (.mark .lparen)) :
    (inner ++ rest).head? ≠ some (.mark .lparen) := by
  cases inner with
  | nil => exact ends
  | cons l _ =>
    rintro ⟨⟩
    exact free _ mem_cons_self

theorem variableNames_cons {l : Lexeme} (free : l.Inner)
    (ends : rest.head? ≠ some (.mark .lparen)) :
    variableNames index counting (l :: rest) =
      l.name?.toList ++ variableNames index counting rest := by
  rw [variableNames]
  · rw [if_neg ends]
  · rintro rfl
    exact free
  · rintro - rfl
    exact free

variable (free : ∀ l ∈ inner, l.Inner) (ends : rest.head? ≠ some (.mark .lparen))
include free ends

theorem variableNames_inner :
    variableNames index counting (inner ++ rest) =
      inner.filterMap name? ++ variableNames index counting rest := by
  induction inner with
  | nil => rfl
  | cons l more ih =>
    obtain ⟨first, others⟩ := forall_mem_cons.mp free
    rw [cons_append, variableNames_cons first (head?_inner others ends), ih others,
      filterMap_cons]
    cases l.name? <;> rfl

theorem calledNames_inner : calledNames (inner ++ rest) = calledNames rest := by
  induction inner with
  | nil => rfl
  | cons l more ih =>
    obtain ⟨-, others⟩ := forall_mem_cons.mp free
    rw [cons_append, calledNames, if_neg (head?_inner others ends), ih others]

end Inner

/-! ## Expressions and arguments -/

namespace Scope

variable {scope : Scope} {lexemes : List Lexeme}

/-- Lexemes without parentheses have the variables of some code. -/
structure Uses (scope : Scope) (lexemes : List Lexeme) (code : List Instr) : Prop where
  inner : ∀ l ∈ lexemes, l.Inner
  names : (lexemes.filterMap name?).map scope.address? =
    (code.filterMap Instr.place?).map some
  calls : code.filterMap Instr.callee? = []

theorem Uses.append {first second : List Lexeme} {code more : List Instr}
    (early : scope.Uses first code) (late : scope.Uses second more) :
    scope.Uses (first ++ second) (code ++ more) where
  inner := forall_mem_append.mpr ⟨early.inner, late.inner⟩
  names := by simp only [filterMap_append, map_append, early.names, late.names]
  calls := by rw [filterMap_append, early.calls, late.calls, append_nil]

theorem Uses.mark (m : Mark) (inner : (mark m).Inner) : scope.Uses [.mark m] [] where
  inner := forall_mem_singleton.mpr inner
  names := rfl
  calls := rfl

theorem Uses.named {name : String} {address : Int} (known : scope.address? name = some address)
    {i : Instr} (works : i.place? = some address) (calls : i.callee? = none) :
    scope.Uses [.ident name] [i] where
  inner := forall_mem_singleton.mpr trivial
  names := by simp [name?, known, works]
  calls := by simp [calls]

theorem SpellsOperand.uses {l : Lexeme} {operand : Operand}
    (spelled : scope.SpellsOperand l operand) {i : Instr} (works : i.place? = operand.place?)
    (calls : i.callee? = none) : scope.Uses [l] [i] := by
  cases spelled with
  | number n =>
    refine ⟨forall_mem_singleton.mpr trivial, ?_, by simp [calls]⟩
    simp [name?, works, Operand.place?]
  | named known => exact .named known works calls

theorem SpellsIndexed.uses {base : Int} {offset : Operand} {width : Width}
    (spelled : scope.SpellsIndexed lexemes base offset width) :
    scope.Uses lexemes [.load (.var base), .binary .add offset] := by
  have first {name : String} (known : scope.address? name = some base) :
      scope.Uses [.ident name] [.load (.var base)] := .named known rfl rfl
  cases spelled with
  | bracketed known offset _ =>
    have opened := (first known).append (.mark .lbracket trivial)
    exact (opened.append (offset.uses rfl rfl)).append (.mark .rbracket trivial)
  | word known offset _ =>
    exact ((first known).append (.mark .wordAt trivial)).append (offset.uses rfl rfl)
  | byte known offset _ =>
    exact ((first known).append (.mark .byteAt trivial)).append (offset.uses rfl rfl)

theorem SpellsTerm.uses {t : Term} (spelled : scope.SpellsTerm lexemes t) :
    scope.Uses lexemes t.code := by
  cases spelled with
  | simple operand => exact operand.uses rfl rfl
  | indexed place =>
    obtain ⟨inner, names, -⟩ := place.uses
    exact ⟨inner, names, rfl⟩

theorem SpellsOperation.uses {o : Operation} (spelled : scope.SpellsOperation lexemes o) :
    scope.Uses lexemes o.code := by
  cases spelled with
  | @combine op m l right named operand =>
    have inner : (mark m).Inner := by
      cases op <;> cases named <;> trivial
    exact (Uses.mark m inner).append (operand.uses rfl rfl)
  | store known => exact (Uses.mark .store trivial).append (.named known rfl rfl)
  | storeIndexed place =>
    obtain ⟨inner, names, -⟩ := (Uses.mark .store trivial).append place.uses
    exact ⟨inner, names, rfl⟩

theorem SpellsOperations.uses {operations : List Operation}
    (spelled : scope.SpellsOperations lexemes operations) :
    scope.Uses lexemes (operations.flatMap Operation.code) := by
  induction spelled with
  | nil => exact ⟨by simp, rfl, rfl⟩
  | cons first _ ih => exact first.uses.append ih

/-- The code of an expression works on the variables that its lexemes name. -/
theorem Spells.uses {e : Expression} (spelled : scope.Spells lexemes e) :
    scope.Uses lexemes e.code := by
  obtain ⟨first, rest, rfl, term, operations⟩ := spelled
  exact term.uses.append operations.uses

theorem SpellsArguments.uses {args : List Operand} (spelled : scope.SpellsArguments lexemes args)
    (register : Nat) :
    scope.Uses lexemes (Assembly.passArguments register args) := by
  induction spelled generalizing register with
  | none => exact ⟨by simp, rfl, rfl⟩
  | last operand => exact operand.uses rfl rfl
  | more operand _ _ ih =>
    have first := operand.uses (i := .loadParam register _) rfl rfl
    exact (first.append (.mark .comma trivial)).append (ih (register + 1))

end Scope

/-! ## Statements -/

namespace Statement

variable {scope : Scope} {lexemes rest : List Lexeme} {code : List Instr} {inner : List Lexeme}

/-- The instructions of a statement that neither jump nor count. -/
def plainCode : Statement → List Instr
  | ret => [.ret]
  | eval e => e.code
  | call _ entry _ args => Assembly.passArguments 0 args ++ [.call entry]
  | openIf e _ | openWhile e _ => e.code
  | openFor count index => count.code ++ index.toList.map .store
  | close _ => []

/-- What lexemes and the code of a statement have in common, whatever lexemes follow. -/
structure Matches (scope : Scope) (lexemes rest : List Lexeme) (code : List Instr) : Prop where
  names : ∃ names, variableNames scope.indexName? false (lexemes ++ rest) =
      names ++ variableNames scope.indexName? false rest ∧
    names.map scope.address? = (code.filterMap Instr.place?).map some
  calls : ∃ names, calledNames (lexemes ++ rest) = names ++ calledNames rest ∧
    names.map scope.callee? = (code.filterMap Instr.callee?).map some

theorem Matches.of_uses (uses : scope.Uses lexemes code)
    (ends : rest.head? ≠ some (.mark .lparen)) : Matches scope lexemes rest code where
  names := ⟨_, variableNames_inner uses.inner ends, uses.names⟩
  calls := ⟨[], calledNames_inner uses.inner ends, by rw [uses.calls]; rfl⟩

theorem Matches.of_parens {block : Block} {more : List Instr}
    (uses : scope.Uses inner code)
    (index : (if block = .forLoop then scope.indexName?.toList else []).map scope.address? =
      (more.filterMap Instr.place?).map some)
    (calls : more.filterMap Instr.callee? = []) :
    Matches scope (.keyword (.opens block) :: .mark .lparen :: (inner ++ [.mark .rparen])) rest
      (code ++ more) := by
  have closing : (mark .rparen :: rest).head? ≠ some (.mark .lparen) := by simp
  constructor
  · refine ⟨inner.filterMap name? ++
      if block = .forLoop then scope.indexName?.toList else [], ?_, ?_⟩
    · rw [cons_append, cons_append, append_assoc, singleton_append]
      cases block with
      | ifBlock | whileLoop =>
        simp [variableNames, variableNames_inner uses.inner closing, name?]
      | forLoop => simp [variableNames, variableNames_inner uses.inner closing, name?]
    · rw [map_append, uses.names, index, filterMap_append, map_append]
  · refine ⟨[], ?_, by rw [filterMap_append, uses.calls, calls]; rfl⟩
    simp [calledNames, calledNames_inner uses.inner closing, name?]

theorem Matches.of_test {block : Block} (test : block ≠ .forLoop) {e : Expression} (r : Relation)
    (spelled : scope.Spells inner e) :
    Matches scope (.keyword (.opens block) :: .mark .lparen ::
      (inner ++ [.mark r.mark, .number 0] ++ [.mark .rparen])) rest e.code := by
  have zero : scope.Uses [.mark r.mark, .number 0] [] := by
    refine ⟨?_, rfl, rfl⟩
    cases r <;> simp [Relation.mark, Lexeme.Inner]
  have uses : scope.Uses (inner ++ [.mark r.mark, .number 0]) e.code := by
    simpa using spelled.uses.append zero
  have nothing : (if block = .forLoop then scope.indexName?.toList else []).map scope.address? =
      (([] : List Instr).filterMap Instr.place?).map some := by
    rw [if_neg test]
    rfl
  simpa using Matches.of_parens uses nothing rfl

theorem Matches.of_call {name : String} {callee : Symbol} {args : List Operand}
    (known : scope.table.procedureOf? name = some callee)
    (uses : scope.Uses inner (Assembly.passArguments 0 args)) :
    Matches scope (.ident name :: .mark .lparen :: (inner ++ [.mark .rparen])) rest
      (Assembly.passArguments 0 args ++ [.call callee.value]) := by
  have closing : (mark .rparen :: rest).head? ≠ some (.mark .lparen) := by simp
  constructor
  · refine ⟨inner.filterMap name?, ?_, ?_⟩
    · rw [cons_append, cons_append, append_assoc, singleton_append]
      simp [variableNames, variableNames_inner uses.inner closing, name?]
    · rw [uses.names, filterMap_append]
      simp [Instr.place?]
  · refine ⟨[name], ?_, ?_⟩
    · rw [cons_append, cons_append, append_assoc, singleton_append]
      simp [calledNames, calledNames_inner uses.inner closing, name?]
    · rw [filterMap_append, uses.calls]
      simp [Scope.callee?, known, Instr.callee?]

theorem Matches.of_keyword {word : Keyword} (other : ∀ block, word ≠ .opens block)
    (plain : code.filterMap Instr.place? = []) (calls : code.filterMap Instr.callee? = []) :
    Matches scope [.keyword word] rest code := by
  constructor
  · refine ⟨[], ?_, by rw [plain]; rfl⟩
    rw [singleton_append, variableNames]
    · simp [name?]
    · rintro ⟨⟩
      exact other _ rfl
    · rintro - ⟨⟩
  · refine ⟨[], ?_, by rw [calls]; rfl⟩
    simp [calledNames, name?]

/-- A statement uses the variables and calls the procedures that its lexemes name. -/
theorem Spelled.matches {s : Statement} (spelled : Spelled scope lexemes s)
    (ends : s.EndsBefore rest) : Matches scope lexemes rest s.plainCode := by
  cases spelled with
  | ret | close block => exact .of_keyword (by simp) rfl rfl
  | eval spelled =>
    -- An expression is read as far as it goes, and no parenthesis is among what can end it.
    apply Matches.of_uses spelled.uses
    intro lparen
    have stops := ends _ lparen
    contradiction
  | call known spelled _ => exact .of_call known (spelled.uses 0)
  | openIf r spelled | openWhile r spelled => exact .of_test (by decide) r spelled
  | @openFor _ _ index spelled indexed =>
    apply Matches.of_parens spelled.uses
    · rw [if_pos rfl, Scope.map_indexName? indexed]
      cases index <;> rfl
    · cases index <;> rfl

end Statement

/-- Code works on the variables and calls the procedures that lexemes name. -/
structure Scope.Resolves (scope : Scope) (lexemes : List Lexeme) (code : List Instr) : Prop where
  names : (variableNames scope.indexName? false lexemes).map scope.address? =
    (code.filterMap Instr.place?).map some
  calls : (calledNames lexemes).map scope.callee? = (code.filterMap Instr.callee?).map some

theorem Statement.SpelledAll.resolves {scope : Scope} {lexemes : List Lexeme}
    {read : List Statement} (spelled : SpelledAll scope lexemes read) :
    scope.Resolves lexemes (read.flatMap plainCode) := by
  induction spelled with
  | nil => exact ⟨rfl, rfl⟩
  | line _ ih | colon _ ih =>
    constructor
    · simpa [variableNames, name?] using ih.names
    · simpa [calledNames, name?] using ih.calls
  | cons first ends _ ih =>
    obtain ⟨⟨names, here, meanings⟩, called, there, entries⟩ := first.matches ends
    rw [flatMap_cons]
    constructor
    · rw [here, map_append, meanings, ih.names, filterMap_append, map_append]
    · rw [there, map_append, entries, ih.calls, filterMap_append, map_append]

/-! ## Routines -/

/-- What a selection of instructions finds in a text, it finds in the statements. -/
theorem Nest.filterMap_code {α : Type} {pick : Instr → Option α}
    (jump : ∀ test target, pick (.jump test target) = none)
    (head : ∀ leave, pick (.loopHead leave) = none) (index : pick .loopIndex = none)
    (next : ∀ body, pick (.loopNext body) = none) (base : Int) (position : Nat) (n : Nest) :
    (n.code base position).filterMap pick =
      (n.statements.flatMap Statement.plainCode).filterMap pick := by
  -- Jumps and loop instructions are not picked, so only the code of the statements remains.
  have enter (leave : Int) (o : Opening) :
      (o.enter leave).filterMap pick = o.statement.plainCode.filterMap pick := by
    cases o with
    | ifBlock e r | whileLoop e r =>
      simp [enter, expression, exit, roundStart,
        statement, Statement.plainCode, jump]
    | forLoop count _ =>
      simp [enter, expression, exit, roundStart,
        statement, Statement.plainCode, head, index]
  have back (start : Nat) (o : Opening) : (o.back base start).filterMap pick = [] := by
    cases o <;> simp [back, jump, next]
  induction n generalizing position with
  | nil => rfl
  | step s rest ih =>
    have own : s.statement.plainCode = s.code := by cases s <;> rfl
    simp only [Nest.code, Nest.statements, flatMap_cons, filterMap_append, ih, own]
  | block o body rest ihBody ihRest =>
    simp [Nest.code, Nest.statements, enter, back, ihBody, ihRest, Statement.plainCode]

theorem variableNames_header (index : Option String) (name : String) (params : List String)
    (body : List Lexeme) :
    variableNames index false (headerLexemes name params ++ body) =
      params ++ variableNames index false body := by
  have between : (∀ l ∈ (params.map ident).intersperse (.mark .comma), l.Inner) ∧
      ((params.map ident).intersperse (.mark .comma)).filterMap name? = params := by
    induction params with
    | nil => simp
    | cons first rest ih =>
      cases rest with
      | nil => simp [Lexeme.Inner, name?]
      | cons second more =>
        obtain ⟨inner, names⟩ := ih
        refine ⟨?_, congrArg (first :: ·) names⟩
        exact forall_mem_cons.mpr ⟨trivial, forall_mem_cons.mpr ⟨trivial, inner⟩⟩
  obtain ⟨inner, names⟩ := between
  have closing : (mark .rparen :: body).head? ≠ some (.mark .lparen) := by simp
  rw [headerLexemes, cons_append, cons_append, cons_append, append_assoc,
    singleton_append]
  simp [variableNames, variableNames_inner inner closing, names, name?]

theorem filterMap_storeParams (register : Nat) (places : List Int) :
    (storeParams register places).filterMap Instr.place? = places ∧
      (storeParams register places).filterMap Instr.callee? = [] := by
  induction places generalizing register with
  | nil => exact ⟨rfl, rfl⟩
  | cons place rest ih =>
    obtain ⟨later, calls⟩ := ih (register + 1)
    exact ⟨congrArg (place :: ·) later, calls⟩

/-- The code of a routine works on the variables and calls the procedures that its source names. -/
theorem Routine.Reads.resolves {settings : Settings} {table : SymbolTable}
    {source : ProcedureSource} {r : Routine} (reads : r.Reads settings table source) (base : Int)
    (position : Nat) :
    (variableNames (Scope.mk settings table).indexName? false (source.header ++ source.body)).map
        (Scope.mk settings table).address? =
      ((r.code base position).filterMap Instr.place?).map some ∧
    (calledNames source.body).map (Scope.mk settings table).callee? =
      ((r.code base position).filterMap Instr.callee?).map some := by
  obtain ⟨names, header, places⟩ := reads.header
  obtain ⟨read, -, spelled, whole⟩ := reads.body
  have text := (whole r.body).mpr rfl
  have resolves := spelled.resolves
  rw [← text] at resolves
  obtain ⟨stored, quiet⟩ := filterMap_storeParams 0 r.places
  constructor
  · rw [header, variableNames_header, map_append, places, resolves.names, Routine.code,
      filterMap_append, stored,
      Nest.filterMap_code (fun _ _ => rfl) (fun _ => rfl) rfl (fun _ => rfl), map_append]
  · rw [resolves.calls, Routine.code, filterMap_append, quiet,
      Nest.filterMap_code (fun _ _ => rfl) (fun _ => rfl) rfl (fun _ => rfl), nil_append]

end HighAsm
