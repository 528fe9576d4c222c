import HighAsm.Proofs.Visibility

/-!
# Linking calls to procedures

In an assembled program every call goes to the entry of the one procedure of its name that can be
called there. Everything else is rejected on the way: a call of any other name, wherever the
statements of a body arrive at it (`Point.Arrives`), and a header whose name is taken.
-/

namespace HighAsm

open List Assembly

/-! ## On the way through a body -/

namespace Point

variable {settings : Settings} {p q : Point} (arrives : Arrives settings p q)
include arrives

theorem Arrives.suffix : q.lexemes <:+ p.lexemes := by
  induction arrives with
  | refl p => exact suffix_rfl
  | step first _ ih =>
    cases first with
    | skip | line | colon | statement => exact ih.trans (suffix_cons ..)

theorem Arrives.leavesCode : LeavesCode p.assembly q.assembly :=
  arrives.relates .aside .trans statement_leavesCode

end Point

/-! ## Calls of other names -/

section Calls

variable {settings : Settings} {name : String} {more inner : List Lexeme}

theorem Statement.parse_unknown (scope : Scope) (closed : parens more = .closed inner)
    (unknown : scope.table.procedureOf? name = none) :
    parse scope (.ident name) (.mark .lparen :: more) = .error (.unknownProcedure name) := by
  have read : parenthesized (.ident name) (.mark .lparen :: more) = .ok inner := by
    rw [parenthesized, closed]
  have rejected : callOf scope name inner = .error (.unknownProcedure name) := by
    rw [callOf, unknown]
  simp [parse, read, rejected, bind, Except.bind]

/-- Wherever a body calls a procedure that the table does not have, it is rejected there. -/
theorem Point.finish_unknown (settings : Settings) (blocks : List OpenBlock) (flow : Flow)
    {a : Assembly} (closed : Statement.parens more = .closed inner)
    (unknown : a.table.procedureOf? name = none) :
    ∃ left, Point.finish settings ⟨0, blocks, flow, .ident name :: .mark .lparen :: more, a⟩ =
      .error (.fault a.line (.unknownProcedure name)) left := by
  exact ⟨_, statements_unparsed_eq (by simp) (by simp)
    (Statement.parse_unknown ⟨settings, a.table⟩ closed unknown)⟩

/-- A body that calls what cannot be called there is rejected, and the whole assembly with it. -/
theorem Reaches.call_rejected {before after : List (List Text)} {lines : List Text}
    {opened : Program} {source : ProcedureSource} {a a₁ a₂ b : Assembly} {blocks : List OpenBlock}
    {flow : Flow} (reaches : Reaches settings before lines opened source a)
    (begun : header settings source.header a = .ok () a₁)
    (locals : declareLocals settings a₁.line source.body a₁ = .ok () a₂)
    (arrives : Point.Arrives settings ⟨0, [], {}, source.body, a₂⟩
      ⟨0, blocks, flow, .ident name :: .mark .lparen :: more, b⟩)
    (closed : Statement.parens more = .closed inner)
    (unknown : ∀ proc ∈ opened.visible b.builder.program, proc.name ≠ name) :
    failure? settings (before ++ lines :: after) =
      some (.fault b.line (.unknownProcedure name)) := by
  obtain ⟨linked, -, headers, bodies⟩ := reaches.linked
  have leaves := (declareLocals_leavesCode _ _ _ locals).trans arrives.leavesCode
  have linked' := (linked.header begun headers).1.leaves leaves
  have isName : IsName name := bodies _ (arrives.suffix.subset mem_cons_self)
  have missing : b.table.procedureOf? name = none := by
    rw [← Option.map_eq_none_iff (f := Symbol.procedure), linked'.procedureOf?_eq isName]
    refine find?_eq_none.mpr fun proc member same => ?_
    exact unknown proc member (beq_iff_eq.mp same)
  -- What comes of the whole body is what comes of it from the call on.
  obtain ⟨left, failed⟩ := Point.finish_unknown settings blocks flow closed missing
  have here : body settings source.body a₁ =
      .error (.fault b.line (.unknownProcedure name)) left := by
    refine step_get_bind.trans ?_
    refine (step_bind_eq_of_ok locals).trans ?_
    exact arrives.finish_eq.trans failed
  exact reaches.failed ((step_bind_eq_of_ok begun).trans here)

end Calls

/-! ## Headers of other names -/

section Headers

variable {settings : Settings} {a a' : Assembly}

/-- The result has storage, so there can be storage for any one word. -/
theorem prepare_fits {lines : List Text} {sources : List ProcedureSource}
    (ok : prepare settings lines (start settings) = .ok sources a) :
    WordFits settings.wordSize := by
  obtain ⟨a₁, a₂, lexemes, result, -, -, -⟩ := prepare_steps ok
  rcases result with ⟨-, declared⟩ | ⟨known, -⟩
  · obtain ⟨place, _, given, -⟩ := step_bind_ok_iff.mp declared
    obtain ⟨_, _, fits, -⟩ := allocWord_ok given
    exact fits
  · contradiction

theorem Reaches.fits {before : List (List Text)} {lines : List Text} {opened : Program}
    {source : ProcedureSource} (reaches : Reaches settings before lines opened source a) :
    WordFits a.builder.program.wordSize := by
  rw [reaches.linked.2.1]
  obtain ⟨assembled, -, prepared, -⟩ := reaches
  cases before with
  | nil =>
    cases assembled
    exact prepare_fits prepared
  | cons lines' others =>
    obtain ⟨_, _, first, -⟩ := step_bind_ok_iff.mp assembled
    obtain ⟨_, _, _, prepared', -, -⟩ := assembleModule_ok_iff.mp first
    exact prepare_fits prepared'

/-- Parameters are declared unless the name of one is taken. -/
theorem declareParams_total (line : Int) (register : Nat) (names : List String)
    (fits : WordFits a.builder.program.wordSize) :
    (∃ base a', declareParams line register names a = .ok base a') ∨
      ∃ name ∈ names, ∃ a', declareParams line register names a =
        .error (.fault line (.duplicate (normalName name))) a' := by
  induction names generalizing register a with
  | nil => exact .inl ⟨0, a, rfl⟩
  | cons name rest ih =>
    obtain ⟨place, a₁, given⟩ := allocWord_isOk fits
    cases added : a₁.table.add (.ofVariable name place) with
    | error fault =>
      obtain ⟨taken, -⟩ := SymbolTable.add_error added
      refine .inr ⟨name, mem_cons_self, a₁, (step_bind_eq_of_ok given).trans ?_⟩
      exact step_bind_error_iff.mpr (.inl (declare_error taken))
    | ok table =>
      let a₂ : Assembly :=
        { a₁ with
          table := table
          builder := a₁.builder.emitAll [.storeParam register place] }
      have steps : declareParams line register (name :: rest) a =
          (declareParams line (register + 1) rest >>= fun _ => pure place) a₂ := by
        refine (step_bind_eq_of_ok given).trans ?_
        refine (step_bind_eq_of_ok (declare_isOk added)).trans ?_
        exact step_bind_eq_of_ok rfl
      have fits' : WordFits a₂.builder.program.wordSize := by
        have word : a₂.builder.program.wordSize = a₁.builder.program.wordSize :=
          (emitAll_leavesCode a₁ [.storeParam register place]).wordSize
        obtain ⟨data, strings, program⟩ := (allocWord_always.of_ok given).program
        rw [word, program]
        exact fits
      rcases ih (register + 1) fits' with ⟨base, a', others⟩ | ⟨param, member, a', failed⟩
      · exact .inl ⟨place, a', steps.trans (step_bind_eq_of_ok others)⟩
      · refine .inr ⟨param, mem_cons_of_mem _ member, a', steps.trans ?_⟩
        exact step_bind_error_iff.mpr (.inl failed)

/-- A header that is well-formed begins its procedure, declares its parameters, and then itself. -/
theorem header_steps {lexemes : List Lexeme} {name : String} {names : List String}
    (parsed : parseHeader lexemes = .ok (name, names))
    (few : (names.length : Int) ≤ settings.maxParams) :
    header settings lexemes a =
      (declareParams a.line 0 names >>= fun base =>
        declare a.line (.ofProcedure name a.builder.address names.length base))
      (a.begun name names.length) := by
  refine (step_bind_eq_of_ok (check_ok_iff.mpr ⟨parsed, rfl⟩)).trans ?_
  dsimp only
  rw [if_neg (Int.not_lt.mpr few)]
  rfl

/-- A header whose name can be called already is rejected, unless it is malformed or has too many
parameters. -/
theorem header_taken {lexemes : List Lexeme} {name : String} {names : List String}
    {opened : Program} (linked : a.Linked opened) (fits : WordFits a.builder.program.wordSize)
    (parsed : parseHeader lexemes = .ok (name, names))
    (few : (names.length : Int) ≤ settings.maxParams) (isName : IsName name)
    (taken : ∃ proc ∈ opened.visible a.builder.program, proc.name = name) :
    ∃ key a', header settings lexemes a = .error (.fault a.line (.duplicate key)) a' ∧
      (key = name ++ "(" ∨ ∃ param ∈ names, key = normalName param) := by
  rw [header_steps parsed few]
  obtain ⟨base, a₁, declared⟩ | ⟨param, member, a', failed⟩ :=
    declareParams_total (a := a.begun name names.length) a.line 0 names fits
  · obtain ⟨proc, visible, named⟩ := taken
    rw [← linked.symbols] at visible
    obtain ⟨s, member, rfl⟩ := mem_map.mp visible
    -- Declaring parameters does not touch procedures, so the key is still taken.
    have symbols : a₁.table.codeSymbols = a.table.codeSymbols :=
      (declareParams_leavesCode _ _ _ declared).symbols.trans (LeavesCode.dropLocals a).symbols
    rw [← symbols] at member
    obtain ⟨entered, code⟩ := SymbolTable.mem_codeSymbols.mp member
    have old : s.key = name ++ "(" := by
      rw [Symbol.key, if_pos code, ← named]
      rfl
    have new : (Symbol.ofProcedure name a.builder.address names.length base).key = name ++ "(" := by
      change normalName name ++ "(" = _
      rw [normalName_eq_self isName]
    have found : (a₁.table.entry? (name ++ "(")).isSome :=
      find?_isSome.mpr ⟨s, entered, beq_iff_eq.mpr old⟩
    refine ⟨name ++ "(", a₁, ?_, .inl rfl⟩
    rw [step_bind_eq_of_ok declared, ← new]
    exact declare_error (by rw [new]; exact found)
  · exact ⟨_, a', step_bind_error_iff.mpr (.inl failed), .inr ⟨param, member, rfl⟩⟩

end Headers

/-! ## Programs -/

theorem mem_of_mem_calledNames {name : String} {lexemes : List Lexeme}
    (member : name ∈ calledNames lexemes) : .ident name ∈ lexemes := by
  induction lexemes with
  | nil => contradiction
  | cons l rest ih =>
    rw [calledNames] at member
    split at member
    · rcases mem_append.mp member with here | later
      · cases l with
        | ident other =>
          obtain rfl := mem_singleton.mp here
          exact mem_cons_self
        | _ => contradiction
      · exact mem_cons_of_mem _ (ih later)
    · exact mem_cons_of_mem _ (ih member)

/-- The procedures that can be called in a body. -/
def Piece.visible (piece : Piece) : List Procedure :=
  piece.opened.visible piece.bodied.builder.program

/-- What is called in a body is looked up among the procedures that can be called there. -/
theorem Piece.StandsAt.map_callee? {settings : Settings} {a : Assembly} {i : Nat} {piece : Piece}
    (stands : piece.StandsAt a i) :
    (calledNames piece.source.body).map (piece.scope settings).callee? =
      (calledNames piece.source.body).map fun name =>
        (piece.visible.find? (·.name == name)).map (·.entry) := by
  refine map_congr_left fun name member => ?_
  exact stands.linked.callee?_eq (stands.named _ (mem_of_mem_calledNames member))

/-- Every call goes to the entry of the one procedure of its name that is visible: the program lists
it up to the calling one, and it is of the same module or exported. A call of any other name is
rejected where the statements of its body arrive at it, and so is a header whose name is taken. -/
theorem calls_link_to_visible (settings : Settings) :
    (∀ modules a, assembleModules settings modules (start settings) = .ok () a →
      a.builder.program.Addressable →
      ∃ pieces routines, recordModules settings 0 modules (start settings) = .ok pieces a ∧
        a.builder.program.MadeOf routines ∧ pieces.length = routines.length ∧
        ∀ (i : Nat) (piece : Piece) (r : Routine), pieces[i]? = some piece →
          routines[i]? = some r →
          r.Reads settings piece.bodied.table piece.source ∧
          (∃ before lines after a₀, modules = before ++ lines :: after ∧
            before.length = piece.module ∧
            assembleModules settings before (start settings) = .ok () a₀ ∧
            a₀.builder.program = piece.opened) ∧
          piece.opened.procedures <+: piece.bodied.builder.program.procedures ∧
          piece.bodied.builder.program.procedures = a.builder.program.procedures.take (i + 1) ∧
          (piece.visible.map (·.name)).Nodup ∧
          ((r.code a.builder.program.codeBase (Routine.extent (routines.take i))).filterMap
              Instr.callee?).map some =
            (calledNames piece.source.body).map fun name =>
              (piece.visible.find? (·.name == name)).map (·.entry)) ∧
    (∀ before lines after opened source a a₁ a₂ b blocks flow name more inner,
      Reaches settings before lines opened source a →
      header settings source.header a = .ok () a₁ →
      declareLocals settings a₁.line source.body a₁ = .ok () a₂ →
      Point.Arrives settings ⟨0, [], {}, source.body, a₂⟩
        ⟨0, blocks, flow, .ident name :: .mark .lparen :: more, b⟩ →
      Statement.parens more = .closed inner →
      (∀ proc ∈ opened.visible b.builder.program, proc.name ≠ name) →
      failure? settings (before ++ lines :: after) =
        some (.fault b.line (.unknownProcedure name))) ∧
    ∀ before lines after opened source a name names,
      Reaches settings before lines opened source a →
      parseHeader source.header = .ok (name, names) →
      (names.length : Int) ≤ settings.maxParams →
      (∃ proc ∈ opened.visible a.builder.program, proc.name = name) →
      ∃ key, failure? settings (before ++ lines :: after) =
          some (.fault source.line (.duplicate key)) ∧
        (key = name ++ "(" ∨ ∃ param ∈ names, key = normalName param) := by
  refine ⟨fun modules a assembled addressable => ?_, ?_, ?_⟩
  · obtain ⟨pieces, routines, recorded, written, made, -⟩ :=
      assembled_pieces assembled addressable
    obtain ⟨-, extends_⟩ := recordModules_linked (.start settings) (fun _ => rfl) recorded
    refine ⟨pieces, routines, recorded, made.program, written.length, ?_⟩
    intro i piece r here there
    have stands := extends_.pieces i piece here
    have reads := written.at here there
    refine ⟨reads, ?_, stands.linked.begun, ?_, stands.linked.names_nodup, ?_⟩
    · obtain ⟨before, lines, after, a₀, split, number, began, opened⟩ :=
        recordModules_opened recorded piece (List.mem_of_getElem? here)
      exact ⟨before, lines, after, a₀, split, by rw [number, Nat.zero_add], began, opened⟩
    · rw [List.prefix_iff_eq_take.mp stands.listed, stands.length]
      exact congrArg (a.builder.program.procedures.take <| · + 1) (Nat.zero_add i)
    · rw [← stands.map_callee?]
      exact (reads.resolves _ _).2.symm
  · intro before lines after opened source a a₁ a₂ b blocks flow name more inner reaches begun
      locals arrives closed unknown
    exact reaches.call_rejected begun locals arrives closed unknown
  · intro before lines after opened source a name names reaches parsed few taken
    obtain ⟨linked, -, headers, -⟩ := reaches.linked
    have isName : IsName name := by
      rw [parseHeader_ok parsed] at headers
      exact headers (.ident name) (by simp [headerLexemes])
    obtain ⟨key, left, failed, kind⟩ := header_taken linked reaches.fits parsed few isName taken
    have line : a.line = source.line := by
      obtain ⟨-, -, -, -⟩ := reaches
      rfl
    rw [line] at failed
    exact ⟨key, reaches.failed (step_bind_error_iff.mpr (.inl failed)), kind⟩

/-- Two modules with a private procedure of one name, both of which call an exported one or each
its own. -/
def twoHelpers : List (List Text) :=
  [["proc $lib(x)", "x", "proc help()", "1"],
    ["proc help(x)", "help(x)", "proc main(x)", "$lib(x):help(x)"]]

/-- The procedures, the size of the code, and what is found for the calls of every procedure. -/
def linksSeen (pieces : List Piece) (a : Assembly) :
    List Procedure × Nat × List (List (Option Int)) :=
  (a.builder.program.procedures, a.builder.program.code.size, pieces.map fun piece =>
    (calledNames piece.source.body).map fun name =>
      (piece.visible.find? (·.name == name)).map (·.entry))

/-- What assembling `twoHelpers` leaves, and what is found for its calls. -/
theorem twoHelpers_links :
    ∃ pieces a, recordModules {} 0 twoHelpers (start {}) = .ok pieces a ∧
      a.builder.program.procedures = [⟨"$lib", 0x1000, 1⟩, ⟨"help", 0x1002, 0⟩,
        ⟨"help", 0x1003, 1⟩, ⟨"main", 0x1006, 1⟩] ∧
      a.builder.program.Addressable ∧ (linksSeen pieces a).2.2 =
        [[], [], [some 0x1003], [some 0x1000, some 0x1003]] := by
  have links : seen? {} (recordModules {} 0 twoHelpers) linksSeen =
      some ([⟨"$lib", 0x1000, 1⟩, ⟨"help", 0x1002, 0⟩, ⟨"help", 0x1003, 1⟩,
        ⟨"main", 0x1006, 1⟩], 11, [[], [], [some 0x1003], [some 0x1000, some 0x1003]]) := by
    decide +kernel
  obtain ⟨pieces, a, recorded, seen⟩ := seen?_eq_some links
  obtain ⟨procedures, seen⟩ := Prod.mk.inj seen
  obtain ⟨code, found⟩ := Prod.mk.inj seen
  have addressable : a.builder.program.Addressable := by
    rw [Program.Addressable, code]
    decide
  exact ⟨pieces, a, recorded, procedures, addressable, found⟩

/-- A body that only calls a procedure. -/
def callingBody : List Lexeme := [.endOfLine, .ident "b", .mark .lparen, .mark .rparen]

/-- A body that calls a procedure which is nowhere, and a place for it after its header. -/
theorem unknownCall_reached :
    ∃ a a₁ a₂, Reaches {} [] ["proc a()", "b()"] (start {}).builder.program
        ⟨headerLexemes "a" [], callingBody, 1⟩ a ∧
      header {} (headerLexemes "a" []) a = .ok () a₁ ∧
      declareLocals {} a₁.line callingBody a₁ = .ok () a₂ ∧
      (start {}).builder.program.visible a₂.builder.program = [⟨"a", 0x1000, 0⟩] := by
  have begins : seen? {} (do
      let sources ← prepare {} ["proc a()", "b()"]
      modify fun a => { a with line := 1 }
      header {} (headerLexemes "a" [])
      let line := (← get).line
      declareLocals {} line callingBody
      return sources) (fun sources a => (sources, a.builder.program.procedures)) =
      some ([⟨headerLexemes "a" [], callingBody, 1⟩], [⟨"a", 0x1000, 0⟩]) := by
    decide +kernel
  obtain ⟨_, _, ok, seen⟩ := seen?_eq_some begins
  obtain ⟨rfl, procedures⟩ := Prod.mk.inj seen
  obtain ⟨_, a, prepared, ok⟩ := step_bind_ok_iff.mp ok
  obtain ⟨_, _, lined, ok⟩ := step_bind_ok_iff.mp ok
  obtain rfl := step_modify_ok_iff.mp lined
  obtain ⟨_, a₁, begun, ok⟩ := step_bind_ok_iff.mp ok
  obtain ⟨_, _, got, ok⟩ := step_bind_ok_iff.mp ok
  obtain ⟨rfl, rfl⟩ := step_get_ok_iff.mp got
  obtain ⟨_, a₂, locals, ok⟩ := step_bind_ok_iff.mp ok
  obtain ⟨rfl, rfl⟩ := step_pure_ok_iff.mp ok
  have first : prepare {} ["proc a()", "b()"] (start {}) = .ok ([] ++ [_]) a := prepared
  exact ⟨_, a₁, a₂, .intro rfl rfl first rfl, begun, locals, procedures⟩

/-- A second header with the name of the first one. -/
theorem repeatedHeader_reached :
    ∃ a, Reaches {} [] ["proc a()", "proc a(x)"] (start {}).builder.program
        ⟨headerLexemes "a" ["x"], [], 2⟩ a ∧
      (start {}).builder.program.visible a.builder.program = [⟨"a", 0x1000, 0⟩] := by
  have begins : seen? {} (do
      let sources ← prepare {} ["proc a()", "proc a(x)"]
      procedures {} [⟨headerLexemes "a" [], [.endOfLine], 1⟩]
      return sources) (fun sources a => (sources, a.builder.program.procedures)) =
      some ([⟨headerLexemes "a" [], [.endOfLine], 1⟩, ⟨headerLexemes "a" ["x"], [], 2⟩],
        [⟨"a", 0x1000, 0⟩]) := by
    decide +kernel
  obtain ⟨_, _, ok, seen⟩ := seen?_eq_some begins
  obtain ⟨rfl, procedures⟩ := Prod.mk.inj seen
  obtain ⟨_, a, prepared, ok⟩ := step_bind_ok_iff.mp ok
  obtain ⟨_, a₂, done, ok⟩ := step_bind_ok_iff.mp ok
  obtain ⟨rfl, rfl⟩ := step_pure_ok_iff.mp ok
  have first : prepare {} ["proc a()", "proc a(x)"] (start {}) = .ok ([_] ++ [_]) a := prepared
  exact ⟨_, .intro rfl rfl first done, procedures⟩

theorem calls_link_to_visible_twoHelpers :
    (∃ a pieces routines r, assembleModules {} twoHelpers (start {}) = .ok () a ∧
      recordModules {} 0 twoHelpers (start {}) = .ok pieces a ∧
      a.builder.program.procedures = [⟨"$lib", 0x1000, 1⟩, ⟨"help", 0x1002, 0⟩,
        ⟨"help", 0x1003, 1⟩, ⟨"main", 0x1006, 1⟩] ∧
      a.builder.program.MadeOf routines ∧ routines[3]? = some r ∧
      ((r.code a.builder.program.codeBase (Routine.extent (routines.take 3))).filterMap
        Instr.callee?).map some = [some 0x1000, some 0x1003]) ∧
    (∃ line, failure? {} [["proc a()", "b()"]] = some (.fault line (.unknownProcedure "b"))) ∧
    ∃ key, failure? {} [["proc a()", "proc a(x)"]] = some (.fault 2 (.duplicate key)) := by
  obtain ⟨programs, calls, headers⟩ := calls_link_to_visible {}
  refine ⟨?_, ?_, ?_⟩
  · obtain ⟨pieces, a, recorded, procedures, addressable, found⟩ := twoHelpers_links
    have assembled : assembleModules {} twoHelpers (start {}) = .ok () a :=
      (assembleModules_ok_iff 0).mpr ⟨pieces, recorded⟩
    obtain ⟨pieces', routines, recorded', made, length, each⟩ :=
      programs twoHelpers a assembled addressable
    obtain ⟨rfl, -⟩ := EStateM.Result.ok.inj (recorded.symm.trans recorded')
    have four : pieces.length = 4 := by
      have := congrArg List.length found
      rwa [linksSeen, List.length_map] at this
    have here : pieces[3]? = some (pieces.get ⟨3, by omega⟩) := List.getElem?_eq_getElem _
    have there : routines[3]? = some (routines.get ⟨3, by omega⟩) := List.getElem?_eq_getElem _
    refine ⟨a, pieces, routines, _, assembled, recorded, procedures, made, there, ?_⟩
    rw [(each 3 _ _ here there).2.2.2.2.2]
    have last := congrArg (·[3]?) found
    rw [linksSeen, List.getElem?_map, here] at last
    exact Option.some.inj last
  · obtain ⟨a, a₁, a₂, reaches, begun, locals, visible⟩ := unknownCall_reached
    refine ⟨_, calls [] _ [] _ _ _ _ _ _ _ _ "b" _ [] reaches begun locals (.step .line (.refl _))
      rfl ?_⟩
    intro proc member
    change proc ∈ (start {}).builder.program.visible a₂.builder.program at member
    rw [visible] at member
    obtain rfl := List.mem_singleton.mp member
    decide
  · obtain ⟨a, reaches, visible⟩ := repeatedHeader_reached
    obtain ⟨key, failed, -⟩ := headers [] _ [] _ _ _ "a" ["x"] reaches rfl (by decide)
      ⟨⟨"a", 0x1000, 0⟩, visible ▸ List.mem_singleton_self _, rfl⟩
    exact ⟨key, failed⟩

/-- The parameters of a header are counted before its name is looked up. -/
theorem manyParameters_first :
    failure? {} [["proc a()", "proc a(p,q,r,s,t)"]] =
      some (.fault 2 (.tooManyParameters "a" 5 4)) := by
  decide +kernel

end HighAsm
