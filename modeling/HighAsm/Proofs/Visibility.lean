import HighAsm.Proofs.DirectStores

/-!
# Procedures that can be called

The program lists every procedure that was begun, and the table knows some of them: those of the
current module, and the exported ones of the modules before it. `Assembly.Linked` says that the
procedures of the table are exactly these, in the order of the program. It holds at every point of
an assembly, so what a call finds can be read off the list of the program.
-/

namespace HighAsm

open List Assembly SymbolTable

variable {sources : List ProcedureSource} {lexemes : List Lexeme}

/-- The procedures of a program that can be called in a module which began with another one: those
that were exported before, and all since. -/
def Program.visible (opened p : Program) : List Procedure :=
  opened.procedures.filter (isGlobalName ·.name) ++ p.procedures.drop opened.procedures.length

theorem Program.visible_self (p : Program) :
    p.visible p = p.procedures.filter (isGlobalName ·.name) := by
  rw [visible, drop_length, append_nil]

/-! ## Steps that leave procedures alone -/

/-- Neither the procedures of the program nor those of the table have changed. -/
structure LeavesCode (a a' : Assembly) : Prop where
  procedures : a'.builder.program.procedures = a.builder.program.procedures
  symbols : a'.table.codeSymbols = a.table.codeSymbols
  distinct : a.table.Distinct → a'.table.Distinct
  wordSize : a'.builder.program.wordSize = a.builder.program.wordSize
  modules : a'.modules = a.modules

namespace LeavesCode

variable {a a' a'' : Assembly}

theorem trans (first : LeavesCode a a') (second : LeavesCode a' a'') : LeavesCode a a'' where
  procedures := second.procedures.trans first.procedures
  symbols := second.symbols.trans first.symbols
  distinct := second.distinct ∘ first.distinct
  wordSize := second.wordSize.trans first.wordSize
  modules := second.modules.trans first.modules

/-- Symbols are removed, but no procedures. -/
theorem narrowed {keep : Symbol → Bool}
    (code : ∀ s : Symbol, s.isProcedure = true → keep s = true) :
    LeavesCode a
      { a with table := { a.table with entries := a.table.entries.filter keep } } where
  procedures := rfl
  symbols := by
    rw [codeSymbols, filter_filter]
    refine filter_congr fun s _ => ?_
    cases isCode : s.isProcedure with
    | false => rfl
    | true => rw [code s isCode, Bool.and_self]
  distinct distinct := distinct.narrowed filter_sublist
  wordSize := rfl
  modules := rfl

variable (a : Assembly)

theorem aside (line : Int) (cautions : List Caution) :
    LeavesCode a { a with line := line, cautions := cautions } := ⟨rfl, rfl, id, rfl, rfl⟩

theorem refl : LeavesCode a a := aside a a.line a.cautions

theorem closeModule : LeavesCode a { a with table := a.table.closeModule } :=
  narrowed fun s code => by simp [code]

theorem dropLocals : LeavesCode a { a with table := a.table.dropLocals } :=
  narrowed fun s code => by simp [Symbol.isGlobal, code]

end LeavesCode

section Steps

variable {settings : Settings} {line : Int} {a a' : Assembly}

theorem declareVariable_leavesCode (line : Int) (name : String) :
    Keeps LeavesCode (declareVariable line name) := by
  intro a _ a' ok
  obtain ⟨place, a₁, given, entered⟩ := step_bind_ok_iff.mp ok
  obtain ⟨b, data, -, -, program, rfl⟩ := allocWord_ok given
  obtain ⟨table, added, rfl⟩ := declare_ok entered
  refine ⟨by rw [program], ?_, fun distinct => distinct.add added, by rw [program], rfl⟩
  obtain ⟨-, rfl⟩ := add_ok added
  simp [codeSymbols, Symbol.ofVariable, Symbol.isProcedure]

theorem declareLocals_leavesCode (settings : Settings) (line : Int) (lexemes : List Lexeme) :
    Keeps LeavesCode (declareLocals settings line lexemes) :=
  declareLocals_composed (Keeps.composes .refl .trans) declareVariable_leavesCode
    (fun _ _ => .modify fun a => .aside a a.line _) settings line lexemes

theorem readSource_leavesCode (settings : Settings) (lines : List Text) :
    Keeps LeavesCode (readSource settings lines) := by
  intro a lexemes a' ok
  obtain ⟨data, strings, program⟩ := (readSource_declares settings lines ok).program
  obtain ⟨tokens, o, -, rfl⟩ := readSource_ok ok
  exact ⟨by rw [program], rfl, id, by rw [program], rfl⟩

theorem emitAll_leavesCode (a : Assembly) (code : List Instr) :
    LeavesCode a { a with builder := a.builder.emitAll code } := by
  have written := a.builder.emitAll_program code
  exact ⟨by rw [written]; rfl, rfl, id, by rw [written]; rfl, rfl⟩

theorem declareParams_leavesCode (line : Int) (register : Nat) (names : List String) :
    Keeps LeavesCode (declareParams line register names) :=
  declareParams_keeps .refl .trans declareVariable_leavesCode (fun a i => emitAll_leavesCode a [i])
    line register names

theorem Follows.leavesCode (follows : Follows a a') (modules : a'.modules = a.modules) :
    LeavesCode a a' where
  procedures := by rw [follows.program]; rfl
  symbols := by rw [follows.table]
  distinct := by rw [follows.table]; exact id
  wordSize := by rw [follows.program]; rfl
  modules := modules

theorem statement_leavesCode {blocks left : List OpenBlock} {s : Statement}
    (ok : statement blocks s a = .ok left a') : LeavesCode a a' :=
  (statement_follows ok).leavesCode (by rw [statement_ok_eq ok])

theorem statements_leavesCode {skip : Nat} {blocks : List OpenBlock} {flow : Flow}
    (ok : statements settings skip blocks flow lexemes a = .ok () a') : LeavesCode a a' :=
  statements_relates ok .aside .trans statement_leavesCode

end Steps

/-! ## The invariant -/

/-- The procedures of the table are those that can be called, in the order of the program. -/
structure Assembly.Linked (opened : Program) (a : Assembly) : Prop where
  begun : opened.procedures <+: a.builder.program.procedures
  symbols : a.table.codeSymbols.map Symbol.procedure = opened.visible a.builder.program
  named : ∀ proc ∈ a.builder.program.procedures, IsName proc.name
  distinct : a.table.Distinct

namespace Assembly.Linked

variable {settings : Settings} {opened : Program} {a a' : Assembly} {name : String}

theorem start (settings : Settings) : Linked settings.emptyProgram (Assembly.start settings) where
  begun := prefix_rfl
  symbols := rfl
  named := forall_mem_nil _
  distinct := nodup_nil

variable (linked : a.Linked opened)

include linked

theorem leaves (leaves : LeavesCode a a') : a'.Linked opened where
  begun := by
    rw [leaves.procedures]
    exact linked.begun
  symbols := by
    rw [leaves.symbols, linked.symbols, Program.visible, Program.visible, leaves.procedures]
  named := by
    rw [leaves.procedures]
    exact linked.named
  distinct := leaves.distinct linked.distinct

theorem names_nodup : ((opened.visible a.builder.program).map (·.name)).Nodup := by
  have keys : (a.table.codeSymbols.map (·.key)).Nodup :=
    (filter_sublist.map _).nodup linked.distinct
  have suffixed : a.table.codeSymbols.map (·.key) =
      (a.table.codeSymbols.map (·.name)).map (· ++ "(") := by
    rw [map_map]
    refine map_congr_left fun s member => ?_
    rw [Symbol.key, if_pos (mem_codeSymbols.mp member).2]
    rfl
  rw [← linked.symbols, map_map]
  rw [suffixed] at keys
  exact List.Pairwise.of_map _ (fun _ _ differ same => differ (congrArg (· ++ "(") same)) keys

theorem procedureOf?_eq (isName : IsName name) : (a.table.procedureOf? name).map Symbol.procedure =
      (opened.visible a.builder.program).find? (·.name == name) := by
  have found {s : Symbol} : a.table.procedureOf? name = some s ↔
      s ∈ a.table.codeSymbols ∧ s.name = name := by
    rw [linked.distinct.procedureOf?_eq_some_iff, normalName_eq_self isName]
  rw [← linked.symbols, find?_map]
  congr 1
  cases here : a.table.codeSymbols.find? ((·.name == name) ∘ Symbol.procedure) with
  | some s =>
    have named : s.procedure.name = name := by simpa using find?_some here
    exact found.mpr ⟨mem_of_find?_eq_some here, named⟩
  | none =>
    apply Option.eq_none_iff_forall_ne_some.mpr
    intro s known
    obtain ⟨member, named⟩ := found.mp known
    exact find?_eq_none.mp here s member (beq_iff_eq.mpr named)

theorem callee?_eq (isName : IsName name) : (Scope.mk settings a.table).callee? name =
      ((opened.visible a.builder.program).find? (·.name == name)).map (·.entry) := by
  rw [← linked.procedureOf?_eq isName, Option.map_map]
  rfl

/-! ## Headers and modules -/

/-- A header adds its procedure to the program and to the table. -/
theorem header (ok : Assembly.header settings lexemes a = .ok () a')
    (names : ∀ l ∈ lexemes, l.Named) :
    a'.Linked opened ∧
      (∃ proc, a'.builder.program.procedures = a.builder.program.procedures ++ [proc]) ∧
      a'.builder.program.wordSize = a.builder.program.wordSize ∧ a'.modules = a.modules := by
  obtain ⟨name, params, base, a₁, table, parsed, -, declared, added, rfl⟩ := header_ok ok
  have isName : IsName name := by
    rw [parseHeader_ok parsed] at names
    exact names (.ident name) (by simp [headerLexemes])
  have dropped := LeavesCode.dropLocals a
  have leaves := declareParams_leavesCode _ _ _ declared
  have distinct := leaves.distinct (dropped.distinct linked.distinct)
  have procedures : a₁.builder.program.procedures = a.builder.program.procedures ++
      [⟨name, a.builder.address, params.length⟩] := leaves.procedures
  have symbols : table.codeSymbols = a.table.codeSymbols ++
      [.ofProcedure name a.builder.address params.length base] := by
    obtain ⟨-, rfl⟩ := add_ok added
    rw [← dropped.symbols, codeSymbols, filter_append]
    exact congrArg (· ++ _) leaves.symbols
  refine ⟨⟨?_, ?_, ?_, distinct.add added⟩, ⟨_, procedures⟩, leaves.wordSize, leaves.modules⟩
  · rw [procedures]
    exact linked.begun.trans (prefix_append ..)
  · rw [symbols, map_append, linked.symbols, Program.visible, Program.visible, procedures,
      drop_append_of_le_length linked.begun.length_le, append_assoc]
    have same : (Symbol.ofProcedure name a.builder.address params.length base).procedure =
        ⟨name, a.builder.address, params.length⟩ := by
      rw [Symbol.procedure, Symbol.ofProcedure, normalName_eq_self isName]
      rfl
    rw [map_singleton, same]
  · rw [procedures]
    exact forall_mem_append.mpr ⟨linked.named, forall_mem_singleton.mpr isName⟩

variable (first : a.modules = 0 → a.table.codeSymbols = [])
include first

/-- A module begins with what was exported. -/
theorem entered : a.enterModule.Linked a.builder.program := by
  -- Of the procedures that the table has dropped before, none was exported.
  have global : (a.table.codeSymbols.map Symbol.procedure).filter (isGlobalName ·.name) =
      a.builder.program.procedures.filter (isGlobalName ·.name) := by
    obtain ⟨since, begun⟩ := linked.begun
    rw [linked.symbols, Program.visible, ← begun, drop_left, filter_append,
      filter_append, filter_filter]
    simp
  have symbols : a.enterModule.table.codeSymbols.map Symbol.procedure =
      (a.table.codeSymbols.map Symbol.procedure).filter (isGlobalName ·.name) := by
    unfold enterModule
    split
    · next zero => rw [first zero]; rfl
    · rw [filter_map, codeSymbols, codeSymbols, keepShared,
        filter_filter, filter_filter]
      congr 1
      refine filter_congr fun s _ => ?_
      cases code : s.isProcedure with
      | false => simp
      | true => simp [isShared, code, Symbol.isExported, Symbol.procedure]
  refine ⟨prefix_rfl, ?_, linked.named, ?_⟩
  · rw [symbols, global]
    exact (Program.visible_self _).symm
  · unfold enterModule
    split
    · exact linked.distinct
    · exact linked.distinct.narrowed filter_sublist

/-- Before its procedures, a module sees what was exported. -/
theorem prepared {lines : List Text} (ok : prepare settings lines a = .ok sources a') :
    a'.Linked a.builder.program ∧
      a'.builder.program.procedures = a.builder.program.procedures ∧
      a'.builder.program.wordSize = a.builder.program.wordSize ∧ a'.modules ≠ 0 := by
  have leaves := prepare_keeps .refl .trans declareVariable_leavesCode
    (readSource_leavesCode settings lines) ok
  refine ⟨(linked.entered first).leaves leaves, leaves.procedures, leaves.wordSize, ?_⟩
  rw [leaves.modules]
  exact Nat.succ_ne_zero _

end Assembly.Linked

/-! ## Whole assemblies -/

/-- A procedure has a position in the program, and its statements were assembled in a linked state
that has it as the last one. -/
structure Piece.StandsAt (a : Assembly) (position : Nat) (piece : Piece) : Prop where
  linked : piece.bodied.Linked piece.opened
  listed : piece.bodied.builder.program.procedures <+: a.builder.program.procedures
  length : piece.bodied.builder.program.procedures.length = position + 1
  named : ∀ l ∈ piece.source.body, l.Named

section Pieces

variable {settings : Settings} {module : Nat} {pieces : List Piece} {a a' : Assembly}

theorem Piece.StandsAt.mono {position : Nat} {piece : Piece} (stands : piece.StandsAt a position)
    (grown : a.builder.program.procedures <+: a'.builder.program.procedures) :
    piece.StandsAt a' position :=
  ⟨stands.linked, stands.listed.trans grown, stands.length, stands.named⟩

/-- The pieces of a stretch of an assembly stand behind the procedures that were there. -/
structure Assembly.Extends (a : Assembly) (pieces : List Piece) (a' : Assembly) : Prop where
  grown : a.builder.program.procedures <+: a'.builder.program.procedures
  length : a'.builder.program.procedures.length =
    a.builder.program.procedures.length + pieces.length
  wordSize : a'.builder.program.wordSize = a.builder.program.wordSize
  pieces : ∀ (i : Nat) (piece : Piece), pieces[i]? = some piece →
    piece.StandsAt a' (a.builder.program.procedures.length + i)

namespace Assembly.Extends

theorem nil (a : Assembly) : a.Extends [] a := ⟨prefix_rfl, rfl, rfl, by simp⟩

theorem append {more : List Piece} {a'' : Assembly} (first : a.Extends pieces a')
    (second : a'.Extends more a'') : a.Extends (pieces ++ more) a'' where
  grown := first.grown.trans second.grown
  length := by rw [second.length, first.length, length_append, Nat.add_assoc]
  wordSize := second.wordSize.trans first.wordSize
  pieces := by
    intro i piece here
    by_cases early : i < pieces.length
    · rw [getElem?_append_left early] at here
      exact (first.pieces i piece here).mono second.grown
    · rw [getElem?_append_right (Nat.le_of_not_lt early)] at here
      have stands := second.pieces _ piece here
      rwa [first.length, Nat.add_assoc, Nat.add_sub_cancel' (Nat.le_of_not_lt early)] at stands

theorem after {b : Assembly} (extends_ : a.Extends pieces a')
    (procedures : a.builder.program.procedures = b.builder.program.procedures)
    (wordSize : a.builder.program.wordSize = b.builder.program.wordSize) :
    b.Extends pieces a' where
  grown := procedures ▸ extends_.grown
  length := procedures ▸ extends_.length
  wordSize := extends_.wordSize.trans wordSize
  pieces := procedures ▸ extends_.pieces

end Assembly.Extends

theorem recordProcedures_linked {opened : Program} (linked : a.Linked opened)
    (ok : recordProcedures settings module opened sources a = .ok pieces a')
    (named : ∀ source ∈ sources, source.Named) :
    a'.Linked opened ∧ a'.modules = a.modules ∧ a.Extends pieces a' := by
  induction sources generalizing a pieces with
  | nil =>
    obtain ⟨rfl, rfl⟩ := step_pure_ok_iff.mp ok
    exact ⟨linked, rfl, .nil a⟩
  | cons source rest ih =>
    obtain ⟨a₁, a₂, a₃, more, begun, locals, body, others, rfl⟩ := recordProcedures_cons_ok ok
    obtain ⟨own, named⟩ := forall_mem_cons.mp named
    have lined := linked.leaves (.aside a source.line a.cautions)
    obtain ⟨linked₁, ⟨proc, procedures⟩, wordSize, modules₁⟩ := lined.header begun own.1
    have declared := declareLocals_leavesCode _ _ _ locals
    have ended := statements_leavesCode body
    have listed := declared.procedures.trans procedures
    have linked₂ := linked₁.leaves declared
    obtain ⟨linked', modules', extends_⟩ := ih (linked₂.leaves ended) others named
    have one : a.Extends [⟨module, source, opened, a₂⟩] a₃ := by
      refine ⟨?_, ?_, ?_, ?_⟩
      · rw [ended.procedures, listed]
        exact prefix_append ..
      · rw [ended.procedures, listed, length_append]
        rfl
      · rw [ended.wordSize, declared.wordSize, wordSize]
      · intro i piece here
        obtain ⟨rfl, rfl⟩ : i = 0 ∧ piece = ⟨module, source, opened, a₂⟩ := by
          cases i with
          | zero => exact ⟨rfl, (Option.some.inj here).symm⟩
          | succ i => contradiction
        refine ⟨linked₂, ended.procedures ▸ prefix_rfl, ?_, own.2⟩
        rw [listed, length_append]
        rfl
    refine ⟨linked', ?_, one.append extends_⟩
    rw [modules', ended.modules, declared.modules, modules₁]

theorem recordModules_linked {modules : List (List Text)} {opened : Program}
    (linked : a.Linked opened) (first : a.modules = 0 → a.table.codeSymbols = [])
    (ok : recordModules settings module modules a = .ok pieces a') :
    (∃ opened', a'.Linked opened' ∧ (a'.modules = 0 → a'.table.codeSymbols = [])) ∧
      a.Extends pieces a' := by
  induction modules generalizing a module pieces opened with
  | nil =>
    obtain ⟨rfl, rfl⟩ := step_pure_ok_iff.mp ok
    exact ⟨⟨opened, linked, first⟩, .nil a⟩
  | cons lines rest ih =>
    obtain ⟨sources, a₁, a₂, own, others, prepared, recorded, later, rfl⟩ :=
      recordModules_cons_ok ok
    obtain ⟨linked₁, procedures, wordSize, modules₁⟩ := linked.prepared first prepared
    obtain ⟨linked₂, modules₂, extends_⟩ := recordProcedures_linked linked₁ recorded
      (prepare_named prepared)
    have begun : { a₂ with table := a₂.table.closeModule }.modules ≠ 0 := by
      rwa [modules₂]
    obtain ⟨linked', extends'⟩ := ih (linked₂.leaves (.closeModule a₂))
      (fun none_ => absurd none_ begun) later
    have here : a.Extends own a₂ := extends_.after procedures wordSize
    have closed : a₂.Extends others a' := extends'.after rfl rfl
    exact ⟨linked', here.append closed⟩

end Pieces

section Points

variable {settings : Settings} {modules : List (List Text)} {a : Assembly}

/-- Between modules the assembly is linked. -/
theorem assembleModules_linked
    (ok : assembleModules settings modules (start settings) = .ok () a) :
    (∃ opened, a.Linked opened ∧ (a.modules = 0 → a.table.codeSymbols = [])) ∧
      a.builder.program.wordSize = settings.wordSize := by
  obtain ⟨pieces, recorded⟩ := (assembleModules_ok_iff 0).mp ok
  obtain ⟨linked, extends_⟩ := recordModules_linked (.start settings) (fun _ => rfl) recorded
  exact ⟨linked, extends_.wordSize⟩

/-- Before every header the assembly is linked. -/
theorem Reaches.linked {before : List (List Text)} {lines : List Text} {opened : Program}
    {source : ProcedureSource} (reaches : Reaches settings before lines opened source a) :
    a.Linked opened ∧ a.builder.program.wordSize = settings.wordSize ∧ source.Named := by
  obtain @⟨a₀, a₁, a₂, front, rest, assembled, rfl, prepared, done⟩ := reaches
  obtain ⟨⟨opened, linked, first⟩, wordSize₀⟩ := assembleModules_linked assembled
  obtain ⟨linked₁, -, wordSize₁, -⟩ := linked.prepared first prepared
  have named := prepare_named prepared
  obtain ⟨pieces, recorded⟩ := (procedures_ok_iff 0 a₀.builder.program).mp done
  -- The procedures before the header are assembled like those of a whole module.
  obtain ⟨linked₂, -, extends_⟩ := recordProcedures_linked linked₁ recorded
    fun source member => named source (mem_append_left _ member)
  refine ⟨linked₂.leaves (.aside _ source.line _), ?_, named source (by simp)⟩
  exact (extends_.wordSize.trans wordSize₁).trans wordSize₀

end Points

end HighAsm
