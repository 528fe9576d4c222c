import HighAsm.Proofs.Layout
import HighAsm.Proofs.Requests

/-!
# How names come and go

There is one table for all names. Scopes exist because symbols leave it at the right moments: the
locals of a procedure when the next header begins, the globals of a module at its end. `Renews` says
what a stretch of an assembly does to the variables: some of them are kept, in order, and the others
are new, with words that were not there before.
-/

namespace HighAsm

open List Assembly SymbolTable

namespace SymbolTable

variable {t t' : SymbolTable} {s : Symbol} {name : Text}

/-- No key is entered twice. -/
def Distinct (t : SymbolTable) : Prop := (t.entries.map (·.key)).Nodup

/-- The variables of a table. -/
def dataSymbols (t : SymbolTable) : List Symbol := t.entries.filter (!·.isProcedure)

/-- The procedures of a table. -/
def codeSymbols (t : SymbolTable) : List Symbol := t.entries.filter (·.isProcedure)

theorem mem_dataSymbols : s ∈ t.dataSymbols ↔ s ∈ t.entries ∧ s.isProcedure = false := by
  rw [dataSymbols, mem_filter, Bool.not_eq_true']

theorem mem_codeSymbols : s ∈ t.codeSymbols ↔ s ∈ t.entries ∧ s.isProcedure = true := by
  rw [codeSymbols, mem_filter]

namespace Distinct

variable (distinct : t.Distinct)

include distinct

theorem add (ok : t.add s = .ok t') : t'.Distinct := by
  obtain ⟨free, rfl⟩ := add_ok ok
  rw [Distinct, map_append, nodup_append]
  refine ⟨distinct, by simp, ?_⟩
  intro key early other late same
  obtain ⟨earlier, member, rfl⟩ := mem_map.mp early
  obtain rfl : other = s.key := by simpa using late
  exact find?_eq_none.mp free earlier member (beq_iff_eq.mpr same)

theorem narrowed (fewer : t'.entries.Sublist t.entries) : t'.Distinct :=
  (fewer.map _).nodup distinct

theorem entry?_eq_some_iff {key : String} :
    t.entry? key = some s ↔ s ∈ t.entries ∧ s.key = key := by
  constructor
  · intro found
    exact ⟨mem_of_find?_eq_some found, by simpa using find?_some found⟩
  · rintro ⟨member, rfl⟩
    obtain ⟨before, after, split⟩ := append_of_mem member
    rw [Distinct, split, map_append, map_cons, nodup_append] at distinct
    have earlier : before.find? (·.key == s.key) = none := by
      apply find?_eq_none.mpr
      intro other early same
      exact distinct.2.2 _ (mem_map_of_mem early) _ mem_cons_self (beq_iff_eq.mp same)
    rw [ entry?, split, find?_append, earlier, Option.none_or]
    exact find?_cons_of_pos (beq_self_eq_true s.key)

theorem variableOf?_eq_some_iff :
    t.variableOf? name = some s ↔ s ∈ t.dataSymbols ∧ s.name = normalName name := by
  rw [variableOf?, Option.filter_eq_some_iff, distinct.entry?_eq_some_iff, mem_dataSymbols,
    Bool.not_eq_true']
  constructor
  · rintro ⟨⟨member, key⟩, data⟩
    rw [Symbol.key, data] at key
    exact ⟨⟨member, data⟩, key⟩
  · rintro ⟨⟨member, data⟩, named⟩
    refine ⟨⟨member, ?_⟩, data⟩
    rw [Symbol.key, data]
    exact named

theorem eq_of_name {s' : Symbol} (member : s ∈ t.dataSymbols) (member' : s' ∈ t.dataSymbols)
    (named : s.name = s'.name) : s = s' := by
  obtain ⟨entered, data⟩ := mem_dataSymbols.mp member
  obtain ⟨entered', data'⟩ := mem_dataSymbols.mp member'
  have key : s.key = s'.key := by simp [Symbol.key, data, data', named]
  exact Option.some.inj ((distinct.entry?_eq_some_iff.mpr ⟨entered, key⟩).symm.trans
    (distinct.entry?_eq_some_iff.mpr ⟨entered', rfl⟩))

theorem procedureOf?_eq_some_iff :
    t.procedureOf? name = some s ↔ s ∈ t.codeSymbols ∧ s.name = normalName name := by
  rw [procedureOf?, Option.filter_eq_some_iff, distinct.entry?_eq_some_iff, mem_codeSymbols]
  constructor
  · rintro ⟨⟨member, key⟩, code⟩
    rw [Symbol.key, if_pos code, String.append_left_inj] at key
    exact ⟨⟨member, code⟩, key⟩
  · rintro ⟨⟨member, code⟩, named⟩
    refine ⟨⟨member, ?_⟩, code⟩
    rw [Symbol.key, if_pos code, named]

end Distinct

end SymbolTable

/-! ## Renewal -/

/-- A request for words is for one word. -/
def Request.OneWord (r : Request) : Prop := ∀ count, r = .alloc count → count = 1

theorem Request.ForCode.oneWord {r : Request} (code : r.ForCode) : r.OneWord := by
  rintro count rfl
  contradiction

/-- Some variables of the table are kept, and the words of all others were allocated since. -/
structure Renews (kept : Symbol → Bool) (a a' : Assembly) : Prop where
  asks : Asks Request.OneWord a a'
  result : a'.table.result = a.table.result
  distinct : a.table.Distinct → a'.table.Distinct
  symbols : ∃ added new, a'.table.dataSymbols = a.table.dataSymbols.filter kept ++ added ∧
    a'.builder.words = a.builder.words ++ new ∧ (added.map (·.value)).Sublist new

/-- Every variable. -/
def Symbol.every : Symbol → Bool := fun _ => true

theorem Symbol.filter_every (symbols : List Symbol) : symbols.filter Symbol.every = symbols :=
  filter_eq_self.mpr fun _ _ => rfl

namespace Renews

variable {kept more : Symbol → Bool} {a a' a'' : Assembly}

theorem of_asks (asks : Asks Request.ForCode a a') (table : a'.table = a.table) :
    Renews Symbol.every a a' where
  asks := asks.mono fun _ => Request.ForCode.oneWord
  result := by rw [table]
  distinct := by rw [table]; exact id
  symbols := by
    refine ⟨[], [], ?_, ?_, nil_sublist []⟩
    · rw [table, append_nil, Symbol.filter_every]
    · rw [append_nil]
      exact Builder.Grows.words_eq asks (by simp [Request.isStorage])

theorem same (builder : a'.builder = a.builder) (table : a'.table = a.table) :
    Renews Symbol.every a a' := of_asks (.same builder) table

theorem refl (a : Assembly) : Renews Symbol.every a a := same rfl rfl

theorem trans (first : Renews kept a a') (second : Renews more a' a'') :
    Renews (fun s => kept s && more s) a a'' where
  asks := first.asks.trans second.asks
  result := second.result.trans first.result
  distinct := second.distinct ∘ first.distinct
  symbols := by
    obtain ⟨added, new, symbols, words, values⟩ := first.symbols
    obtain ⟨added', new', symbols', words', values'⟩ := second.symbols
    refine ⟨added.filter more ++ added', new ++ new', ?_, ?_, ?_⟩
    · rw [symbols', symbols, filter_append, filter_filter, append_assoc]
      simp only [Bool.and_comm]
    · rw [words', words, append_assoc]
    · rw [map_append]
      exact ((filter_sublist.map _).trans values).append values'

/-- It only matters what is kept of the variables that there are. -/
theorem congr (renews : Renews kept a a')
    (same : ∀ s ∈ a.table.dataSymbols, kept s = more s) : Renews more a a' where
  asks := renews.asks
  result := renews.result
  distinct := renews.distinct
  symbols := by
    obtain ⟨added, new, symbols, words, values⟩ := renews.symbols
    exact ⟨added, new, by rw [symbols, filter_congr same], words, values⟩

theorem andThen (first : Renews kept a a') (second : Renews Symbol.every a' a'') :
    Renews kept a a'' :=
  (first.trans second).congr fun _ _ => by rw [Symbol.every, Bool.and_true]

theorem before (first : Renews Symbol.every a a') (second : Renews kept a' a'') :
    Renews kept a a'' :=
  (first.trans second).congr fun _ _ => by rw [Symbol.every, Bool.true_and]

theorem again (first : Renews kept a a') (second : Renews kept a' a'') : Renews kept a a'' :=
  (first.trans second).congr fun s _ => Bool.and_self (kept s)

theorem narrowed (keep : Symbol → Bool) :
    Renews keep a { a with table := { a.table with entries := a.table.entries.filter keep } } where
  asks := .same rfl
  result := rfl
  distinct distinct := distinct.narrowed filter_sublist
  symbols := by
    refine ⟨[], [], ?_, (append_nil _).symm, nil_sublist []⟩
    rw [append_nil, dataSymbols, dataSymbols, filter_filter,
      filter_filter]
    simp only [Bool.and_comm]

theorem entered {table : SymbolTable} {s : Symbol} (added : a.table.add s = .ok table)
    (code : s.isProcedure = true) : Renews Symbol.every a { a with table := table } where
  asks := .same rfl
  result := by rw [(add_ok added).2]
  distinct distinct := distinct.add added
  symbols := by
    refine ⟨[], [], ?_, (append_nil _).symm, nil_sublist []⟩
    obtain ⟨-, rfl⟩ := add_ok added
    simp [dataSymbols, Symbol.every, code]

end Renews

/-! ## The steps of an assembly -/

section Steps

variable {settings : Settings} {line : Int} {a a' : Assembly} {lexemes : List Lexeme}

/-- A new variable has a new word. -/
theorem declareVariable_renews (line : Int) (name : String) :
    Keeps (Renews Symbol.every) (declareVariable line name) := by
  intro a _ a' ok
  obtain ⟨place, a₁, given, entered⟩ := step_bind_ok_iff.mp ok
  obtain ⟨b, -, -, asked, -, rfl⟩ := allocWord_ok given
  obtain ⟨table, added, rfl⟩ := declare_ok entered
  have performed : a.builder.perform (.alloc 1) = .ok (some place, b) :=
    map_ok_iff.mpr ⟨_, asked, rfl⟩
  refine ⟨?_, ?_, fun distinct => distinct.add added, [.ofVariable name place], [place], ?_, ?_, ?_⟩
  · exact Builder.Grows.one (fun _ same => (Request.alloc.inj same).symm) performed
  · rw [(add_ok added).2]
  · obtain ⟨-, rfl⟩ := add_ok added
    simp [dataSymbols, Symbol.every, Symbol.ofVariable, Symbol.isProcedure]
  · rw [Builder.words, Builder.perform_log performed, filterMap_append]
    rfl
  · exact .refl _

theorem declareLocals_renews (settings : Settings) (line : Int) (lexemes : List Lexeme) :
    Keeps (Renews Symbol.every) (declareLocals settings line lexemes) :=
  declareLocals_composed (Keeps.composes .refl .andThen) declareVariable_renews
    (fun _ _ => .modify fun _ => .same rfl rfl) settings line lexemes

theorem readSource_renews (settings : Settings) (lines : List Text) :
    Keeps (Renews Symbol.every) (readSource settings lines) := by
  intro a lexemes a' ok
  obtain ⟨tokens, o, read, rfl⟩ := readSource_ok ok
  let isText (r : Request) : Prop := ∃ text, r = .string text
  have stored : a.builder.Grows isText o.builder := by
    refine (readLines_always (R := fun o o' => o.builder.Grows isText o'.builder)
      (A := fun _ _ => True) (fun o => .refl _) .trans (fun o text => ?_) (fun _ _ _ => trivial)
      (fun o _ _ => .refl _) (fun _ _ => trivial) 0 lines).of_ok read
    exact .one ⟨text, rfl⟩ rfl
  refine ⟨?_, rfl, id, [], [], ?_, ?_, nil_sublist []⟩
  · refine stored.mono ?_
    rintro _ ⟨text, rfl⟩ count ⟨⟩
  · rw [append_nil, Symbol.filter_every]
  · rw [append_nil]
    exact stored.words_eq (by simp [isText])

theorem statements_renews {skip : Nat} {blocks : List OpenBlock} {flow : Flow}
    (ok : statements settings skip blocks flow lexemes a = .ok () a') : Renews Symbol.every a a' :=
  .of_asks (statements_asks ok) (statements_follows ok).table

/-! ## Headers -/

theorem declareParams_renews (line : Int) (register : Nat) (names : List String) :
    Keeps (Renews Symbol.every) (declareParams line register names) :=
  declareParams_keeps .refl .andThen declareVariable_renews
    (fun a i => .of_asks (asks_emitAll a [i]) rfl) line register names

/-- A header drops the locals of the procedure before it. -/
theorem header_renews (ok : header settings lexemes a = .ok () a') :
    Renews Symbol.isExported a a' := by
  obtain ⟨name, names, base, a₁, table, -, -, declared, added, rfl⟩ := header_ok ok
  have dropped : Renews Symbol.isExported a { a with table := a.table.dropLocals } := by
    refine (Renews.narrowed Symbol.isGlobal).congr ?_
    intro s member
    rw [Symbol.isGlobal, (mem_dataSymbols.mp member).2, Bool.false_or]
  have begun : Renews Symbol.every { a with table := a.table.dropLocals }
      (a.begun name names.length) :=
    .of_asks (Builder.Grows.one (r := .begin name names.length) rfl rfl) rfl
  exact ((dropped.andThen begun).andThen (declareParams_renews _ _ _ declared)).andThen
    (.entered added rfl)

/-! ## Modules -/

/-- A module begins with the variables that the one before it has left, if that is only the
result. -/
theorem prepare_renews {lines : List Text} {sources : List ProcedureSource}
    (ok : prepare settings lines a = .ok sources a')
    (only : ∀ s ∈ a.table.dataSymbols, s.name = a.table.result) : Renews Symbol.every a a' := by
  have entered : Renews Symbol.every a a.enterModule := by
    by_cases first : a.modules = 0
    · exact .same rfl (by rw [enterModule, if_pos first])
    · have shared : Renews Symbol.every a { a with table := a.table.keepShared } := by
        refine (Renews.narrowed a.table.isShared).congr ?_
        intro s member
        rw [isShared, (mem_dataSymbols.mp member).2, only s member]
        simp [Symbol.every]
      exact shared.andThen (.same rfl (by rw [enterModule, if_neg first]))
  exact entered.andThen
    (prepare_keeps .refl .andThen declareVariable_renews (readSource_renews settings lines) ok)

/-- Only the result outlives its module. -/
theorem closeModule_renews (a : Assembly) :
    Renews (·.name == a.table.result) a { a with table := a.table.closeModule } := by
  refine (Renews.narrowed fun s => s.isProcedure || s.key == a.table.result).congr ?_
  intro s member
  have data := (mem_dataSymbols.mp member).2
  rw [data, Bool.false_or, Symbol.key, data]
  rfl

theorem closeModule_only (t : SymbolTable) :
    ∀ s ∈ t.closeModule.dataSymbols, s.name = t.closeModule.result := by
  intro s member
  obtain ⟨kept, data⟩ := mem_dataSymbols.mp member
  obtain ⟨-, named⟩ := mem_filter.mp kept
  rw [data, Bool.false_or, Symbol.key, data] at named
  exact beq_iff_eq.mp named

end Steps

/-! ## Procedures in a row -/

/-- At least the variables with the mark of a global are kept. -/
def KeepsGlobals (a a' : Assembly) : Prop :=
  ∃ kept, (∀ s, Symbol.isExported s = true → kept s = true) ∧ Renews kept a a'

namespace KeepsGlobals

variable {a a' a'' : Assembly}

theorem of_every (renews : Renews Symbol.every a a') : KeepsGlobals a a' :=
  ⟨_, fun _ _ => rfl, renews⟩

theorem of_exported (renews : Renews Symbol.isExported a a') : KeepsGlobals a a' :=
  ⟨_, fun _ exported => exported, renews⟩

theorem trans (first : KeepsGlobals a a') (second : KeepsGlobals a' a'') : KeepsGlobals a a'' := by
  obtain ⟨kept, keeps, early⟩ := first
  obtain ⟨more, keeps', late⟩ := second
  refine ⟨_, ?_, early.trans late⟩
  intro s exported
  rw [keeps s exported, keeps' s exported, Bool.and_true]

variable (keeps : KeepsGlobals a a')
include keeps

/-- At the end of the module the result is left, which is a global. -/
theorem closed (global : isGlobalName a.table.result) :
    Renews (·.name == a.table.result) a { a' with table := a'.table.closeModule } := by
  obtain ⟨kept, keeps, renews⟩ := keeps
  refine (renews.trans (closeModule_renews a')).congr ?_
  intro s _
  rw [renews.result]
  by_cases named : s.name = a.table.result
  · have exported : s.isExported = true := by rw [Symbol.isExported, named, global]
    rw [keeps s exported, Bool.true_and]
  · rw [beq_false_of_ne named, Bool.and_false]

theorem distinct (distinct : a.table.Distinct) : a'.table.Distinct := by
  obtain ⟨kept, -, renews⟩ := keeps
  exact renews.distinct distinct

theorem mem {s : Symbol} (member : s ∈ a.table.dataSymbols) (exported : s.isExported = true) :
    s ∈ a'.table.dataSymbols := by
  obtain ⟨kept, keeps, renews⟩ := keeps
  obtain ⟨added, new, symbols, -, -⟩ := renews.symbols
  rw [symbols]
  exact mem_append_left _ (mem_filter.mpr ⟨member, keeps s exported⟩)

end KeepsGlobals

end HighAsm
