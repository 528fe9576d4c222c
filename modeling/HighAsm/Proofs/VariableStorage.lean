import Mathlib.Data.List.Nodup
import HighAsm.Proofs.DirectStores
import HighAsm.Proofs.Regions

/-!
# Variables and their storage

Every name of a variable leads to a word that was allocated for it. Two names lead to the same word
exactly if they are the same name and mean the same variable: in one procedure always, in one module
if they carry the mark of a global, and everywhere if it is the name of the result. What one table
has kept of another (`Renews`) and that words are apart settle both directions.
-/

namespace HighAsm

open List Assembly

/-! ## Words -/

section Words

variable {settings : Settings} {kept : Symbol → Bool} {a a' : Assembly}

section

variable (renews : Renews kept (start settings) a) (least : 1 ≤ settings.wordSize)
  (most : settings.wordSize < 0x8000000000000000)
include renews least most

/-- Storage for words is handed out one word at a time. -/
theorem Renews.word_size {place : Int} {size : Nat}
    (member : ⟨place, .words size⟩ ∈ a.builder.regions) : (size : Int) = settings.wordSize := by
  obtain ⟨count, asked, size⟩ := Builder.exists_alloc_of_mem member
  obtain ⟨more, log, kinds⟩ := Builder.Grows.log renews.asks
  rw [log] at asked
  obtain rfl : count = 1 := by
    rcases mem_append.mp asked with before | since
    · contradiction
    · exact kinds _ since count rfl
  have word : a.builder.program.wordSize = settings.wordSize :=
    (Builder.Grows.program_fixed renews.asks).2.1
  rw [word, Int.one_mul, wrap64_eq_bmod, Int.bmod_eq_of_le (by omega) (by omega)] at size
  omega

theorem Renews.words_nodup (small : a.builder.program.data.size < 0x8000000000000000) :
    a.builder.words.Nodup := by
  have laid : Builder.Laid a.builder := (Builder.Laid.empty rfl rfl).grows renews.asks
  refine laid.words_nodup small ?_
  rintro ⟨place, content⟩ member rfl
  have size := renews.word_size least most member
  omega

end

/-- The variables of a table have words of their own, in order. -/
theorem Renews.values_sublist (renews : Renews kept (start settings) a) :
    (a.table.dataSymbols.map (·.value)).Sublist a.builder.words := by
  obtain ⟨added, new, symbols, words, values⟩ := renews.symbols
  rw [symbols, words]
  exact values

/-- A variable from before and a variable from now have one word exactly if it is the same variable
and was kept. -/
theorem Renews.value_eq_iff (renews : Renews kept a a') (distinct : a.table.Distinct)
    (values : (a.table.dataSymbols.map (·.value)).Sublist a.builder.words)
    (apart : a'.builder.words.Nodup) {s t : Symbol} (before : s ∈ a.table.dataSymbols)
    (now : t ∈ a'.table.dataSymbols) : s.value = t.value ↔ s.name = t.name ∧ kept s = true := by
  obtain ⟨added, new, symbols, words, newValues⟩ := renews.symbols
  rw [words] at apart
  have own : (a.table.dataSymbols.map (·.value)).Nodup :=
    values.nodup (apart.sublist (sublist_append_left ..))
  constructor
  · intro same
    rw [symbols] at now
    rcases mem_append.mp now with old | fresh
    · obtain ⟨member, isKept⟩ := mem_filter.mp old
      obtain rfl := inj_on_of_nodup_map own before member same
      exact ⟨rfl, isKept⟩
    · have early := values.subset (mem_map_of_mem before)
      have late := newValues.subset (mem_map_of_mem fresh)
      exact absurd same ((nodup_append.mp apart).2.2 _ early _ late)
  · rintro ⟨named, isKept⟩
    have still : s ∈ a'.table.dataSymbols := by
      rw [symbols]
      exact mem_append_left _ (mem_filter.mpr ⟨before, isKept⟩)
    rw [(renews.distinct distinct).eq_of_name still now named]

end Words

/-! ## Names -/

section Names

variable {settings : Settings} {a : Assembly} {pieces : List Piece} {name : String} {place : Int}
  {p q : Piece}

/-- A name leads to the word of the variable of that name. -/
theorem Scope.address?_eq_some_iff {table : SymbolTable} (distinct : table.Distinct) :
    (Scope.mk settings table).address? name = some place ↔
      ∃ s ∈ table.dataSymbols, s.name = normalName name ∧ s.value = place := by
  rw [Scope.address?, Option.map_eq_some_iff]
  constructor
  · rintro ⟨s, found, value⟩
    obtain ⟨member, named⟩ := distinct.variableOf?_eq_some_iff.mp found
    exact ⟨s, member, named, value⟩
  · rintro ⟨s, member, named, value⟩
    exact ⟨s, distinct.variableOf?_eq_some_iff.mpr ⟨member, named⟩, value⟩

/-- The names of the variables of a procedure, in the order of its text. -/
def Piece.variableNames (settings : Settings) (piece : Piece) : List String :=
  HighAsm.variableNames (piece.scope settings).indexName? false
    (piece.source.header ++ piece.source.body)

/-- The table of a procedure in a whole assembly: its variables have different names, and words in
their order that are still there in the end. -/
structure Piece.Within (a : Assembly) (piece : Piece) : Prop where
  distinct : piece.bodied.table.Distinct
  values : (piece.bodied.table.dataSymbols.map (·.value)).Sublist piece.bodied.builder.words
  words : piece.bodied.builder.words <+: a.builder.words

theorem Piece.Within.of_renews {piece : Piece} {kept more : Symbol → Bool}
    (first : Renews kept (start settings) piece.bodied) (second : Renews more piece.bodied a) :
    piece.Within a where
  distinct := first.distinct nodup_nil
  values := first.values_sublist
  words := by
    obtain ⟨added, new, -, words, -⟩ := second.symbols
    exact ⟨new, words.symm⟩

theorem Piece.Within.mem_words {piece : Piece} (within : piece.Within a)
    (found : (piece.scope settings).address? name = some place) :
    place ∈ a.builder.words := by
  obtain ⟨s, member, -, rfl⟩ := (Scope.address?_eq_some_iff within.distinct).mp found
  exact within.words.subset (within.values.subset (mem_map_of_mem member))

/-- Two names have one word exactly if they are equal and variables of that name were kept. -/
theorem Piece.Within.place_eq_iff (kept : String → Bool) (early : p.Within a) (late : q.Within a)
    (apart : a.builder.words.Nodup) (renews : Renews (fun s => kept s.name) p.bodied q.bodied)
    {name' : String} {place' : Int} (found : (p.scope settings).address? name = some place)
    (found' : (q.scope settings).address? name' = some place') :
    place = place' ↔ normalName name = normalName name' ∧ kept (normalName name) = true := by
  obtain ⟨s, member, named, rfl⟩ := (Scope.address?_eq_some_iff early.distinct).mp found
  obtain ⟨t, member', named', rfl⟩ := (Scope.address?_eq_some_iff late.distinct).mp found'
  have apart' := apart.sublist late.words.sublist
  rw [renews.value_eq_iff early.distinct early.values apart' member member', named, named']

/-- A normal name means the same in two procedures: a global of their module, or the result. -/
def Piece.Common (settings : Settings) (p q : Piece) (name : String) : Prop :=
  p.module = q.module ∧ isGlobalName name = true ∨ name = normalName settings.resultName

theorem Piece.common_comm :
    p.Common settings q name ↔ q.Common settings p name := by
  rw [Piece.Common, Piece.Common, eq_comm (a := p.module)]

theorem Piece.Shares.place_eq_iff (early : p.Within a) (late : q.Within a)
    (apart : a.builder.words.Nodup) (shares : p.Shares (normalName settings.resultName) q)
    (global : isGlobalName (normalName settings.resultName) = true) {name' : String} {place' : Int}
    (found : (p.scope settings).address? name = some place)
    (found' : (q.scope settings).address? name' = some place') :
    place = place' ↔
      normalName name = normalName name' ∧ p.Common settings q (normalName name) := by
  obtain ⟨-, renews⟩ := shares
  split at renews
  · next same =>
    rw [early.place_eq_iff isGlobalName late apart renews found found', Piece.Common]
    constructor
    · rintro ⟨named, marked⟩
      exact ⟨named, .inl ⟨same, marked⟩⟩
    · rintro ⟨named, ⟨-, marked⟩ | isResult⟩
      · exact ⟨named, marked⟩
      · exact ⟨named, isResult ▸ global⟩
  · next other =>
    rw [early.place_eq_iff (· == normalName settings.resultName) late apart renews found found',
      Piece.Common, beq_iff_eq]
    constructor
    · rintro ⟨named, isResult⟩
      exact ⟨named, .inr isResult⟩
    · rintro ⟨named, ⟨same, -⟩ | isResult⟩
      · exact absurd same other
      · exact ⟨named, isResult⟩

end Names

/-- In an assembled program code works on variables only, each name has one word, and two names have
the same one exactly if they mean the same variable. A name that a body stores to is never
undefined. -/
theorem names_lead_to_storage (settings : Settings)
    (result : isGlobalName settings.resultName = true) (least : 1 ≤ settings.wordSize)
    (most : settings.wordSize < 0x8000000000000000) :
    (∀ modules a, assembleModules settings modules (start settings) = .ok () a →
      a.builder.program.Addressable → a.builder.program.data.size < 0x8000000000000000 →
      ∃ pieces routines, recordModules settings 0 modules (start settings) = .ok pieces a ∧
        a.builder.program.MadeOf routines ∧ pieces.length = routines.length ∧
        (∀ (i : Nat) (piece : Piece) (r : Routine), pieces[i]? = some piece →
          routines[i]? = some r →
          ((r.code a.builder.program.codeBase (Routine.extent (routines.take i))).filterMap
              Instr.place?).map some =
            (piece.variableNames settings).map (piece.scope settings).address?) ∧
        (∀ piece ∈ pieces, ∀ name place,
          (piece.scope settings).address? name = some place → place ∈ a.builder.words) ∧
        ∀ (i j : Nat) (p q : Piece), pieces[i]? = some p → pieces[j]? = some q →
          ∀ name name' place place', (p.scope settings).address? name = some place →
            (q.scope settings).address? name' = some place' →
            (place = place' ↔
              normalName name = normalName name' ∧
                (i = j ∨ p.Common settings q (normalName name)))) ∧
    ∀ before lines opened source a a' name line left,
      Reaches settings before lines opened source a →
      settings.features .implicitLocals = true → header settings source.header a = .ok () a' →
      StoresTo name source.body →
      body settings source.body a' ≠ .error (.fault line (.undefinedVariable name)) left := by
  have global := isGlobalName_normalName result
  refine ⟨fun modules a assembled addressable small => ?_, ?_⟩
  · obtain ⟨pieces, routines, recorded, written, made, -⟩ :=
      assembled_pieces assembled addressable
    obtain ⟨⟨kept, whole⟩, -, members⟩ := recordModules_through recorded (List.forall_mem_nil _)
    obtain ⟨-, pairs⟩ := recordModules_renews recorded rfl global (List.forall_mem_nil _)
    have apart := whole.words_nodup least most small
    have within : ∀ piece ∈ pieces, piece.Within a := by
      intro piece member
      obtain ⟨⟨_, first⟩, kept, second⟩ := members piece member
      exact .of_renews first second
    refine ⟨pieces, routines, recorded, made.program, written.length, ?_, ?_, ?_⟩
    · intro i piece r here there
      exact ((written.at here there).resolves _ _).1.symm
    · intro piece member name place found
      exact (within piece member).mem_words found
    · have ordered {i j : Nat} {p q : Piece} (before : i < j) (here : pieces[i]? = some p)
          (there : pieces[j]? = some q) : p.Shares (normalName settings.resultName) q := by
        obtain ⟨_, rfl⟩ := List.getElem?_eq_some_iff.mp here
        obtain ⟨_, rfl⟩ := List.getElem?_eq_some_iff.mp there
        exact List.pairwise_iff_getElem.mp pairs i j _ _ before
      intro i j p q here there name name' place place' found found'
      have early := within p (List.mem_of_getElem? here)
      have late := within q (List.mem_of_getElem? there)
      -- What two procedures share is known from the earlier one to the later one only.
      rcases Nat.lt_trichotomy i j with before | rfl | after
      · rw [(ordered before here there).place_eq_iff early late apart global found found']
        simp [Nat.ne_of_lt before]
      · obtain rfl := Option.some.inj (here.symm.trans there)
        rw [early.place_eq_iff (fun _ => true) late apart (.refl _) found found']
        simp
      · rw [eq_comm, (ordered after there here).place_eq_iff late early apart global found' found,
          eq_comm (a := normalName name'), Piece.common_comm]
        simp only [Nat.ne_of_gt after, false_or, and_congr_right_iff]
        intro same
        rw [same]
  · intro before lines opened source a a' name line left reaches on begun stores
    exact reaches.body_spares on begun stores line left

/-- The sizes of code and data, and the places of some names in every procedure. -/
def placesSeen (settings : Settings) (names : List String) (pieces : List Piece) (a : Assembly) :
    Nat × Nat × List (List (Option Int)) :=
  (a.builder.program.code.size, a.builder.program.data.size,
    pieces.map fun piece => names.map (piece.scope settings).address?)

/-- A global in both of two modules, and locals of one name in all procedures. -/
def sharedNames : List (List Text) :=
  [["proc a(x)", "x>$g", "proc b(x)", "for(3)", "index+$g>x", "1>index", "endfor"],
    ["proc c(x)", "y+x>$g>$return", "1>y"]]

theorem names_lead_to_storage_sharedNames :
    ∃ a pieces, assembleModules {} sharedNames (start {}) = .ok () a ∧
      recordModules {} 0 sharedNames (start {}) = .ok pieces a ∧
      pieces.map (fun piece => ["x", "y", "index", "$g", "$return"].map (piece.scope {}).address?) =
        [[some 0x2004, none, none, some 0x2002, some 0x2000],
          [some 0x2006, none, some 0x2008, some 0x2002, some 0x2000],
          [some 0x200c, some 0x200e, none, some 0x200a, some 0x2000]] ∧
      (∃ routines, a.builder.program.MadeOf routines ∧ pieces.length = routines.length) ∧
      (∀ piece ∈ pieces, ∀ name place,
        (piece.scope {}).address? name = some place → place ∈ a.builder.words) ∧
      ∃ opened source b b', Reaches {} [] ["proc a()", "1>$g"] opened source b ∧
        header {} source.header b = .ok () b' ∧ StoresTo "$g" source.body ∧
        ∀ line left,
          body {} source.body b' ≠ .error (.fault line (.undefinedVariable "$g")) left := by
  have places : seen? {} (recordModules {} 0 sharedNames)
      (placesSeen {} ["x", "y", "index", "$g", "$return"]) = some (21, 16,
        [[some 0x2004, none, none, some 0x2002, some 0x2000],
          [some 0x2006, none, some 0x2008, some 0x2002, some 0x2000],
          [some 0x200c, some 0x200e, none, some 0x200a, some 0x2000]]) := by
    decide +kernel
  obtain ⟨pieces, a, recorded, seen⟩ := seen?_eq_some places
  obtain ⟨code, seen⟩ := Prod.mk.inj seen
  obtain ⟨data, there⟩ := Prod.mk.inj seen
  have assembled : assembleModules {} sharedNames (start {}) = .ok () a :=
    (assembleModules_ok_iff 0).mpr ⟨pieces, recorded⟩
  have addressable : a.builder.program.Addressable := by
    rw [Program.Addressable, code]
    decide
  obtain ⟨program, bodies⟩ := names_lead_to_storage {} rfl (by decide) (by decide)
  obtain ⟨pieces', routines, recorded', made, length, -, words, -⟩ :=
    program sharedNames a assembled addressable (by rw [data]; decide)
  obtain ⟨rfl, -⟩ := EStateM.Result.ok.inj (recorded.symm.trans recorded')
  refine ⟨a, pieces, assembled, recorded, there, ⟨routines, made, length⟩, words, ?_⟩
  have one : seen? {} (prepare {} ["proc a()", "1>$g"]) (fun sources _ => sources) =
      some [⟨headerLexemes "a" [], [.endOfLine, .number 1, .mark .store, .ident "$g"], 1⟩] := by
    decide +kernel
  obtain ⟨_, b, prepared, rfl⟩ := seen?_eq_some one
  have whole : seen? {} (recordModules {} 0 [["proc a()", "1>$g"]]) (placesSeen {} []) =
      some (2, 4, [[]]) := by
    decide +kernel
  obtain ⟨_, _, recorded, -⟩ := seen?_eq_some whole
  obtain ⟨_, _, _, _, _, again, own, -⟩ := recordModules_cons_ok recorded
  obtain ⟨rfl, rfl⟩ := EStateM.Result.ok.inj (prepared.symm.trans again)
  obtain ⟨b', _, _, _, begun, -⟩ := recordProcedures_cons_ok own
  have first : prepare {} ["proc a()", "1>$g"] (start {}) = .ok ([] ++ [_]) b := prepared
  have reaches : Reaches {} [] ["proc a()", "1>$g"] _ _ { b with line := 1 } :=
    .intro rfl rfl first rfl
  have stores : StoresTo "$g" [.endOfLine, .number 1, .mark .store, .ident "$g"] :=
    ⟨[.endOfLine, .number 1], [], rfl, rfl, by simp⟩
  exact ⟨_, _, _, b', reaches, begun, stores, fun line left =>
    bodies _ _ _ _ _ _ _ line left reaches rfl begun stores⟩

/-- A global that looks like a call where it is stored to is undefined. -/
theorem calledGlobal_undefined :
    failure? {} [["proc a()", "1>$x(2)"]] = some (.fault 2 (.undefinedVariable "$x")) := by
  decide +kernel

end HighAsm
