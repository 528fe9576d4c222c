import HighAsm.Proofs.Layout
import HighAsm.Proofs.ProcedureDivision

/-!
# The names of procedures

A name starts with a letter, an underscore or the mark of a global, and goes on with letters,
digits, underscores and dots, so the mark stands in front or nowhere. Such a name is its own normal
form, and the table knows a procedure under the very name that the program lists. An exported
procedure stays in the table to the end of the assembly, which is why no other of that name can be
entered: exported names are different across all modules (`Assembly.Exports`).
-/

namespace HighAsm

open List Assembly

variable {sources : List ProcedureSource} {routines : List Routine} {modules : List (List Text)}

/-- A name as it is spelled in a source. -/
def IsName (name : String) : Prop :=
  ∃ c rest, name.toList = c :: rest ∧ isNameStart c = true ∧ ∀ d ∈ rest, isNamePart d = true

/-- If the lexeme is a name, it is spelled as one. -/
def Lexeme.Named : Lexeme → Prop
  | .ident name => IsName name
  | _ => True

/-- A lexeme that the scanner can read: a proper name that is not reserved and has a name behind the
mark of a global, a number below 2^63 while words have a largest value, a reserved word or a
mark. -/
def Lexeme.Scannable (settings : Settings) : Lexeme → Prop
  | .ident name => IsName name ∧ Keyword.ofWord? name = none ∧
    ∀ rest, name.toList = '$' :: rest → rest.head?.any isNameStart = true
  | .number n => n < 0x8000000000000000 ∧ settings.maxWord?.isSome = true
  | .keyword _ | .mark _ => True
  | .endOfFile | .endOfLine => False

theorem Lexeme.Scannable.named {settings : Settings} {l : Lexeme}
    (scannable : l.Scannable settings) : l.Named := by
  cases l with
  | ident => exact scannable.1
  | _ => trivial

/-! ## From the scanner to the headers -/

namespace Scanner

variable {settings : Settings} {line : Int} {cs : List Char} {l : Lexeme} {c : Cursor}

theorem value?_lt {base : Nat} {n : Nat} (read : value? base cs = some n) :
    n < 0x8000000000000000 := by
  unfold value? at read
  split at read
  · contradiction
  · split at read
    · split at read
      · next small =>
        cases read
        exact small
      · contradiction
    · contradiction

theorem readName_scannable {c : Char} (start : isNameStart c = true)
    (ok : (readName line c cs).result = .ok l) : l.Scannable settings := by
  simp only [readName] at ok
  split at ok
  · contradiction
  · next marked =>
    split at ok
    · cases ok
      trivial
    · next unreserved =>
      cases ok
      refine ⟨⟨c, cs.takeWhile isNamePart, String.toList_ofList, start, ?_⟩, unreserved, ?_⟩
      · exact all_eq_true.mp all_takeWhile
      intro rest spelled
      rw [String.toList_ofList] at spelled
      cases spelled
      simpa using marked

theorem readNumber_scannable (ok : (readNumber settings line cs).result = .ok l) :
    l.Scannable settings := by
  unfold readNumber at ok
  dsimp only at ok
  split at ok
  · contradiction
  · next n numeral =>
    split at ok
    · contradiction
    · next largest known =>
      cases ok
      exact ⟨value?_lt numeral, by rw [known]; rfl⟩

theorem read_scannable {c : Char} (ok : (read settings line c cs).result = .ok l) :
    l.Scannable settings := by
  unfold read at ok
  split at ok
  · next start => exact readName_scannable start ok
  · split at ok
    · exact readNumber_scannable ok
    · split at ok
      · cases ok
        trivial
      · contradiction

theorem next_read {t : Token} (ok : (next settings line c).result = .ok t)
    (inside : t.lexeme ≠ .endOfFile) : t.line = line ∧ t.lexeme.Scannable settings := by
  simp only [next] at ok
  split at ok
  · cases ok
    exact absurd rfl inside
  · obtain ⟨l, read, rfl⟩ := map_ok_iff.mp ok
    exact ⟨rfl, read_scannable read⟩

theorem scan_read (settings : Settings) (line : Int) (cursor : Cursor) :
    ∀ t ∈ (scan settings line cursor).tokens, t.line = line ∧ t.lexeme.Scannable settings := by
  fun_induction scan settings line cursor with
  | case1 => simp
  | case2 => simp
  | case3 cursor t ok inside more ih => exact forall_mem_cons.mpr ⟨next_read ok inside, ih⟩

theorem scan_of_error {failure : Failure} (failed :
    (next settings line c).result = .error failure) :
    scan settings line c = ⟨[], (next settings line c).caution?.toList, some failure⟩ := by
  rw [scan]
  split
  · next failed' =>
    obtain rfl := Except.error.inj (failed.symm.trans failed')
    rfl
  · next read => exact absurd (failed.symm.trans read) (by simp)

theorem scan_of_ok {t : Token} (read : (next settings line c).result = .ok t) :
    scan settings line c =
      if t.lexeme = .endOfFile then ⟨[], [], none⟩
      else
        let more := scan settings line (next settings line c).cursor
        ⟨t :: more.tokens, (next settings line c).caution?.toList ++ more.cautions,
          more.failure?⟩ := by
  rw [scan]
  split
  · next failed => exact absurd (failed.symm.trans read) (by simp)
  · next t' read' =>
    obtain rfl := Except.ok.inj (read.symm.trans read')
    rfl

/-- Settings under which the same is read one after the other scan the same. Where `whole` does not
hold, this is asked of what is read without failure only, and the scan has none. -/
theorem scan_eq_of_next {other : Settings} (whole : Prop)
    (same : ∀ c, whole ∨ (∃ t, (next settings line c).result = .ok t) →
      next other line c = next settings line c)
    (clean : whole ∨ (scan settings line c).failure? = none) :
    scan other line c = scan settings line c := by
  fun_induction scan settings line c with
  | case1 c failure failed =>
    have same := same c (.inl (clean.resolve_right (by simp)))
    rw [scan_of_error (same ▸ failed), same]
  | case2 c t read ended =>
    have same := same c (.inr ⟨t, read⟩)
    rw [scan_of_ok (same ▸ read), if_pos ended]
  | case3 c t read inside more ih =>
    have same := same c (.inr ⟨t, read⟩)
    rw [scan_of_ok (same ▸ read), if_neg inside, same, ih clean]

end Scanner

namespace Source

variable {settings : Settings} {o o' : Output} {tokens : List Token}

theorem readLine_read {line : Int} {raw : Text}
    (ok : readLine settings line raw o = .ok tokens o') :
    ∀ t ∈ tokens, t.line = line ∧ t.lexeme.Scannable settings := by
  obtain ⟨text, _, -, ok⟩ := step_bind_ok_iff.mp ok
  cases failed : (Scanner.scan settings line ⟨scanned text, 1⟩).failure? with
  | some failure =>
    simp only [failed] at ok
    exact absurd ok step_throw_ne_ok
  | none =>
    simp only [failed] at ok
    cases ok
    exact Scanner.scan_read _ _ _

theorem readLines_read {before : Nat} {lines : List Text}
    (ok : readLines settings before lines o = .ok tokens o') :
    ∀ t ∈ tokens, t.lexeme = .endOfLine ∨ t.lexeme.Scannable settings := by
  fun_induction readLines (γ := Builder) settings before lines generalizing o o' tokens with
  | case1 =>
    cases ok
    simp
  | case2 before raw => exact fun t member => .inr (readLine_read ok t member).2
  | case3 before raw others _ ih =>
    obtain ⟨first, _, early, ok⟩ := step_bind_ok_iff.mp ok
    obtain ⟨more, _, late, ok⟩ := step_bind_ok_iff.mp ok
    cases ok
    exact forall_mem_append.mpr ⟨fun t member => .inr (readLine_read early t member).2,
      forall_mem_cons.mpr ⟨.inl rfl, ih late⟩⟩

end Source

section

variable {lines : List Text} {settings : Settings} {a : Assembly} {lexemes : List Lexeme}
  {a' : Assembly} (ok : readSource settings lines a = .ok lexemes a')
include ok

/-- The end of the file is the last lexeme of a module, and no other. -/
theorem readSource_ended :
    ∃ front, lexemes = front ++ [.endOfFile] ∧
      ∀ l ∈ front, l = .endOfLine ∨ l.Scannable settings := by
  unfold readSource at ok
  split at ok
  · next tokens o read =>
    cases ok
    obtain ⟨early, _, lines, ended⟩ := step_bind_ok_iff.mp read
    cases ended
    exact ⟨_, map_append, forall_mem_map.mpr (Source.readLines_read lines)⟩
  · contradiction

theorem readSource_named : ∀ l ∈ lexemes, l.Named := by
  obtain ⟨front, rfl, inside⟩ := readSource_ended ok
  refine forall_mem_append.mpr ⟨fun l member => ?_, forall_mem_singleton.mpr trivial⟩
  rcases inside l member with rfl | scannable
  · trivial
  · exact scannable.named

end

/-- The names in a procedure are proper names. -/
def ProcedureSource.Named (source : ProcedureSource) : Prop :=
  (∀ l ∈ source.header, l.Named) ∧ ∀ l ∈ source.body, l.Named

section

variable {settings : Settings} {a : Assembly} {a' : Assembly} {lines : List Text}
  (ok : prepare settings lines a = .ok sources a')
include ok

/-- The procedures of a module stand in its lexemes, which end where the file does. -/
theorem prepare_stands :
    ∃ a₁ a₂ lexemes, readSource settings lines a₁ = .ok lexemes a₂ ∧
      declareGlobals none false 1 lexemes a₂ = .ok () a' ∧ ∀ source ∈ sources,
        ∃ before after, lexemes = before ++ (source.header ++ source.body) ++ after ∧
          after.head? ≠ some (.mark .lparen) := by
  obtain ⟨a₁, a₂, lexemes, -, read, globals, rfl⟩ := prepare_steps ok
  refine ⟨a₁, a₂, lexemes, read, globals, fun source member => ?_⟩
  obtain ⟨front, rfl, inside⟩ := readSource_ended read
  have once : .endOfFile ∉ front := fun member => (inside _ member).elim (by simp) id
  obtain ⟨before, after, rfl, ends⟩ := ProcedureSource.all_stands once member
  refine ⟨before, after ++ [.endOfFile], append_assoc .., ?_⟩
  cases after with
  | nil => simp
  | cons l rest => exact ends

theorem prepare_named : ∀ source ∈ sources, source.Named := by
  obtain ⟨a₁, a₂, lexemes, read, -, stand⟩ := prepare_stands ok
  intro source member
  obtain ⟨before, after, rfl, -⟩ := stand source member
  have named := readSource_named read
  simp only [forall_mem_append] at named
  exact named.1.2

end

/-! ## Normal forms -/

theorem toNat_lt_of_isNamePart {c : Char} (part : isNamePart c = true) : c.toNat < 128 := by
  simp only [isNamePart, Bool.or_eq_true, beq_iff_eq, Bool.and_eq_true, decide_eq_true_eq] at part
  rcases part with ((rfl | rfl) | ⟨-, upper⟩) | ⟨-, upper⟩
  · decide
  · decide
  · exact Nat.lt_of_le_of_lt (UInt32.le_iff_toNat_le.mp upper) (by decide)
  · exact Nat.lt_of_le_of_lt (UInt32.le_iff_toNat_le.mp upper) (by decide)

/-- What names are spelled with is not white space and has no other lower case. -/
theorem lowerChar_of_isNamePart {c : Char} (small : c.toNat < 128)
    (part : isNamePart c = true ∨ c = '$') : lowerChar c = c ∧ isBlank c = false := by
  have all : ∀ n < 128, isNamePart (Char.ofNat n) = true ∨ Char.ofNat n = '$' →
      lowerChar (Char.ofNat n) = Char.ofNat n ∧ isBlank (Char.ofNat n) = false := by
    decide
  have here := all c.toNat small
  rw [Char.ofNat_toNat] at here
  exact here part

namespace Text

theorem chars_cons {b : UInt8} (ascii : b < 0x80) (rest : Text) :
    chars (b :: rest) = Char.ofNat b.toNat :: chars rest := by
  have lead : leading? b rest = some (Char.ofNat b.toNat, 0) := by
    unfold leading?
    rw [if_pos ascii]
  rw [chars, chars, runes, lead]
  simp

theorem chars_ofChars_cons {c : Char} (small : c.toNat < 128) (rest : List Char) :
    chars (ofChars (c :: rest)) = c :: chars (ofChars rest) := by
  have one : String.utf8EncodeChar c = [UInt8.ofNat c.toNat] := by
    exact if_pos (Nat.le_of_lt_succ small)
  have byte : (UInt8.ofNat c.toNat).toNat = c.toNat := by
    exact Nat.mod_eq_of_lt (Nat.lt_trans small (by decide))
  have low : UInt8.ofNat c.toNat < 0x80 := by
    rw [UInt8.lt_iff_toNat_lt, byte]
    exact small
  have split : ofChars (c :: rest) = UInt8.ofNat c.toNat :: ofChars rest := by
    rw [ofChars, flatMap_cons, one]
    rfl
  rw [split, chars_cons low, byte, Char.ofNat_toNat]

theorem chars_ofChars {cs : List Char} (ascii : ∀ c ∈ cs, c.toNat < 128) :
    chars (ofChars cs) = cs := by
  induction cs with
  | nil => simp [ofChars, chars, runes]
  | cons c rest ih =>
    obtain ⟨small, others⟩ := forall_mem_cons.mp ascii
    rw [chars_ofChars_cons small, ih others]

theorem trimList_eq_self {α : Type} {drop : α → Bool} {xs : List α}
    (keeps : ∀ x ∈ xs, drop x = false) : trimList drop xs = xs := by
  have stays : ∀ ys : List α, (∀ y ∈ ys, drop y = false) → ys.dropWhile drop = ys := by
    intro ys keeps
    cases ys with
    | nil => rfl
    | cons y rest => rw [dropWhile_cons_of_neg (by simp [keeps y mem_cons_self])]
  rw [trimList, stays xs keeps, stays xs.reverse (by simpa using keeps), reverse_reverse]

end Text

section

variable {name : String} (isName : IsName name)
include isName

theorem IsName.plain : ∀ d ∈ name.toList, d.toNat < 128 ∧ (isNamePart d = true ∨ d = '$') := by
  obtain ⟨c, rest, spelled, start, parts⟩ := isName
  have plain : ∀ d ∈ name.toList, isNamePart d = true ∨ d = '$' := by
    rw [spelled]
    refine forall_mem_cons.mpr ⟨?_, fun d member => .inl (parts d member)⟩
    simp only [isNameStart, isNamePart, Bool.or_eq_true, beq_iff_eq] at start ⊢
    grind
  intro d member
  refine ⟨?_, plain d member⟩
  rcases plain d member with part | rfl
  · exact toNat_lt_of_isNamePart part
  · decide

theorem IsName.chars_ofString : Text.chars (Text.ofString name) = name.toList :=
  Text.chars_ofChars fun d member => (isName.plain d member).1

theorem normalName_eq_self : normalName name = name := by
  have same : ∀ d ∈ name.toList, lowerChar d = d ∧ isBlank d = false := by
    intro d member
    obtain ⟨ascii, plain⟩ := isName.plain d member
    exact lowerChar_of_isNamePart ascii plain
  have lower : name.toList.map lowerChar = name.toList.map id :=
    map_congr_left fun d member => (same d member).1
  rw [normalName, isName.chars_ofString,
    Text.trimList_eq_self fun d member => (same d member).2, lower, map_id,
    String.ofList_toList]

end

/-- The mark of a global is not lost in the normal form. -/
theorem isGlobalName_normalName {name : String} (global : isGlobalName name = true) :
    isGlobalName (normalName name) = true := by
  obtain ⟨rest, spelled⟩ := head?_eq_some_iff.mp (beq_iff_eq.mp global)
  have read : Text.chars (Text.ofString name) = '$' :: Text.chars (Text.ofChars rest) := by
    rw [Text.ofString, spelled, Text.chars_ofChars_cons (by decide)]
  have last (cs : List Char) : ∃ ds, (cs ++ ['$']).dropWhile isBlank = ds ++ ['$'] := by
    induction cs with
    | nil => exact ⟨[], by decide⟩
    | cons c others ih =>
      rw [cons_append, dropWhile_cons]
      split
      · exact ih
      · exact ⟨c :: others, rfl⟩
  obtain ⟨ds, trimmed⟩ := last (Text.chars (Text.ofChars rest)).reverse
  have first : ('$' :: Text.chars (Text.ofChars rest)).dropWhile isBlank =
      '$' :: Text.chars (Text.ofChars rest) := dropWhile_cons_of_neg (by decide)
  rw [isGlobalName, normalName, read, Text.trimList, first, reverse_cons, trimmed]
  simp [lowerChar]

/-! ## Exported names -/

/-- The exported procedures have different names, and the table knows them under these. -/
structure Assembly.Exports (a : Assembly) : Prop where
  named : ∀ proc ∈ a.builder.program.procedures, IsName proc.name
  known : ∀ proc ∈ a.builder.program.procedures, isGlobalName proc.name →
    ∃ s ∈ a.table.entries, s.isProcedure ∧ s.name = proc.name
  distinct : ((a.builder.program.procedures.filter (isGlobalName ·.name)).map (·.name)).Nodup

namespace Assembly.Exports

variable {settings : Settings} {a a' : Assembly}

/-- Nothing is lost as long as the exported procedures stay in the table. -/
theorem kept (exports : a.Exports)
    (procedures : a'.builder.program.procedures = a.builder.program.procedures)
    (table : ∀ s ∈ a.table.entries, s.isProcedure → s.isExported → s ∈ a'.table.entries) :
    a'.Exports := by
  refine ⟨procedures ▸ exports.named, ?_, procedures ▸ exports.distinct⟩
  intro proc member global
  rw [procedures] at member
  obtain ⟨s, entered, procedure, same⟩ := exports.known proc member global
  have exported : s.isExported := by rwa [Symbol.isExported, same]
  exact ⟨s, table s entered procedure exported, procedure, same⟩

theorem declares (exports : a.Exports) (declares : Declares a a') : a'.Exports := by
  obtain ⟨data, strings, program⟩ := declares.program
  obtain ⟨more, entries, -⟩ := declares.table
  apply exports.kept (by rw [program])
  intro s member _ _
  rw [entries]
  exact mem_append_left _ member

/-- A header is accepted only if its name is new to the table. -/
theorem begins {lexemes : List Lexeme} {name : String} {places : List Int} (exports : a.Exports)
    (begins : Begins settings lexemes name places a a') (isName : IsName name) : a'.Exports := by
  have normal := normalName_eq_self isName
  obtain ⟨data, strings, program⟩ := begins.program
  have procedures : a'.builder.program.procedures = a.builder.program.procedures ++
      [⟨name, a.builder.address, places.length⟩] := by rw [program]; rfl
  have fresh : ∀ proc ∈ a.builder.program.procedures, isGlobalName proc.name →
      proc.name ≠ name := by
    intro proc member global same
    obtain ⟨s, entered, procedure, named⟩ := exports.known proc member global
    exact (begins.others s entered procedure).1 (by rw [named, same, normal])
  refine ⟨?_, ?_, ?_⟩
  · rw [procedures]
    exact forall_mem_append.mpr ⟨exports.named, forall_mem_singleton.mpr isName⟩
  · rw [procedures]
    refine forall_mem_append.mpr ⟨?_, forall_mem_singleton.mpr fun _ => ?_⟩
    · intro proc member global
      obtain ⟨s, entered, procedure, same⟩ := exports.known proc member global
      exact ⟨s, (begins.others s entered procedure).2, procedure, same⟩
    · obtain ⟨s, entered, procedure, same⟩ := begins.entered
      exact ⟨s, entered, procedure, same.trans normal⟩
  · rw [procedures, filter_append, map_append]
    refine nodup_append.mpr ⟨exports.distinct, ?_, ?_⟩
    · exact (filter_sublist.map _).nodup (pairwise_singleton _ name)
    · intro _ early _ late
      obtain ⟨proc, filtered, rfl⟩ := mem_map.mp early
      obtain ⟨listed, global⟩ := mem_filter.mp filtered
      obtain ⟨_, filtered, rfl⟩ := mem_map.mp late
      obtain rfl := mem_singleton.mp (mem_filter.mp filtered).1
      exact fresh proc listed global

end Assembly.Exports

theorem Writes.exports {settings : Settings} {a a' : Assembly}
    (writes : Writes settings sources a routines a') (named : ∀ source ∈ sources, source.Named)
    (exports : a.Exports) : a'.Exports := by
  induction writes with
  | nil => exact exports
  | @cons source _ a _ _ _ _ _ _ header locals _ body _ ih =>
    obtain ⟨own, others⟩ := forall_mem_cons.mp named
    obtain ⟨name, places, begins⟩ := header_begins header
    obtain ⟨names, written, -⟩ := begins.header
    have isName : IsName name := own.1 (.ident name) (by simp [written, headerLexemes])
    have lined : { a with line := source.line }.Exports :=
      exports.kept rfl fun s member _ _ => member
    have follows := statements_follows body
    have declared := (lined.begins begins isName).declares (declareLocals_declares _ _ _ locals)
    refine ih others (declared.kept ?_ ?_)
    · rw [follows.program]
      rfl
    · rw [follows.table]
      exact fun s member _ _ => member

theorem WritesModules.exports {settings : Settings} {a a' : Assembly}
    (writes : WritesModules settings modules a routines a') (exports : a.Exports) : a'.Exports := by
  induction writes with
  | nil => exact exports
  | cons prepared written _ ih =>
    obtain ⟨a₁, builder, table, declares⟩ := prepare_ok prepared
    have shared : a₁.Exports := by
      apply exports.kept (by rw [builder])
      intro s member procedure exported
      rcases table with same | same
      · rwa [same]
      · rw [same]
        exact mem_filter.mpr ⟨member, by simp [SymbolTable.isShared, procedure, exported]⟩
    have assembled := written.exports (prepare_named prepared) (shared.declares declares)
    refine ih (assembled.kept rfl ?_)
    intro s member procedure _
    exact mem_filter.mpr ⟨member, by simp [procedure]⟩

/-- In an assembled program procedures have proper names, and the exported ones different names. -/
theorem Written.names {settings : Settings} {p : Program}
    (written : Written settings modules routines p) :
    (∀ proc ∈ p.procedures, IsName proc.name) ∧
      ((p.procedures.filter (isGlobalName ·.name)).map (·.name)).Nodup := by
  obtain ⟨a, writes, rfl⟩ := written
  have none_ : (start settings).builder.program.procedures = [] := rfl
  have whole := writes.exports ⟨by simp [none_], by simp [none_], by simp [none_]⟩
  exact ⟨whole.named, whole.distinct⟩

end HighAsm
