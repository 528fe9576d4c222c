import HighAsm.Proofs.LocatedAssembly
import HighAsm.Proofs.Robustness

/-!
# What faults and remarks are about

A fault is in a source line that cannot be read, in a token outside all procedures, in a header or
in a statement, and a structure is missed at the end of a body (`Culprit`). A remark is on a number,
a call, a statement, a store or the end of a body (`Subject`). Reading reports on the lines that it
reads, and a header is rejected on its own line. Two variables never meet a fault: one that the
source names, which is not the key of a procedure, and the result variable, which is in the table
before an exported procedure could take its name as a key (`SymbolTable.Guarded`).
-/

namespace HighAsm

open List Assembly

/-! ## Culprits and subjects -/

/-- The lexeme may stand outside of procedures. -/
def Lexeme.Idle (l : Lexeme) : Prop := l = .endOfLine ∨ l = .mark .colon ∨ l = .endOfFile

/-- The token is a number that is larger than any word. -/
def Token.Exceeds (settings : Settings) (t : Token) : Prop :=
  ∃ n largest, t.lexeme = .number n ∧ settings.maxWord? = some largest ∧ largest < n

namespace Located

/-- Between some tokens of a body and the others, a statement may begin: what is passed is
statements and separators. -/
inductive Heads (settings : Settings) (table : SymbolTable) (body : List Token) :
    List Token → List Token → Prop
  | start : Heads settings table body [] body
  | separator {passed rest : List Token} {t : Token}
      (earlier : Heads settings table body passed (t :: rest))
      (separates : t.lexeme = .endOfLine ∨ t.lexeme = .mark .colon) :
      Heads settings table body (passed ++ [t]) rest
  | statement {passed rest : List Token} {t : Token} {s : Statement} {used : Nat}
      (earlier : Heads settings table body passed (t :: rest))
      (begins : ¬ (t.lexeme = .endOfLine ∨ t.lexeme = .mark .colon))
      (parsed : Statement.parse ⟨settings, table⟩ t.lexeme (rest.map (·.lexeme)) = .ok (s, used)) :
      Heads settings table body (passed ++ t :: rest.take used) (rest.drop used)

/-- A statement begins with a token of a module. It belongs to a procedure, and some tokens are left
behind the first one. -/
structure StatementAt (settings : Settings) (lines : List Text) (table : SymbolTable) (p : Passage)
    (passed : List Token) (t : Token) (rest : List Token) : Prop where
  read : ∃ tokens, Reads settings lines tokens ∧ p ∈ Passage.all (endToken lines) tokens
  heads : Heads settings table p.body passed (t :: rest)
  code : ¬ (t.lexeme = .endOfLine ∨ t.lexeme = .mark .colon)

end Located

open Located

/-- The part of a module that a fault is in, and its line. The fault has stopped the assembly in a
state. -/
inductive Culprit (settings : Settings) (lines : List Text) (a : Assembly) : Int → Fault → Prop
  /-- A source line that cannot be read. -/
  | line {before after : List Text} {raw : Text} {o o' : Source.Output} {fault : Fault}
      (place : lines = before ++ raw :: after)
      (unread : Source.readLine settings (before.length + 1) raw o =
        .error (.fault (before.length + 1) fault) o') :
      Culprit settings lines a (before.length + 1) fault
  /-- The first token of code, if that is not the word that opens a procedure. -/
  | outside {tokens before after : List Token} {t : Token} (read : Reads settings lines tokens)
      (place : tokens = before ++ t :: after) (idle : ∀ u ∈ before, u.lexeme.Idle)
      (code : ¬ t.lexeme.Idle) (other : t.lexeme ≠ .keyword .proc) :
      Culprit settings lines a t.line (.codeOutsideProcedure t.lexeme.spelling)
  /-- A header that is rejected. -/
  | header {tokens : List Token} {p : Passage} {b : Assembly} {fault : Fault}
      (read : Reads settings lines tokens) (member : p ∈ Passage.all (endToken lines) tokens)
      (current : b.line = p.opening.line)
      (rejected : Assembly.header settings p.source.header b =
        .error (.fault p.opening.line fault) a) :
      Culprit settings lines a p.opening.line fault
  /-- A statement that cannot be parsed. -/
  | statement {p : Passage} {passed rest : List Token} {t : Token} {fault : Fault}
      (begins : StatementAt settings lines a.table p passed t rest)
      (rejected : Statement.parse ⟨settings, a.table⟩ t.lexeme (rest.map (·.lexeme)) =
        .error fault) :
      Culprit settings lines a t.line fault
  /-- A word that closes what is not the innermost open structure. -/
  | close {p : Passage} {passed rest : List Token} {t : Token} {block : Block}
      (begins : StatementAt settings lines a.table p passed t rest)
      (closes : t.lexeme = .keyword (.closes block)) (opened : Option Block) :
      Culprit settings lines a t.line (.mismatch block opened)
  /-- A body that ends inside a structure. -/
  | unclosed {tokens : List Token} {p : Passage} (read : Reads settings lines tokens)
      (member : p ∈ Passage.all (endToken lines) tokens)
      (ended : Heads settings a.table p.body p.body []) (block : Block) :
      Culprit settings lines a p.next.line (.unclosed block)

/-- The part of a module that a remark is about, and its line. -/
inductive Subject (settings : Settings) (lines : List Text) : Caution → Prop
  /-- A number in a source line. -/
  | overflow {before after : List Text} {raw text : Text} {o o' : Source.Output} {t : Token}
      (place : lines = before ++ raw :: after)
      (spelled : Source.spell (before.length + 1)
        (Text.splitAt Source.quote (Source.code false raw)) o = .ok text o')
      (member : t ∈ (Scanner.scan settings (before.length + 1)
        ⟨Source.scanned text, 1⟩).tokens)
      (exceeds : t.Exceeds settings) (spelling : Text) :
      Subject settings lines (.overflow t.line spelling)
  /-- A call. -/
  | argCount {table : SymbolTable} {p : Passage} {passed rest : List Token} {t : Token}
      {name : String} {entry declared : Int} {args : List Operand} {used : Nat}
      (begins : StatementAt settings lines table p passed t rest)
      (parsed : Statement.parse ⟨settings, table⟩ t.lexeme (rest.map (·.lexeme)) =
        .ok (.call name entry declared args, used))
      (differs : (args.length : Int) ≠ declared) :
      Subject settings lines (.argCount t.line name declared args.length)
  /-- A statement behind a return. -/
  | unreachable {table : SymbolTable} {p : Passage} {passed rest : List Token} {t : Token}
      (begins : StatementAt settings lines table p passed t rest)
      (returned : ∃ u ∈ passed, u.lexeme = .keyword .endproc) :
      Subject settings lines (.unreachable t.line)
  /-- A store to a name. -/
  | implicitLocal {tokens : List Token} {p : Passage} {before after : List Token} {t u : Token}
      {name : String} (read : Reads settings lines tokens)
      (member : p ∈ Passage.all (endToken lines) tokens)
      (place : p.body = before ++ t :: u :: after) (store : t.lexeme = .mark .store)
      (target : u.lexeme = .ident name) :
      Subject settings lines (.implicitLocal t.line name)
  /-- A body that ends without a return. -/
  | missingEndproc {tokens : List Token} {p : Passage} {table : SymbolTable}
      (read : Reads settings lines tokens) (member : p ∈ Passage.all (endToken lines) tokens)
      (ended : Heads settings table p.body p.body []) :
      Subject settings lines (.missingEndproc p.next.line)

/-! ## Tokens of a division -/

namespace Passage

/-- Something holds of the tokens of a procedure and of the one behind it. -/
structure Every (P : Token → Prop) (p : Passage) : Prop where
  opening : P p.opening
  body : ∀ t ∈ p.body, P t
  next : P p.next

/-- What holds of all tokens of a module holds of those of its procedures. -/
theorem divide_every {P : Token → Prop} {last : Token} {tokens : List Token}
    (part : ProcedureSource.Part) (ended : P last) (every : ∀ t ∈ tokens, P t) :
    (∀ t ∈ (divide last part tokens).body, P t) ∧ P (divide last part tokens).next ∧
      ∀ p ∈ (divide last part tokens).others, p.Every P := by
  fun_induction divide last part tokens with
  | case1 => exact ⟨forall_mem_nil _, ended, forall_mem_nil _⟩
  | case2 t rest opens d | case8 t rest opens d =>
    rename_i ih
    obtain ⟨here, later⟩ := forall_mem_cons.mp every
    obtain ⟨body, next, others⟩ := ih later
    exact ⟨forall_mem_nil _, here, forall_mem_cons.mpr ⟨⟨here, body, next⟩, others⟩⟩
  | case3 t rest _ ih | case6 t rest _ ih | case9 t rest _ ih =>
    obtain ⟨here, later⟩ := forall_mem_cons.mp every
    exact ⟨forall_mem_nil _, here, (ih later).2.2⟩
  | case4 t rest closes d | case7 t rest d =>
    rename_i ih
    exact ih (forall_mem_cons.mp every).2
  | case5 t rest newline d | case10 t rest d =>
    rename_i ih
    obtain ⟨here, later⟩ := forall_mem_cons.mp every
    obtain ⟨body, next, others⟩ := ih later
    exact ⟨forall_mem_cons.mpr ⟨here, body⟩, next, others⟩

theorem all_every {P : Token → Prop} {last : Token} {tokens : List Token} (ended : P last)
    (every : ∀ t ∈ tokens, P t) : ∀ p ∈ all last tokens, p.Every P :=
  (divide_every .before ended every).2.2

end Passage

namespace Located

variable {settings : Settings} {lines : List Text} {tokens : List Token}

theorem Reads.named (read : Reads settings lines tokens) : ∀ t ∈ tokens, t.lexeme.Named := by
  obtain ⟨o, o', ok⟩ := read
  obtain ⟨front, _, read, ended⟩ := step_bind_ok_iff.mp ok
  cases ended
  refine forall_mem_append.mpr ⟨fun t member => ?_, forall_mem_singleton.mpr trivial⟩
  rcases Source.readLines_read read t member with same | scannable
  · rw [same]
    trivial
  · exact scannable.named

theorem Reads.range (read : Reads settings lines tokens) (some : lines ≠ []) :
    ∀ p ∈ Passage.all (endToken lines) tokens,
      p.Every fun t => 1 ≤ t.line ∧ t.line ≤ lines.length := by
  have positive : 0 < lines.length := length_pos_iff.mpr some
  refine Passage.all_every ⟨?_, Int.le_refl _⟩ (read.numbered some).2
  dsimp only [endToken]
  omega

theorem Heads.body_eq {table : SymbolTable} {body passed rest : List Token}
    (heads : Heads settings table body passed rest) : body = passed ++ rest := by
  induction heads with
  | start => rfl
  | separator _ _ ih => rw [ih, append_assoc, singleton_append]
  | statement _ _ _ ih =>
    rw [ih, append_assoc, cons_append, take_append_drop]

theorem StatementAt.range {table : SymbolTable} {p : Passage} {passed rest : List Token} {t : Token}
    (begins : StatementAt settings lines table p passed t rest) (some : lines ≠ []) :
    1 ≤ t.line ∧ t.line ≤ lines.length := by
  obtain ⟨tokens, read, member⟩ := begins.read
  apply (read.range some p member).body
  rw [begins.heads.body_eq]
  exact mem_append_right _ mem_cons_self

end Located

theorem Culprit.range {settings : Settings} {lines : List Text} {a : Assembly} {line : Int}
    {fault : Fault} (culprit : Culprit settings lines a line fault) (some : lines ≠ []) :
    1 ≤ line ∧ line ≤ lines.length := by
  cases culprit with
  | @line before after raw o o' _ place unread =>
    have length : lines.length = before.length + (after.length + 1) := by
      rw [place, length_append, length_cons]
    omega
  | outside read place =>
    apply (read.numbered some).2
    rw [place]
    exact mem_append_right _ mem_cons_self
  | header read member => exact (read.range some _ member).opening
  | statement begins | close begins => exact begins.range some
  | unclosed read member => exact (read.range some _ member).next

/-! ## Reading -/

/-- Remarks are added, each of them on something in the module. -/
def Remarked (settings : Settings) (lines : List Text) (cautions cautions' : List Caution) : Prop :=
  ∃ new, cautions' = cautions ++ new ∧ ∀ c ∈ new, Subject settings lines c

namespace Remarked

variable {settings : Settings} {lines : List Text} {cs cs' cs'' : List Caution}

theorem refl (cs : List Caution) : Remarked settings lines cs cs :=
  ⟨[], (append_nil cs).symm, forall_mem_nil _⟩

theorem of_eq (same : cs' = cs) : Remarked settings lines cs cs' := by
  rw [same]
  exact refl cs

theorem trans (first : Remarked settings lines cs cs') (second : Remarked settings lines cs' cs'') :
    Remarked settings lines cs cs'' := by
  obtain ⟨new, rfl, subjects⟩ := first
  obtain ⟨newer, rfl, others⟩ := second
  exact ⟨new ++ newer, append_assoc .., forall_mem_append.mpr ⟨subjects, others⟩⟩

theorem one {c : Caution} (subject : Subject settings lines c) :
    Remarked settings lines cs (cs ++ [c]) :=
  ⟨[c], rfl, forall_mem_singleton.mpr subject⟩

end Remarked

/-- A fault is reported on a line. -/
def Failure.On (line : Int) : Failure → Prop
  | .fault l _ => l = line
  | .crash _ => True

namespace Scanner

variable {settings : Settings} {line : Int} {failure : Failure}

theorem Fails.on (fails : Fails settings line failure) : failure.On line := by
  cases fails with
  | fault => rfl
  | size => trivial

theorem readNumber_overflow {cs : List Char}
    (overflow : (readNumber settings line cs).overflow = true) :
    ∃ n largest, (readNumber settings line cs).result = .ok (.number n) ∧
      settings.maxWord? = some largest ∧ largest < n := by
  unfold readNumber at overflow ⊢
  dsimp only at overflow ⊢
  split at overflow
  · contradiction
  · next n value =>
    split at overflow
    · contradiction
    · next largest limit =>
      simp only [limit]
      exact ⟨n, largest, rfl, rfl, of_decide_eq_true overflow⟩

theorem read_overflow {c : Char} {cs : List Char}
    (overflow : (read settings line c cs).overflow = true) :
    ∃ n largest, (read settings line c cs).result = .ok (.number n) ∧
      settings.maxWord? = some largest ∧ largest < n := by
  unfold read at overflow ⊢
  split at overflow
  · contradiction
  · next notName =>
    split at overflow
    · next digit =>
      rw [if_neg notName, if_pos digit]
      exact readNumber_overflow overflow
    · split at overflow
      · contradiction
      · contradiction

theorem next_caution {c : Cursor} {caution : Caution}
    (made : (next settings line c).caution? = some caution) :
    ∃ t spelling, (next settings line c).result = .ok t ∧ t.lexeme ≠ .endOfFile ∧
      t.Exceeds settings ∧ caution = .overflow t.line spelling := by
  unfold next at made ⊢
  dsimp only at made ⊢
  split at made
  · contradiction
  · next first others here =>
    split at made
    · next overflow =>
      cases made
      obtain ⟨n, largest, result, limit, exceeds⟩ := read_overflow overflow
      simp only [here, result]
      exact ⟨_, _, rfl, by simp, ⟨n, largest, rfl, limit, exceeds⟩, rfl⟩
    · contradiction

/-- The remarks on a line are about numbers in it, and made with their lines. -/
theorem scan_cautions (settings : Settings) (line : Int) (c : Cursor) :
    ∀ caution ∈ (scan settings line c).cautions, ∃ t ∈ (scan settings line c).tokens,
      t.Exceeds settings ∧ ∃ spelling, caution = .overflow t.line spelling := by
  fun_induction scan settings line c with
  | case1 c failure failed =>
    intro caution made
    obtain ⟨t, _, ok, -⟩ := next_caution (Option.mem_toList.mp made)
    cases failed.symm.trans ok
  | case2 => exact forall_mem_nil _
  | case3 c t ok inside more ih =>
    refine forall_mem_append.mpr ⟨fun caution made => ?_, fun caution made => ?_⟩
    · obtain ⟨u, spelling, same, -, exceeds, rfl⟩ := next_caution (Option.mem_toList.mp made)
      obtain rfl := Except.ok.inj (ok.symm.trans same)
      exact ⟨t, mem_cons_self, exceeds, spelling, rfl⟩
    · obtain ⟨u, member, found⟩ := ih caution made
      exact ⟨u, mem_cons_of_mem t member, found⟩

end Scanner

section Reading

variable {settings : Settings} {lines before : List Text} {after : List Text}

theorem spell_remarks (line : Int) (pieces : List Text) (o : Source.Output) :
    Ends (fun o o' => Remarked settings lines o.cautions o'.cautions)
      (fun failure _ => failure.On line) o (Source.spell line pieces o) := by
  fun_induction Source.spell (γ := Builder) line pieces generalizing o with
  | case1 => exact .refl _
  | case2 => exact .refl _
  | case3 => exact ⟨.refl _, rfl⟩
  | case4 outside literal others _ ih =>
    let stored : Source.Output := { o with builder := (o.builder.intern literal).2 }
    exact .after (t := stored) .trans (.refl _) (.bind .trans (ih stored) fun _ _ _ _ => .refl _)

/-- A failure is a fault in some part of the module, or a crash. -/
def Answered (settings : Settings) (lines : List Text) (failure : Failure) (a : Assembly) : Prop :=
  ∀ line fault, failure = .fault line fault → Culprit settings lines a line fault

section

variable {raw : Text} (place : lines = before ++ raw :: after) (o : Source.Output)
include place

/-- Reading a line remarks on its numbers, and finds faults on this line. -/
theorem readLine_remarks :
    Ends (fun o o' => Remarked settings lines o.cautions o'.cautions)
      (fun failure _ => failure.On (before.length + 1)) o
      (Source.readLine settings (before.length + 1) raw o) := by
  refine .bind .trans (spell_remarks ..) fun text o' spelled _ => ?_
  have remarks : ∀ c ∈ (Scanner.scan settings (before.length + 1)
      ⟨Source.scanned text, 1⟩).cautions, Subject settings lines c := by
    intro c made
    obtain ⟨t, member, exceeds, spelling, rfl⟩ := Scanner.scan_cautions _ _ _ c made
    exact .overflow place spelled member exceeds spelling
  refine .bind .trans ⟨_, rfl, remarks⟩ fun _ o'' _ _ => ?_
  cases failed : (Scanner.scan settings (before.length + 1) ⟨Source.scanned text, 1⟩).failure? with
  | none => exact .refl _
  | some failure => exact ⟨.refl _, (Scanner.scan_error failed).on⟩

theorem readLine_reports :
    Ends (fun o o' => Remarked settings lines o.cautions o'.cautions)
      (fun failure _ => ∀ a, Answered settings lines failure a) o
      (Source.readLine settings (before.length + 1) raw o) := by
  apply (readLine_remarks place o).imp fun _ remarked => remarked
  rintro failure o' result - on a line fault rfl
  obtain rfl : line = before.length + 1 := on
  exact .line place result

end

theorem readLines_reports {rest : List Text} {n : Nat} (place : lines = before ++ rest)
    (length : before.length = n) (o : Source.Output) :
    Ends (fun o o' => Remarked settings lines o.cautions o'.cautions)
      (fun failure _ => ∀ a, Answered settings lines failure a) o
      (Source.readLines settings n rest o) := by
  fun_induction Source.readLines (γ := Builder) settings n rest generalizing before o with
  | case1 => exact .refl _
  | case2 n raw =>
    subst length
    exact readLine_reports place o
  | case3 n raw others _ ih =>
    subst length
    refine .bind .trans (readLine_reports place o) fun tokens o' _ _ => ?_
    have later : lines = (before ++ [raw]) ++ others := by
      rw [place, append_assoc, singleton_append]
    exact .bind .trans (ih later (by simp) o') fun _ _ _ _ => .refl _

end Reading

/-! ## Keys that are not taken -/

namespace SymbolTable

variable {t t' : SymbolTable} {s : Symbol} {name : Text}

/-- A name is free if it is not that of a variable, and no procedure has it as a key. -/
theorem entry?_eq_none (unknown : (t.variableOf? name).isNone = true)
    (apart : ∀ s ∈ t.entries, s.isProcedure = true → s.key ≠ normalName name) :
    t.entry? (normalName name) = none := by
  cases found : t.entry? (normalName name) with
  | none => rfl
  | some s =>
    have member : s ∈ t.entries := mem_of_find?_eq_some found
    have key : s.key = normalName name := by simpa using find?_some found
    cases procedure : s.isProcedure with
    | true => exact absurd key (apart s member procedure)
    | false =>
      rw [variableOf?, found] at unknown
      simp [procedure] at unknown

/-- The result variable is in the table if it carries the mark of a global, and its name is not the
key of an exported procedure. -/
structure Guarded (t : SymbolTable) : Prop where
  known : isGlobalName t.result = true → ∃ s ∈ t.entries, s.isProcedure = false ∧ s.name = t.result
  apart : ∀ s ∈ t.entries, s.isProcedure = true → s.isExported = true → s.key ≠ t.result

namespace Guarded

variable (guarded : t.Guarded)
include guarded

theorem add (added : t.add s = .ok t') : t'.Guarded := by
  obtain ⟨free, rfl⟩ := add_ok added
  constructor
  · intro global
    obtain ⟨r, member, found⟩ := guarded.known global
    exact ⟨r, mem_append_left _ member, found⟩
  · refine forall_mem_append.mpr ⟨guarded.apart, forall_mem_singleton.mpr ?_⟩
    intro procedure exported same
    -- The mark of the name is that of the key, so the key is that of the result variable.
    have key : s.key = s.name ++ "(" := by rw [Symbol.key, if_pos procedure]
    have global : isGlobalName t.result = true := by
      rw [← same, key]
      obtain ⟨rest, spelled⟩ := head?_eq_some_iff.mp (beq_iff_eq.mp exported)
      rw [isGlobalName, String.toList_append, spelled]
      rfl
    obtain ⟨r, member, data, named⟩ := guarded.known global
    apply find?_eq_none.mp free r member
    rw [Symbol.key, data, same, named]
    simp

theorem filter {keep : Symbol → Bool}
    (kept : ∀ s, s.isProcedure = false → s.name = t.result → isGlobalName t.result = true →
      keep s = true) : Guarded { t with entries := t.entries.filter keep } := by
  constructor
  · intro global
    obtain ⟨r, member, data, named⟩ := guarded.known global
    exact ⟨r, mem_filter.mpr ⟨member, kept r data named global⟩, data, named⟩
  · intro s member
    exact guarded.apart s (mem_filter.mp member).1

theorem dropLocals : t.dropLocals.Guarded := by
  apply guarded.filter
  intro s _ named global
  rw [Symbol.isGlobal, Symbol.isExported, named, global, Bool.or_true]

theorem closeModule : t.closeModule.Guarded := by
  apply guarded.filter
  intro s data named _
  rw [Symbol.key, data, named]
  simp

end Guarded

end SymbolTable

/-- No name of the source is the key of a procedure. -/
theorem IsName.ne_key {name : String} (isName : IsName name) {s : Symbol}
    (procedure : s.isProcedure = true) : s.key ≠ normalName name := by
  rw [normalName_eq_self isName, Symbol.key, if_pos procedure]
  rintro rfl
  have paren : '(' ∈ (s.name ++ "(").toList := by simp
  have plain := (isName.plain '(' paren).2
  revert plain
  decide

/-- What every step within a module keeps of the table. -/
structure Guards (a a' : Assembly) : Prop where
  result : a'.table.result = a.table.result
  modules : a'.modules = a.modules
  guarded : a.table.Guarded → a'.table.Guarded

namespace Guards

variable {a a' a'' : Assembly}

theorem of_eq (table : a'.table = a.table) (modules : a'.modules = a.modules) : Guards a a' :=
  ⟨by rw [table], modules, fun guarded => table ▸ guarded⟩

theorem refl (a : Assembly) : Guards a a := of_eq rfl rfl

theorem trans (first : Guards a a') (second : Guards a' a'') : Guards a a'' :=
  ⟨second.result.trans first.result, second.modules.trans first.modules,
    fun guarded => second.guarded (first.guarded guarded)⟩

end Guards

/-! ## Headers -/

/-- Nothing is remarked, and the line is the same. -/
structure Quiet (a a' : Assembly) : Prop extends Guards a a' where
  line : a'.line = a.line
  cautions : a'.cautions = a.cautions

namespace Quiet

variable {a a' a'' : Assembly}

theorem refl (a : Assembly) : Quiet a a := ⟨.refl a, rfl, rfl⟩

theorem trans (first : Quiet a a') (second : Quiet a' a'') : Quiet a a'' :=
  ⟨first.toGuards.trans second.toGuards, second.line.trans first.line,
    second.cautions.trans first.cautions⟩

end Quiet

/-- While a line is the current one, a step is quiet and finds faults on this line only. -/
def Calm {α : Type} (line : Int) (x : Asm α) : Prop :=
  ∀ a : Assembly, a.line = line → Ends Quiet (fun failure _ => failure.On line) a (x a)

namespace Calm

variable {α β : Type} {line : Int} {x : Asm α}

theorem pure (r : α) : Calm line (Pure.pure r : Asm α) := fun a _ => Quiet.refl a

theorem bind {next : α → Asm β} (first : Calm line x) (second : ∀ r, Calm line (next r)) :
    Calm line (x >>= next) := by
  intro a current
  refine Ends.bind .trans (first a current) fun r a' _ quiet => second r a' ?_
  rw [quiet.line, current]

theorem get_bind {next : Assembly → Asm β}
    (second : ∀ a : Assembly, a.line = line → Calm line (next a)) :
    Calm line (get >>= next) := fun a current => second a current a current

theorem modify {f : Assembly → Assembly} (quiet : ∀ a, Quiet a (f a)) :
    Calm line (modifyGet fun a => (PUnit.unit, f a) : Asm PUnit) := fun a _ => quiet a

theorem throw (fault : Fault) :
    Calm line (MonadExcept.throw (Failure.fault line fault) : Asm α) :=
  fun a _ => ⟨.refl a, rfl⟩

theorem fail (fault : Fault) : Calm line (Assembly.fail fault : Asm α) := by
  apply get_bind
  rintro a rfl
  exact .throw fault

theorem check (x : Except Fault α) : Calm line (Assembly.check x) := by
  cases x with
  | error fault => exact .fail fault
  | ok r => exact .pure r

theorem allocWord : Calm line allocWord := by
  intro a _
  have allocated := allocWord_allocated a
  generalize Assembly.allocWord a = r at allocated ⊢
  cases allocated with
  | ok => exact ⟨.of_eq rfl rfl, rfl, rfl⟩
  | error => exact ⟨.refl _, trivial⟩

theorem declare (s : Symbol) : Calm line (declare line s) := by
  intro a _
  have entered := declare_entered line s a
  generalize Assembly.declare line s a = r at entered ⊢
  cases entered with
  | ok added =>
    exact ⟨⟨by rw [(SymbolTable.add_ok added).2], rfl, fun guarded => guarded.add added⟩, rfl, rfl⟩
  | error => exact ⟨.refl a, rfl⟩

theorem declareParams (register : Nat) (names : List String) :
    Calm line (declareParams line register names) := by
  induction names generalizing register with
  | nil => exact .pure 0
  | cons name rest ih =>
    refine .bind .allocWord fun place => .bind (.declare _) fun _ => ?_
    refine .bind (.modify fun a => ⟨.of_eq rfl rfl, rfl, rfl⟩) fun _ => ?_
    exact .bind (ih _) fun _ => .pure _

theorem header (settings : Settings) (lexemes : List Lexeme) :
    Calm line (header settings lexemes) := by
  refine .bind (.check _) fun (name, params) => ?_
  refine iteInduction (fun _ => .bind (.fail _) fun _ => ?_) fun _ => ?_
  all_goals
    refine .bind (.modify fun a => ⟨⟨rfl, rfl, .dropLocals⟩, rfl, rfl⟩) fun _ => ?_
    refine .bind (.get_bind fun _ _ => .pure _) fun entry => .get_bind fun a current => ?_
    subst current
    exact .bind (.declareParams _ _) fun base => .declare _

end Calm

end HighAsm
