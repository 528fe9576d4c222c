import HighAsm.Proofs.Culprits

/-!
# Faults and remarks on their lines

Every pass over a module reports faults with the line of their culprit, and remarks with the line of
their subject (`Assembly.Reports`). This is shown of the passes that take their lines from tokens,
which do the same as those that count them. Modules are assembled one after the other, also behind
one that failed, and each of them finds the name of the result variable free or known
(`Assembly.Awaits`).
-/

namespace HighAsm

open List Assembly Located

/-! ## Passes over a module -/

/-- What a step within a module leaves: the table is as good as before, and every new remark is on
something in the module. -/
structure Reported (settings : Settings) (lines : List Text) (a a' : Assembly) : Prop
    extends Guards a a' where
  remarks : Remarked settings lines a.cautions a'.cautions

namespace Reported

variable {settings : Settings} {lines : List Text} {a a' a'' : Assembly}

theorem refl (a : Assembly) : Reported settings lines a a := ⟨.refl a, .refl _⟩

theorem trans (first : Reported settings lines a a') (second : Reported settings lines a' a'') :
    Reported settings lines a a'' :=
  ⟨first.toGuards.trans second.toGuards, first.remarks.trans second.remarks⟩

theorem of_quiet (quiet : Quiet a a') : Reported settings lines a a' :=
  ⟨quiet.toGuards, .of_eq quiet.cautions⟩

end Reported

theorem Answered.crash {settings : Settings} {lines : List Text} {crash : Crash} {a : Assembly} :
    Answered settings lines (.crash crash) a := by
  intro line fault same
  contradiction

/-- What a step within a module comes to. -/
abbrev Assembly.Reports {α : Type} (settings : Settings) (lines : List Text) (a : Assembly)
    (r : EStateM.Result Failure Assembly α) : Prop :=
  Ends (Reported settings lines) (Answered settings lines) a r

section Variables

variable {settings : Settings} {lines : List Text} {line : Int} {name : String} {a : Assembly}

/-- If its name is free, a variable is entered unless there is no storage for it. -/
theorem declareVariable_fresh (fresh : a.table.entry? (normalName name) = none) :
    (∃ crash, declareVariable line name a = .error (.crash crash) a) ∨
      ∃ b place table, a.table.add (Symbol.ofVariable name place) = .ok table ∧
        declareVariable line name a = .ok () { a with builder := b, table := table } := by
  have allocated := allocWord_allocated a
  generalize given : allocWord a = r at allocated
  cases allocated with
  | error => exact .inl ⟨_, step_bind_error_iff.mpr (.inl given)⟩
  | @ok place b =>
    have added : a.table.add (Symbol.ofVariable name place) =
        .ok { a.table with entries := a.table.entries ++ [Symbol.ofVariable name place] } := by
      have free : a.table.entry? (Symbol.ofVariable name place).key = none := fresh
      rw [SymbolTable.add, free]
    exact .inr ⟨b, place, _, added, (step_bind_eq_of_ok given).trans (declare_isOk added)⟩

theorem declareVariable_reports (fresh : a.table.entry? (normalName name) = none) :
    a.Reports settings lines (declareVariable line name a) := by
  rcases declareVariable_fresh fresh with ⟨crash, failed⟩ | ⟨b, place, table, added, declared⟩
  · rw [failed]
    exact ⟨.refl a, .crash⟩
  · rw [declared]
    exact ⟨⟨by rw [(SymbolTable.add_ok added).2], rfl, fun guarded => guarded.add added⟩, .refl _⟩

end Variables

namespace Located

variable {settings : Settings} {lines : List Text} {tokens : List Token}

section Globals

variable {before behind : Option Lexeme} {inside : Bool} {line : Int} {l : Lexeme} {a : Assembly}

theorem declareGlobal_outside (code : ¬ l.Idle) :
    declareGlobal before false line l behind a =
      .error (.fault line (.codeOutsideProcedure l.spelling)) a := by
  rw [Lexeme.Idle, not_or, not_or] at code
  unfold declareGlobal
  rw [if_pos (by simp [code])]
  rfl

theorem declareGlobal_reports (accepted : inside = true ∨ l = .mark .colon ∨ l = .endOfFile)
    (named : l.Named) : a.Reports settings lines (declareGlobal before inside line l behind a) := by
  unfold declareGlobal
  rw [if_neg (by rcases accepted with rfl | rfl | rfl <;> simp)]
  cases l with
  | ident name =>
    refine .bind .trans (.refl a) fun _ a' got _ => ?_
    obtain ⟨rfl, rfl⟩ := step_get_ok_iff.mp got
    split
    · next unknown =>
      rw [Bool.and_eq_true] at unknown
      apply declareVariable_reports
      exact SymbolTable.entry?_eq_none unknown.2 fun s _ procedure => named.ne_key procedure
    · exact .refl a
  | endOfFile | endOfLine | number _ | keyword _ | mark _ => exact .refl a

/-- Going through a module for its globals finds no fault but the first token of code, if that does
not open a procedure. -/
theorem declareGlobals_reports {front left : List Token} (read : Reads settings lines tokens)
    (place : tokens = front ++ left) (idle : inside = false → ∀ u ∈ front, u.lexeme.Idle) :
    a.Reports settings lines (declareGlobals before inside left a) := by
  induction left generalizing front before inside a with
  | nil => exact .refl a
  | cons t rest ih =>
    have next : tokens = (front ++ [t]) ++ rest := by
      rw [place, append_assoc, singleton_append]
    unfold declareGlobals
    split
    · next newline =>
      refine ih next fun outside => ?_
      exact forall_mem_append.mpr
        ⟨idle outside, forall_mem_singleton.mpr (.inl newline)⟩
    · next notLine =>
      by_cases code : (inside || t.lexeme == .keyword .proc) = false ∧ ¬ t.lexeme.Idle
      · obtain ⟨outside, code⟩ := code
        rw [outside, step_bind_error_iff.mpr (.inl (declareGlobal_outside code))]
        rw [Bool.or_eq_false_iff, beq_eq_false_iff_ne] at outside
        refine ⟨.refl a, ?_⟩
        rintro line fault ⟨⟩
        exact .outside read place (idle outside.1) code outside.2
      · rw [not_and, Classical.not_not] at code
        have accepted : (inside || t.lexeme == .keyword .proc) = true ∨
            t.lexeme = .mark .colon ∨ t.lexeme = .endOfFile := by
          cases outside : inside || t.lexeme == .keyword .proc with
          | true => exact .inl rfl
          | false => exact .inr ((code outside).resolve_left notLine)
        have member : t ∈ tokens := by
          rw [place]
          exact mem_append_right _ mem_cons_self
        refine .bind .trans (declareGlobal_reports accepted (read.named t member)) fun _ _ _ _ => ?_
        refine ih next fun outside => ?_
        rw [forall_mem_append]
        exact ⟨idle (Bool.or_eq_false_iff.mp outside).1,
          forall_mem_singleton.mpr (code outside)⟩

end Globals

section Locals

variable {p : Passage} {a : Assembly}

theorem declareLocal_cases (settings : Settings) (line : Int) (l : Lexeme) (rest : List Lexeme) :
    declareLocal settings line l rest = pure () ∨
      ∃ name more, l = .mark .store ∧ rest = .ident name :: more := by
  unfold declareLocal
  split
  · next name more => exact .inr ⟨name, more, rfl, rfl⟩
  · exact .inl rfl

variable (read : Reads settings lines tokens) (member : p ∈ Passage.all (endToken lines) tokens)
include read member

theorem declareLocal_reports {before rest : List Token} {t : Token}
    (place : p.body = before ++ t :: rest) :
    a.Reports settings lines
      (declareLocal settings t.line t.lexeme (rest.map (·.lexeme)) a) := by
  rcases declareLocal_cases settings t.line t.lexeme (rest.map (·.lexeme)) with
    idle | ⟨name, more, store, target⟩
  · rw [idle]
    exact .refl a
  · rw [store, target]
    obtain ⟨u, after, rfl, target, -⟩ := map_eq_cons_iff.mp target
    have named : u.lexeme.Named := by
      apply (Passage.all_every trivial read.named p member).body
      simp [place]
    rw [target] at named
    refine .bind .trans (.refl a) fun _ a' got _ => ?_
    obtain ⟨rfl, rfl⟩ := step_get_ok_iff.mp got
    split
    · next unknown =>
      rw [Bool.and_eq_true, Bool.and_eq_true] at unknown
      have fresh : a.table.entry? (normalName name) = none :=
        SymbolTable.entry?_eq_none unknown.1.2 fun s _ procedure => named.ne_key procedure
      refine .bind .trans (declareVariable_reports fresh) fun _ a' _ _ => ?_
      exact ⟨.of_eq rfl rfl, .one (.implicitLocal read member place store target)⟩
    · exact .refl a

/-- Going through a body for its locals remarks on stores to names, and finds no fault. -/
theorem declareLocals_reports {before left : List Token} (place : p.body = before ++ left) :
    a.Reports settings lines (declareLocals settings left a) := by
  induction left generalizing before a with
  | nil => exact .refl a
  | cons t rest ih =>
    refine .bind .trans (declareLocal_reports read member place) fun _ a' _ _ => ?_
    have next : p.body = (before ++ [t]) ++ rest := by
      rw [place, append_assoc, singleton_append]
    exact ih next

end Locals

section Statements

variable {p : Passage} {blocks : List OpenBlock} {flow : Flow} {a : Assembly} {s : Statement}
  {passed rest : List Token} {t : Token} {used : Nat}

theorem lexeme_of_close {scope : Scope} {block : Block}
    (parsed : Statement.parse scope t.lexeme (rest.map (·.lexeme)) = .ok (.close block, used)) :
    t.lexeme = .keyword (.closes block) := by
  have spelled := (Statement.parse_spelled parsed).1
  generalize whole : t.lexeme :: (rest.map (·.lexeme)).take used = lexemes at spelled
  cases spelled
  exact head_eq_of_cons_eq whole

/-- Nothing that a step reports on, or that names are looked up in, has changed. -/
structure SameNotes (a a' : Assembly) : Prop where
  table : a'.table = a.table
  modules : a'.modules = a.modules
  cautions : a'.cautions = a.cautions

/-- If a statement is rejected on a line, then because it closes what is not open. -/
def Mismatches (s : Statement) (line : Int) (failure : Failure) : Prop :=
  ∀ l fault, failure = .fault l fault →
    l = line ∧ ∃ block opened, s = .close block ∧ fault = .mismatch block opened

/-- A statement that was parsed leaves the table and the remarks as they are, and is rejected only
if it closes another structure than the innermost one. -/
theorem parsed_ends (blocks : List OpenBlock) (s : Statement) (a : Assembly) :
    Ends SameNotes (fun failure _ => Mismatches s a.line failure) a
      (Assembly.statement blocks s a) := by
  have stated := statement_stated blocks s a
  generalize Assembly.statement blocks s a = r at stated
  cases stated with
  | ok => exact ⟨rfl, rfl, rfl⟩
  | mismatch closes =>
    refine ⟨⟨rfl, rfl, rfl⟩, ?_⟩
    rintro l fault ⟨⟩
    exact ⟨rfl, _, _, closes, rfl⟩
  | crash => exact ⟨⟨rfl, rfl, rfl⟩, by simp [Mismatches]⟩

theorem parsed_reports (begins : StatementAt settings lines a.table p passed t rest)
    (parsed : Statement.parse ⟨settings, a.table⟩ t.lexeme (rest.map (·.lexeme)) = .ok (s, used))
    (current : a.line = t.line) : a.Reports settings lines (Assembly.statement blocks s a) := by
  apply (parsed_ends blocks s a).imp
  · intro a' same
    exact ⟨.of_eq same.table same.modules, .of_eq same.cautions⟩
  · intro failure a' _ same mismatches line fault found
    obtain ⟨rfl, block, opened, rfl, rfl⟩ := mismatches line fault found
    rw [current]
    rw [← same.table] at begins
    exact .close begins (lexeme_of_close parsed) opened

section

variable (begins : StatementAt settings lines a.table p passed t rest)
  (returned : flow.returned = true → ∃ u ∈ passed, u.lexeme = .keyword .endproc)
include begins returned

/-- The remarks on a statement are made with the line of its first token. -/
theorem statement_remarks :
    (∀ c ∈ flow.unreachable t.line, Subject settings lines c) ∧
      ∀ s used, Statement.parse ⟨settings, a.table⟩ t.lexeme (rest.map (·.lexeme)) =
        .ok (s, used) → ∀ c ∈ (s.caution? t.line).toList, Subject settings lines c := by
  constructor
  · unfold Flow.unreachable
    split
    · next behind =>
      rw [Bool.and_eq_true] at behind
      exact forall_mem_singleton.mpr (.unreachable begins (returned behind.1))
    · exact forall_mem_nil _
  · intro s used parsed c made
    cases s with
    | call name entry declared args =>
      rw [Option.mem_toList, Statement.caution?] at made
      split at made
      · contradiction
      · next differs =>
        cases made
        exact .argCount begins parsed differs
    | ret | eval _ | openIf _ _ | openWhile _ _ | openFor _ _ | close _ => contradiction

theorem statement_reports : a.Reports settings lines (statement settings blocks flow t rest a) := by
  obtain ⟨unreachable, cautions⟩ := statement_remarks begins returned
  cases parsed : Statement.parse ⟨settings, a.table⟩ t.lexeme (rest.map (·.lexeme)) with
  | error fault =>
    rw [statement_unparsed parsed]
    refine ⟨⟨.of_eq rfl rfl, _, rfl, unreachable⟩, ?_⟩
    rintro line fault ⟨⟩
    exact .statement begins parsed
  | ok read =>
    obtain ⟨s, used⟩ := read
    rw [statement_parsed parsed]
    let b : Assembly :=
      { a with
        line := t.line
        cautions := a.cautions ++ flow.unreachable t.line ++ (s.caution? t.line).toList }
    have remarked : Reported settings lines a b :=
      ⟨.of_eq rfl rfl, _, append_assoc ..,
        forall_mem_append.mpr ⟨unreachable, cautions s used parsed⟩⟩
    refine .after .trans remarked (.bind .trans ?_ fun _ a' _ _ => .refl a')
    exact parsed_reports (a := b) begins parsed rfl

end

/-- What a statement leads to: its tokens are skipped, and if it is a return, this is known. -/
theorem statement_ok {r : Nat × List OpenBlock × Flow} {a' : Assembly}
    (ok : statement settings blocks flow t rest a = .ok r a') :
    a'.table = a.table ∧ ∃ s left,
      Statement.parse ⟨settings, a.table⟩ t.lexeme (rest.map (·.lexeme)) = .ok (s, r.1) ∧
        r.2 = (left, flow.after s left) := by
  cases parsed : Statement.parse ⟨settings, a.table⟩ t.lexeme (rest.map (·.lexeme)) with
  | error fault =>
    rw [statement_unparsed parsed] at ok
    contradiction
  | ok read =>
    obtain ⟨s, used⟩ := read
    rw [statement_parsed parsed] at ok
    obtain ⟨left, a'', stated, ok⟩ := step_bind_ok_iff.mp ok
    cases ok
    exact ⟨(statement_follows stated).table, s, left, rfl, rfl⟩

/-- The faults in a body are on the lines of its statements, except for a structure that is open at
its end. -/
theorem statements_reports {left : List Token} {skip : Nat} (read : Reads settings lines tokens)
    (member : p ∈ Passage.all (endToken lines) tokens)
    (heads : Heads settings a.table p.body passed (left.drop skip))
    (returned : flow.returned = true → ∃ u ∈ passed, u.lexeme = .keyword .endproc) :
    a.Reports settings lines (statements settings p.next skip blocks flow left a) := by
  induction left generalizing skip blocks flow passed a with
  | nil =>
    let b : Assembly := { a with line := p.next.line }
    have ended : Heads settings b.table p.body p.body [] := by
      have whole : p.body = passed := heads.body_eq.trans (by rw [drop_nil, append_nil])
      rw [drop_nil, ← whole] at heads
      exact heads
    refine .after (t := b) .trans ⟨.of_eq rfl rfl, .refl _⟩ ?_
    change b.Reports settings lines (Assembly.statements settings 0 blocks flow [] b)
    unfold Assembly.statements
    cases blocks with
    | cons top others =>
      refine ⟨.refl b, ?_⟩
      rintro line fault ⟨⟩
      exact .unclosed read member ended top.block
    | nil =>
      split
      · exact ⟨.of_eq rfl rfl, .one (.missingEndproc read member ended)⟩
      · exact .refl b
  | cons t rest ih =>
    cases skip with
    | succ skip => exact ih heads returned
    | zero =>
      unfold statements
      split
      · next separates =>
        refine ih (heads.separator separates) fun seen => ?_
        obtain ⟨u, member, ret⟩ := returned seen
        exact ⟨u, mem_append_left _ member, ret⟩
      · next code =>
        have begins : StatementAt settings lines a.table p passed t rest :=
          ⟨⟨tokens, read, member⟩, heads, code⟩
        refine .bind .trans (statement_reports begins returned) fun r a' stated _ => ?_
        obtain ⟨table, s, left, parsed, same⟩ := statement_ok stated
        have later := heads.statement code parsed
        rw [← table] at later
        rw [same]
        refine ih later fun seen => ?_
        rw [Flow.after, Bool.or_eq_true, Bool.and_eq_true, beq_iff_eq] at seen
        rcases seen with seen | ⟨rfl, -⟩
        · obtain ⟨u, member, ret⟩ := returned seen
          exact ⟨u, mem_append_left _ member, ret⟩
        · exact ⟨t, mem_append_right _ mem_cons_self, (Statement.parse_ret parsed).mp rfl⟩

end Statements

section Modules

variable {a : Assembly}

theorem procedures_reports {passages : List Passage} (read : Reads settings lines tokens)
    (members : ∀ p ∈ passages, p ∈ Passage.all (endToken lines) tokens) :
    a.Reports settings lines (procedures settings passages a) := by
  induction passages generalizing a with
  | nil => exact .refl a
  | cons p rest ih =>
    obtain ⟨member, others⟩ := forall_mem_cons.mp members
    let b : Assembly := { a with line := p.opening.line }
    have headed : b.Reports settings lines (header settings p.source.header b) := by
      apply (Calm.header settings p.source.header b rfl).imp fun _ quiet => .of_quiet quiet
      rintro failure c result - on line fault rfl
      obtain rfl : line = p.opening.line := on
      exact .header read member rfl result
    refine .after (t := b) .trans ⟨.of_eq rfl rfl, .refl _⟩ ?_
    refine .bind .trans headed fun _ c _ _ => ?_
    refine .bind .trans (declareLocals_reports read member (nil_append _).symm)
      fun _ d _ _ => ?_
    refine .bind .trans (statements_reports read member .start ?_) fun _ e _ _ => ih others
    intro seen
    contradiction

theorem readTokens_reports : a.Reports settings lines (readTokens settings lines a) := by
  have ends : Ends (fun o o' => Remarked settings lines o.cautions o'.cautions)
      (fun failure _ => ∀ a, Answered settings lines failure a) ⟨a.builder, a.cautions⟩
      (Source.read settings lines ⟨a.builder, a.cautions⟩) :=
    .bind .trans (readLines_reports (nil_append lines).symm rfl _) fun _ _ _ _ => .refl _
  unfold readTokens
  cases result : Source.read settings lines ⟨a.builder, a.cautions⟩ with
  | ok tokens o =>
    rw [result] at ends
    exact ⟨.of_eq rfl rfl, ends⟩
  | error failure o =>
    rw [result] at ends
    exact ⟨⟨.of_eq rfl rfl, ends.1⟩, ends.2 _⟩

theorem passes_reports : a.Reports settings lines (passes settings lines a) := by
  refine .bind .trans readTokens_reports fun tokens b got _ => ?_
  have read : Reads settings lines tokens := readTokens_ok got
  have globals : b.Reports settings lines (declareGlobals none false tokens b) :=
    declareGlobals_reports read (nil_append _).symm fun _ => forall_mem_nil _
  refine .bind .trans globals fun _ c _ _ => ?_
  refine .bind .trans (procedures_reports read fun _ member => member) fun _ d _ _ => ?_
  exact ⟨⟨rfl, rfl, .closeModule⟩, .refl _⟩

end Modules

end Located

/-! ## One module after the other -/

/-- A module may begin: of the names that it will see, none is a key that the result variable
needs. -/
structure Assembly.Awaits (settings : Settings) (a : Assembly) : Prop where
  result : a.table.result = normalName settings.resultName
  empty : a.modules = 0 → a.table.entries = []
  apart : ∀ s ∈ a.table.entries, s.isProcedure = true → s.isExported = true →
    s.key ≠ a.table.result

section Awaits

variable {settings : Settings} {lines : List Text} {a a' : Assembly}

theorem start_awaits (settings : Settings) : (start settings).Awaits settings :=
  ⟨rfl, fun _ => rfl, forall_mem_nil _⟩

/-- Procedures that were not exported are not seen. -/
theorem Assembly.Awaits.entered (awaits : a.Awaits settings) :
    (enterModule a).Awaits settings ∧ ∀ s ∈ (enterModule a).table.entries,
      s.isProcedure = true → s.key ≠ normalName settings.resultName := by
  obtain ⟨result, empty, apart⟩ := awaits
  by_cases first : a.modules = 0
  · have entries : (enterModule a).table.entries = [] := by
      rw [enterModule, if_pos first, empty first]
    have same : (enterModule a).table.result = a.table.result := by
      rw [enterModule, if_pos first]
    refine ⟨⟨same.trans result, fun _ => entries, ?_⟩, ?_⟩
    · rw [entries]
      exact forall_mem_nil _
    · rw [entries]
      exact forall_mem_nil _
  · have table : (enterModule a).table = a.table.keepShared := by rw [enterModule, if_neg first]
    rw [← result]
    refine ⟨⟨by rw [table]; exact result, fun none => ?_, ?_⟩, ?_⟩
    · exact absurd none (Nat.succ_ne_zero _)
    · rw [table]
      intro s member
      exact apart s (mem_filter.mp member).1
    · rw [table]
      intro s member procedure
      obtain ⟨member, shared⟩ := mem_filter.mp member
      rw [SymbolTable.isShared, if_pos procedure] at shared
      exact apart s member procedure shared

theorem Assembly.Awaits.of_guards (guards : Guards a a') (guarded : a.table.Guarded)
    (begun : a.modules ≠ 0) (result : a.table.result = normalName settings.resultName) :
    a'.Awaits settings :=
  ⟨guards.result.trans result, fun none => absurd (guards.modules.symm.trans none) begun,
    (guards.guarded guarded).apart⟩

/-- What a module leaves: its remarks are on something in it, and another module may begin. -/
structure Assembly.Handed (settings : Settings) (lines : List Text) (a a' : Assembly) : Prop where
  remarks : Remarked settings lines a.cautions a'.cautions
  awaits : a'.Awaits settings

/-- Whatever a module comes to, a fault is in something in it. -/
theorem assembleModule_reports (lines : List Text) (awaits : a.Awaits settings) :
    Ends (Handed settings lines) (Answered settings lines) a
      (Assembly.assembleModule settings lines a) := by
  obtain ⟨entered, apart⟩ := awaits.entered
  let b := enterModule a
  -- Once the result variable is known, the table stays guarded to the end of the module.
  have passed {c : Assembly} (guarded : c.table.Guarded) (begun : c.modules ≠ 0)
      (result : c.table.result = normalName settings.resultName)
      (cautions : c.cautions = a.cautions) :
      Ends (Handed settings lines) (Answered settings lines) a
        (Located.passes settings lines c) := by
    apply Located.passes_reports.imp
    · intro a' reported
      refine ⟨?_, .of_guards reported.toGuards guarded begun result⟩
      rw [← cautions]
      exact reported.remarks
    · exact fun _ _ _ _ answered => answered
  have begun : b.modules ≠ 0 := Nat.succ_ne_zero _
  rw [Located.assembleModule_eq]
  change Ends _ _ a ((if (b.table.variableOf? settings.resultName).isNone = true then
    declareVariable 1 settings.resultName >>= fun _ => Located.passes settings lines
    else Located.passes settings lines) b)
  split
  · next unknown =>
    have fresh : b.table.entry? (normalName settings.resultName) = none :=
      SymbolTable.entry?_eq_none unknown apart
    rcases declareVariable_fresh fresh with ⟨crash, failed⟩ | ⟨builder, place, table, added, ok⟩
    · rw [step_bind_error_iff.mpr (.inl failed)]
      exact ⟨⟨.refl _, entered⟩, .crash⟩
    · rw [step_bind_eq_of_ok ok]
      obtain ⟨-, rfl⟩ := SymbolTable.add_ok added
      refine passed ⟨fun _ => ?_, ?_⟩ begun entered.result rfl
      · exact ⟨_, mem_append_right _ mem_cons_self, rfl, entered.result.symm⟩
      · refine forall_mem_append.mpr ⟨entered.apart, forall_mem_singleton.mpr ?_⟩
        intro procedure
        contradiction
  · next known =>
    refine passed ⟨fun _ => ?_, entered.apart⟩ begun entered.result rfl
    rw [Option.isNone_iff_eq_none, ← ne_eq, Option.ne_none_iff_exists'] at known
    obtain ⟨s, found⟩ := known
    obtain ⟨found, data⟩ := Option.filter_eq_some_iff.mp found
    rw [Bool.not_eq_true'] at data
    have key : s.key = normalName settings.resultName := by simpa using find?_some found
    rw [Symbol.key, data] at key
    exact ⟨s, mem_of_find?_eq_some found, data, key.trans entered.result.symm⟩

theorem attemptModules_awaits (modules : List (List Text)) (awaits : a.Awaits settings) :
    (attemptModules settings modules a).2.Awaits settings := by
  induction modules generalizing a with
  | nil => exact awaits
  | cons lines rest ih =>
    have ends := assembleModule_reports lines awaits
    rw [attemptModules]
    cases result : Assembly.assembleModule settings lines a with
    | ok _ a' =>
      rw [result] at ends
      exact ih ends.awaits
    | error failure a' =>
      rw [result] at ends
      exact ih ends.1.awaits

end Awaits

/-- Whatever modules were assembled before, with or without success, the next one is assembled as
if every line were taken from the token at hand: that of the word that opens a procedure for its
header, that of its first token for a statement, and those of the tokens that each pass goes
through. So a fault is on one of the lines of the module, namely on the line of what is rejected,
unless it is a structure that is open at the end of a body. Every remark is made with the line of
the number, the call, the statement or the store that it is about. -/
theorem diagnostics_on_their_lines {settings : Settings} {earlier : List (List Text)}
    {lines : List Text} {a : Assembly} (some : lines ≠ [])
    (reached : (attemptModules settings earlier (start settings)).2 = a) :
    (∀ tokens, Reads settings lines tokens →
      Numbered 1 (tokens ++ [endToken lines]) ∧ Counts settings (endToken lines) tokens) ∧
    Assembly.assembleModule settings lines = Located.assembleModule settings lines ∧
    (∀ a', Assembly.assembleModule settings lines a = .ok () a' →
      Remarked settings lines a.cautions a'.cautions) ∧
    ∀ failure a', Assembly.assembleModule settings lines a = .error failure a' →
      Remarked settings lines a.cautions a'.cautions ∧
      ∀ line fault, failure = .fault line fault →
        1 ≤ line ∧ line ≤ lines.length ∧ Culprit settings lines a' line fault := by
  have awaits : a.Awaits settings := reached ▸ attemptModules_awaits earlier (start_awaits settings)
  have ends := assembleModule_reports lines awaits
  refine ⟨fun tokens read => ⟨(read.numbered some).1, read.counts⟩, assembleModule_eq .., ?_, ?_⟩
  · intro a' ok
    rw [ok] at ends
    exact ends.remarks
  · intro failure a' failed
    rw [failed] at ends
    obtain ⟨handed, answered⟩ := ends
    refine ⟨handed.remarks, fun line fault same => ?_⟩
    have culprit := answered line fault same
    obtain ⟨low, high⟩ := culprit.range some
    exact ⟨low, high, culprit⟩

/-- A module with a number that is too large, a local that is declared by a store, code behind a
return, a call with too many arguments, and a structure that is closed as another one. -/
def mixedLines : List Text :=
  ["proc $f(x)", "x + 300 > y", "endproc : x > x", "proc g()", "$f(1, 2)", "while(1#0)", "",
    "endif", "proc h()"]

/-- The failure of a module, and the lines of all remarks up to it. -/
def stopped? : EStateM.Result Failure Assembly Unit → Option (Failure × List (Warning × Int))
  | .error failure a => some (failure, a.cautions.map fun c => (c.warning, c.line))
  | .ok _ _ => none

theorem exists_error_of_stopped? {r : EStateM.Result Failure Assembly Unit} {failure : Failure}
    {remarks : List (Warning × Int)} (stopped : stopped? r = some (failure, remarks)) :
    ∃ a, r = .error failure a ∧ (a.cautions.map fun c => (c.warning, c.line)) = remarks := by
  cases r with
  | ok _ a => contradiction
  | error e a =>
    obtain ⟨rfl, same⟩ := Prod.mk.inj (Option.some.inj stopped)
    exact ⟨a, rfl, same⟩

/-- What a module leaves whose only header has no end. -/
def afterBadHeader : Assembly :=
  (attemptModules { wordSize := 1 } [["proc $f(x", "x"]] (start { wordSize := 1 })).2

theorem diagnostics_on_mixedLines :
    mixedLines ≠ [] ∧ ∃ a', Assembly.assembleModule { wordSize := 1 } mixedLines afterBadHeader =
        .error (.fault 8 (.mismatch .ifBlock (some .whileLoop))) a' ∧
      (a'.cautions.map fun c => (c.warning, c.line)) =
        [(.overflow, 2), (.implicitLocal, 2), (.unreachableCode, 3), (.argCount, 5)] ∧
      Remarked { wordSize := 1 } mixedLines afterBadHeader.cautions a'.cautions ∧
      Culprit { wordSize := 1 } mixedLines a' 8 (.mismatch .ifBlock (some .whileLoop)) := by
  have stopped : stopped? (Assembly.assembleModule { wordSize := 1 } mixedLines afterBadHeader) =
      some (.fault 8 (.mismatch .ifBlock (some .whileLoop)),
        [(.overflow, 2), (.implicitLocal, 2), (.unreachableCode, 3), (.argCount, 5)]) := by
    decide +kernel
  obtain ⟨a', failed, remarks⟩ := exists_error_of_stopped? stopped
  have some : mixedLines ≠ [] := by decide
  obtain ⟨-, -, -, errors⟩ := diagnostics_on_their_lines some (rfl : _ = afterBadHeader)
  obtain ⟨remarked, faults⟩ := errors _ a' failed
  exact ⟨some, a', failed, remarks, remarked, (faults _ _ rfl).2.2⟩

end HighAsm
