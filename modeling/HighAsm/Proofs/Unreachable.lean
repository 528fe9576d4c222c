import HighAsm.Proofs.Additions
import HighAsm.Proofs.Culprits

/-!
# Remarks on statements that are not reached

A return that stands outside all structures ends its procedure, whatever follows it in the text.
`Statement.reachable` finds it by counting how deep the statements of a body are inside structures.
The assembler knows this from the structures that it keeps open and remarks on the statement behind
such a return, once for each procedure and on the line where the statement begins.
-/

namespace HighAsm

open List Assembly

variable {blocks left : List OpenBlock}

/-! ## What follows a return -/

namespace Statement

/-- How deep a text is inside structures after a statement. -/
def depthAfter (depth : Nat) : Statement → Nat
  | .openIf _ _ | .openWhile _ _ | .openFor _ _ => depth + 1
  | .close _ => depth - 1
  | .ret | .eval _ | .call _ _ _ _ => depth

/-- The number of statements up to the first return outside all structures, which is included. -/
def reachable (depth : Nat) : List Statement → Nat
  | [] => 0
  | s :: rest =>
    if s = .ret ∧ depth = 0 then 1 else reachable (s.depthAfter depth) rest + 1

end Statement

/-- The statements of a body with the lines where they begin, after a number of tokens that belong
to the statement before. -/
def Located.sequence (scope : Scope) : Nat → List Token → Except Fault (List (Int × Statement))
  | _, [] => .ok []
  | skip + 1, _ :: rest => sequence scope skip rest
  | 0, t :: rest =>
    if t.lexeme = .endOfLine ∨ t.lexeme = .mark .colon then sequence scope 0 rest
    else do
      let (s, used) ← Statement.parse scope t.lexeme (rest.map (·.lexeme))
      return (t.line, s) :: (← sequence scope used rest)

/-- Without their lines they are the statements of the lexemes. -/
theorem Located.sequence_map (scope : Scope) (skip : Nat) (tokens : List Token) :
    (sequence scope skip tokens).map (·.map (·.2)) =
      Statement.sequence scope skip (tokens.map (·.lexeme)) := by
  induction tokens generalizing skip with
  | nil => cases skip <;> rfl
  | cons t rest ih =>
    cases skip with
    | succ skip => exact ih skip
    | zero =>
      rw [sequence, map_cons]
      by_cases newline : t.lexeme = .endOfLine
      · rw [if_pos (.inl newline), newline, Statement.sequence, ih]
      by_cases colon : t.lexeme = .mark .colon
      · rw [if_pos (.inr colon), colon, Statement.sequence, ih]
      rw [if_neg (not_or.mpr ⟨newline, colon⟩), Statement.sequence, map_bind]
      · congr 1
        funext read
        obtain ⟨s, used⟩ := read
        dsimp only
        rw [map_bind, ← ih]
        cases sequence scope used rest <;> rfl
      · exact newline
      · exact colon

/-- The statements that follow the first return outside all structures, with their lines. -/
def unreached (read : List (Int × Statement)) : List (Int × Statement) :=
  read.drop (Statement.reachable 0 (read.map (·.2)))

/-! ## Remarks -/

/-- The lines of the remarks on statements that are not reached. -/
def unreachedLines (cs : List Caution) : List Int :=
  (cs.filter (·.warning = .unreachableCode)).map (·.line)

/-- Remarks have been added, and those on statements that are not reached have the given lines. -/
def Warned (lines : List Int) (cs cs' : List Caution) : Prop :=
  ∃ added, cs' = cs ++ added ∧ unreachedLines added = lines

namespace Warned

variable {lines lines' : List Int} {cs cs' cs'' : List Caution}

theorem refl (cs : List Caution) : Warned [] cs cs := ⟨[], (append_nil cs).symm, rfl⟩

theorem add (cs added : List Caution) : Warned (unreachedLines added) cs (cs ++ added) :=
  ⟨added, rfl, rfl⟩

theorem append (first : Warned lines cs cs') (second : Warned lines' cs' cs'') :
    Warned (lines ++ lines') cs cs'' := by
  obtain ⟨added, rfl, rfl⟩ := first
  obtain ⟨more, rfl, rfl⟩ := second
  refine ⟨added ++ more, append_assoc .., ?_⟩
  simp only [unreachedLines, filter_append, map_append]

theorem other {added : List Caution} (others : ∀ c ∈ added, c.warning ≠ .unreachableCode) :
    Warned [] cs (cs ++ added) := by
  refine ⟨added, rfl, ?_⟩
  rw [unreachedLines, filter_eq_nil_iff.mpr (by simpa using others), map_nil]

end Warned

/-- No statement is said not to be reached. -/
def Unwarned (a a' : Assembly) : Prop := Warned [] a.cautions a'.cautions

theorem Unwarned.overlooks : Overlooks Unwarned :=
  ⟨fun a => .refl a.cautions, fun first second => first.append second,
    fun a _ _ => .refl a.cautions⟩

theorem remark_unwarned {c : Caution} (other : c.warning ≠ .unreachableCode) :
    Keeps Unwarned (remark c) :=
  .modify fun _ => .other (forall_mem_singleton.mpr other)

theorem readSource_unwarned (settings : Settings) (lines : List Text) :
    Keeps Unwarned (readSource settings lines) := by
  intro a lexemes a' ok
  obtain ⟨tokens, o, read, rfl⟩ := readSource_ok ok
  refine (readLines_always (R := fun o o' => Warned [] o.cautions o'.cautions)
    (A := fun _ _ => True) (fun o => .refl _) (fun first second => first.append second)
    (fun o _ => .refl _) (fun _ _ _ => trivial) (fun o line c => ?_) (fun _ _ => trivial) 0
    lines).of_ok read
  refine .other fun caution made => ?_
  obtain ⟨t, -, -, spelling, rfl⟩ := Scanner.scan_cautions settings line c caution made
  simp [Caution.overflow]

theorem prepare_unwarned (settings : Settings) (lines : List Text) :
    Keeps Unwarned (prepare settings lines) := by
  intro a sources a' ok
  have lax := Unwarned.overlooks
  exact prepare_keeps (a := a) lax.refl lax.trans lax.declareVariable
    (readSource_unwarned settings lines) ok

/-! ## Bodies -/

/-- The lines of the remarks that are due on the statements of a body from some point on. -/
def Assembly.Flow.due (flow : Flow) (depth : Nat) (read : List (Int × Statement)) : List Int :=
  let behind :=
    if flow.returned then if flow.remarked then [] else read
    else read.drop (Statement.reachable depth (read.map (·.2)))
  (behind.take 1).map (·.1)

theorem Assembly.Flow.due_nil (flow : Flow) (depth : Nat) : flow.due depth [] = [] := by
  simp [due]

/-- The structures that are open after a statement are as many as it says. -/
theorem statement_depth {s : Statement} {a a' : Assembly}
    (ok : statement blocks s a = .ok left a') :
    left.length = s.depthAfter blocks.length := by
  cases s with
  | ret | eval _ | call _ _ _ _ | openIf _ _ | openWhile _ _ | openFor _ _ =>
    cases ok
    rfl
  | close block =>
    obtain ⟨top, b, code, rfl, -⟩ := statement_close_ok ok
    rfl

/-- One statement makes the remark that is due on it, and leaves the others. -/
theorem Assembly.Flow.due_cons {flow : Flow} {line : Int} {s : Statement}
    {read : List (Int × Statement)} {depth : Nat} (open_ : left.length = s.depthAfter depth) :
    flow.due depth ((line, s) :: read) =
      unreachedLines (flow.unreachable line) ++ (flow.after s left).due left.length read := by
  obtain ⟨returned, remarked, ends⟩ := flow
  cases returned with
  | true => cases remarked <;> simp [due, unreachable, after, unreachedLines, Caution.unreachable]
  | false =>
    by_cases last : s = .ret ∧ depth = 0
    · obtain ⟨rfl, rfl⟩ := last
      obtain rfl := length_eq_zero_iff.mp open_
      simp [due, unreachable, after, unreachedLines, Statement.reachable]
    · have goesOn : (s == .ret && left.isEmpty) = false := by
        by_cases ret : s = .ret
        · subst ret
          have inside : left ≠ [] := by
            rintro rfl
            exact last ⟨rfl, open_.symm⟩
          simp [inside]
        · simp [ret]
      simp [due, unreachable, after, unreachedLines, Statement.reachable, last, goesOn, open_]

theorem statements_nil_unwarned {settings : Settings} {skip : Nat} {flow : Flow} :
    Keeps Unwarned (statements settings skip blocks flow []) := by
  have lax := Unwarned.overlooks
  cases blocks with
  | cons top others => exact fun _ _ _ ok => absurd ok fail_ne_ok
  | nil =>
    refine iteInduction (fun _ => .bind lax.trans (.get lax.refl) fun a => ?_) fun _ =>
      .pure lax.refl ()
    exact remark_unwarned (by simp [Caution.missingEndproc])

theorem Statement.caution?_other {s : Statement} {line : Int} :
    ∀ c ∈ (s.caution? line).toList, c.warning ≠ .unreachableCode := by
  unfold caution?
  split
  · split
    · simp
    · simp [Caution.argCount]
  · simp

/-- A body is read with the lines of its statements, and the remarks are made that are due. -/
theorem Located.statements_warned {settings : Settings} {next : Token} {skip : Nat} {flow : Flow}
    {tokens : List Token} {a a' : Assembly}
    (ok : statements settings next skip blocks flow tokens a = .ok () a') :
    ∃ read, sequence ⟨settings, a.table⟩ skip tokens = .ok read ∧
      Warned (flow.due blocks.length read) a.cautions a'.cautions := by
  induction tokens generalizing skip blocks flow a with
  | nil =>
    obtain ⟨_, b, lined, ok⟩ := step_bind_ok_iff.mp ok
    obtain rfl := step_modify_ok_iff.mp lined
    refine ⟨[], by rw [sequence], ?_⟩
    rw [flow.due_nil]
    have ended : Unwarned { a with line := next.line } a' := statements_nil_unwarned ok
    exact ended
  | cons t rest ih =>
    cases skip with
    | succ skip => exact ih ok
    | zero =>
      rw [statements] at ok
      rw [sequence]
      split at ok
      · next separator =>
        rw [if_pos separator]
        exact ih ok
      · next begins =>
        rw [if_neg begins]
        obtain ⟨step, a₁, stepped, ok⟩ := step_bind_ok_iff.mp ok
        cases parsed : Statement.parse ⟨settings, a.table⟩ t.lexeme (rest.map (·.lexeme)) with
        | error fault =>
          rw [statement_unparsed parsed] at stepped
          contradiction
        | ok found =>
          obtain ⟨s, used⟩ := found
          rw [statement_parsed parsed] at stepped
          obtain ⟨left, a₂, stated, returned⟩ := step_bind_ok_iff.mp stepped
          obtain ⟨rfl, rfl⟩ := step_pure_ok_iff.mp returned
          obtain ⟨read, later, warned⟩ := ih ok
          rw [(statement_follows stated).table] at later
          refine ⟨(t.line, s) :: read, bind_ok_iff.mpr ⟨_, rfl, ?_⟩, ?_⟩
          · exact bind_ok_iff.mpr ⟨read, later, rfl⟩
          · rw [Flow.due_cons (statement_depth stated)]
            have own : Warned [] _ a₂.cautions := Unwarned.overlooks.statement blocks s stated
            have other : Warned [] (a.cautions ++ flow.unreachable t.line)
                (a.cautions ++ flow.unreachable t.line ++ (s.caution? t.line).toList) :=
              .other s.caution?_other
            exact (Warned.add _ _).append ((other.append own).append warned)

/-! ## Procedures -/

/-- What becomes of one procedure: the state in which its statements begin, these statements with
their lines, and the state behind them. -/
structure Account where
  passage : Passage
  before : Assembly
  read : List (Int × Statement)
  after : Assembly

/-- The procedures of a module are assembled one after the other. -/
inductive Accounts (settings : Settings) :
    List Passage → Assembly → List Account → Assembly → Prop
  | nil (a : Assembly) : Accounts settings [] a [] a
  | cons {passage : Passage} {rest : List Passage} {a b c d a' : Assembly}
      {read : List (Int × Statement)} {accounts : List Account}
      (header : header settings passage.source.header { a with line := passage.opening.line } =
        .ok () b)
      (locals : declareLocals settings b.line passage.source.body b = .ok () c)
      (reads : Located.sequence ⟨settings, c.table⟩ 0 passage.body = .ok read)
      (body : statements settings 0 [] {} passage.source.body c = .ok () d)
      (others : Accounts settings rest d accounts a') :
      Accounts settings (passage :: rest) a (⟨passage, c, read, d⟩ :: accounts) a'

/-- The lines that are remarked on: in every procedure that of the first statement which is not
reached. -/
def Account.warnings (accounts : List Account) : List Int :=
  accounts.flatMap fun account => ((unreached account.read).take 1).map (·.1)

theorem Located.Counts.accounts {settings : Settings} {last : Token} {tokens : List Token}
    (counts : Counts settings last tokens) {passages : List Passage}
    (members : ∀ p ∈ passages, p ∈ Passage.all last tokens) {a a' : Assembly}
    (ok : Assembly.procedures settings (passages.map Passage.source) a = .ok () a') :
    ∃ accounts, Accounts settings passages a accounts a' ∧
      Warned (Account.warnings accounts) a.cautions a'.cautions := by
  induction passages generalizing a with
  | nil =>
    obtain ⟨-, rfl⟩ := step_pure_ok_iff.mp ok
    exact ⟨[], .nil a, .refl _⟩
  | cons passage rest ih =>
    obtain ⟨here, later⟩ := forall_mem_cons.mp members
    replace ok := step_modify_ok ok
    obtain ⟨_, b, headed, ok⟩ := step_bind_ok_iff.mp ok
    obtain ⟨_, d, bodied, ok⟩ := step_bind_ok_iff.mp ok
    replace bodied := step_get_ok bodied
    obtain ⟨_, c, locals, body⟩ := step_bind_ok_iff.mp bodied
    obtain ⟨accounts, others, warned⟩ := ih later ok
    -- The line that the assembler counts is still that of the header when the statements begin.
    have line : c.line = passage.opening.line :=
      (SameLine.declareLocals _ _ _ locals).trans (SameLine.overlooks.header _ _ headed)
    have located := body
    rw [counts.statements passage here c line] at located
    obtain ⟨read, reads, own⟩ := Located.statements_warned located
    refine ⟨_, .cons headed locals reads body others, ?_⟩
    have before : Warned [] a.cautions c.cautions :=
      Unwarned.overlooks.trans (a := { a with line := passage.source.line })
        (Unwarned.overlooks.header _ _ headed)
        (Unwarned.overlooks.declareLocals
          (fun _ _ => remark_unwarned (by simp [Caution.implicitLocal])) _ _ _ locals)
    exact (before.append own).append warned

/-- The procedures of a module as they are assembled, and the states before and after the module. -/
inductive ModuleAccounts (settings : Settings) (lines : List Text) (a : Assembly)
    (accounts : List Account) : Assembly → Prop
  | intro {tokens : List Token} {b c : Assembly} (read : Located.Reads settings lines tokens)
      (prepared : prepare settings lines a =
        .ok ((Passage.all (Located.endToken lines) tokens).map Passage.source) b)
      (written : Accounts settings (Passage.all (Located.endToken lines) tokens) b accounts c) :
      ModuleAccounts settings lines a accounts { c with table := c.table.closeModule }

theorem prepare_reads {settings : Settings} {lines : List Text} {sources : List ProcedureSource}
    {a a' : Assembly} (ok : prepare settings lines a = .ok sources a') :
    ∃ tokens, Located.Reads settings lines tokens ∧
      sources = (Passage.all (Located.endToken lines) tokens).map Passage.source := by
  obtain ⟨a₁, a₂, lexemes, -, read, -, rfl⟩ := prepare_steps ok
  rw [Located.readSource_eq] at read
  obtain ⟨tokens, _, taken, returned⟩ := step_bind_ok_iff.mp read
  cases returned
  have reads := Located.readTokens_ok taken
  exact ⟨tokens, reads, reads.counts.sources⟩

/-- A module that is assembled has remarks on statements that are not reached just where its
procedures ask for them. -/
theorem assembleModule_accounts {settings : Settings} {lines : List Text} {a a' : Assembly}
    (ok : assembleModule settings lines a = .ok () a') :
    ∃ accounts, ModuleAccounts settings lines a accounts a' ∧
      Warned (Account.warnings accounts) a.cautions a'.cautions := by
  obtain ⟨sources, b, c, prepared, written, rfl⟩ := assembleModule_ok_iff.mp ok
  obtain ⟨tokens, read, rfl⟩ := prepare_reads prepared
  obtain ⟨accounts, steps, warned⟩ := read.counts.accounts (fun _ member => member) written
  refine ⟨accounts, .intro read prepared steps, ?_⟩
  have before : Warned [] a.cautions b.cautions := prepare_unwarned settings lines prepared
  exact before.append warned

/-! ## Warnings -/

/-- The lines of the warnings of one kind, in the order in which they were issued. -/
def WarningLog.linesOf (log : WarningLog) (w : Warning) : List Int :=
  (log.issued.filter (·.1 = w)).map (·.2)

theorem WarningLog.addAll_issued (settings : Settings) (log : WarningLog) (cs : List Caution) :
    (log.addAll settings cs).issued =
      log.issued ++ (cs.filter (settings.warns ·.warning)).map fun c => (c.warning, c.line) := by
  induction cs generalizing log with
  | nil => simp [addAll]
  | cons c rest ih =>
    refine (ih _).trans ?_
    by_cases asked : settings.warns c.warning
    · simp [add, asked]
    · simp [add, asked]

/-- Where warnings of this kind are asked for, every remark on a statement that is not reached is
issued as one. -/
theorem Warned.linesOf {settings : Settings} {lines : List Int} {cs cs' : List Caution}
    (warned : Warned lines cs cs') (asked : settings.warns .unreachableCode)
    (file? : Option SourceFile) :
    (({ file? := file? } : WarningLog).addAll settings (cs'.drop cs.length)).linesOf
      .unreachableCode = lines := by
  obtain ⟨added, rfl, rfl⟩ := warned
  rw [drop_left, WarningLog.linesOf, WarningLog.addAll_issued]
  simp only [nil_append, filter_map, filter_filter, map_map, unreachedLines]
  refine congrArg (List.map _) (filter_congr fun c _ => ?_)
  by_cases own : c.warning = .unreachableCode
  · simp [own, asked]
  · simp [own]

end HighAsm
