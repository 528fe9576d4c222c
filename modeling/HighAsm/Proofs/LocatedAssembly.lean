import HighAsm.Proofs.Robustness
import HighAsm.Proofs.TokenLines

/-!
# The assembler without counters

The assembler does not look at the lines of tokens, but counts lines on its own, once for each pass
over a module: where it looks for globals, where it divides the module into procedures, and where it
goes through a body for its locals and for its statements. `Located` is the assembler without any
counting, which takes every line from the token at hand. On numbered tokens the two are the same.
-/

namespace HighAsm

open List Assembly

/-! ## Steps that stay on a line -/

/-- A relation between states looks at neither the program nor the names. -/
structure Overlooks (R : Assembly → Assembly → Prop) : Prop where
  refl : ∀ a, R a a
  trans : ∀ {a b c}, R a b → R b c → R a c
  changed : ∀ (a : Assembly) (builder : Builder) (table : SymbolTable),
    R a { a with builder := builder, table := table }

namespace Overlooks

variable {R : Assembly → Assembly → Prop} (lax : Overlooks R)
include lax

theorem declareVariable (line : Int) (name : String) : Keeps R (declareVariable line name) := by
  intro a _ a' ok
  obtain ⟨place, a₁, given, entered⟩ := step_bind_ok_iff.mp ok
  obtain ⟨b, -, -, -, -, rfl⟩ := allocWord_ok given
  obtain ⟨table, -, rfl⟩ := declare_ok entered
  exact lax.changed a b table

theorem declareLocals (remark_ : ∀ line name, Keeps R (remark (.implicitLocal line name)))
    (settings : Settings) (line : Int) (lexemes : List Lexeme) :
    Keeps R (declareLocals settings line lexemes) :=
  declareLocals_composed (Keeps.composes lax.refl lax.trans) lax.declareVariable remark_ settings
    line lexemes

theorem statement (blocks : List OpenBlock) (s : Statement) :
    Keeps R (Assembly.statement blocks s) := by
  intro a left a' ok
  rw [statement_ok_eq ok]
  exact lax.changed a _ a.table

theorem header (settings : Settings) (lexemes : List Lexeme) :
    Keeps R (header settings lexemes) := by
  intro a _ a' ok
  obtain ⟨name, names, base, b, table, -, -, declared, -, rfl⟩ := header_ok ok
  have begun : R a (a.begun name names.length) := lax.changed a _ _
  have params : R (a.begun name names.length) b :=
    declareParams_keeps lax.refl lax.trans lax.declareVariable
      (fun a _ => lax.changed a _ a.table) _ _ _ declared
  exact lax.trans (lax.trans begun params) (lax.changed b b.builder table)

end Overlooks

/-- The current line is the same. -/
def SameLine (a a' : Assembly) : Prop := a'.line = a.line

theorem SameLine.overlooks : Overlooks SameLine :=
  ⟨fun _ => rfl, fun first second => Eq.trans second first, fun _ _ _ => rfl⟩

theorem SameLine.declareLocals (settings : Settings) (line : Int) (lexemes : List Lexeme) :
    Keeps SameLine (declareLocals settings line lexemes) :=
  overlooks.declareLocals (fun _ _ => .modify fun _ => rfl) settings line lexemes

/-! ## The assembler without counters -/

/-- The remark on a statement behind a return. -/
def Assembly.Flow.unreachable (flow : Flow) (line : Int) : List Caution :=
  if flow.returned && !flow.remarked then [.unreachable line] else []

/-- Makes some remarks. -/
def Assembly.remarks (cs : List Caution) : Asm Unit :=
  modify fun a => { a with cautions := a.cautions ++ cs }

namespace Located

variable {tokens : List Token} {settings : Settings} {line : Int} {lines : List Text}

/-- The token at the end of a module. -/
def endToken (lines : List Text) : Token := ⟨.endOfFile, lines.length, 0, 0⟩

/-- Reads the source lines of a module. -/
def readTokens (settings : Settings) (lines : List Text) : Asm (List Token) := fun a =>
  match Source.read settings lines ⟨a.builder, a.cautions⟩ with
  | .ok tokens o => .ok tokens { a with builder := o.builder, cautions := o.cautions }
  | .error failure o => .error failure { a with builder := o.builder, cautions := o.cautions }

/-- Gives a global variable its storage, if a lexeme between two others is the first to name it, and
rejects code before the first procedure. -/
def declareGlobal (before : Option Lexeme) (inside : Bool) (line : Int) (l : Lexeme)
    (behind : Option Lexeme) : Asm Unit := do
  if !inside && l != .mark .colon && l != .endOfFile then
    throw (.fault line (.codeOutsideProcedure l.spelling))
  match l with
  | .ident name =>
    if isGlobalName name && behind != some (.mark .lparen)
        && before != some (.keyword .proc) && ((← get).table.variableOf? name).isNone then
      declareVariable line name
  | _ => pure ()

/-- Goes through a module for its global variables. -/
def declareGlobals (before : Option Lexeme) (inside : Bool) : List Token → Asm Unit
  | [] => pure ()
  | t :: rest =>
    if t.lexeme = .endOfLine then declareGlobals (some .endOfLine) inside rest
    else do
      declareGlobal before (inside || t.lexeme == .keyword .proc) t.line t.lexeme
        (rest.head?.map (·.lexeme))
      declareGlobals (some t.lexeme) (inside || t.lexeme == .keyword .proc) rest

/-- Gives a local variable its storage, if a lexeme stores to it and it is not known. -/
def declareLocal (settings : Settings) (line : Int) (l : Lexeme) (rest : List Lexeme) : Asm Unit :=
  match l, rest with
  | .mark .store, .ident name :: more => do
    if !isGlobalName name && !more.head?.any startsOffset
        && ((← get).table.variableOf? name).isNone && settings.features .implicitLocals then
      declareVariable line name
      remark (.implicitLocal line name)
  | _, _ => pure ()

/-- Goes through a body for its local variables. -/
def declareLocals (settings : Settings) : List Token → Asm Unit
  | [] => pure ()
  | t :: rest => do
    declareLocal settings t.line t.lexeme (rest.map (·.lexeme))
    declareLocals settings rest

/-- Reads and assembles the statement that begins with a token, on the line of the token. The result
says how many tokens behind it belong to the statement, and what is open and known after it. -/
def statement (settings : Settings) (blocks : List OpenBlock) (flow : Flow) (t : Token)
    (rest : List Token) : Asm (Nat × List OpenBlock × Flow) := do
  modify fun a => { a with line := t.line }
  remarks (flow.unreachable t.line)
  let read ← check (Statement.parse ⟨settings, (← get).table⟩ t.lexeme (rest.map (·.lexeme)))
  remarks (read.1.caution? t.line).toList
  let left ← Assembly.statement blocks read.1
  return (read.2, left, flow.after read.1 left)

/-- Goes through a body for its statements, after a number of tokens that belong to the statement
before. The end of the body is on the line of the token behind it. -/
def statements (settings : Settings) (next : Token) :
    Nat → List OpenBlock → Flow → List Token → Asm Unit
  | _, blocks, flow, [] => do
    modify fun a => { a with line := next.line }
    Assembly.statements settings 0 blocks flow []
  | skip + 1, blocks, flow, _ :: rest => statements settings next skip blocks flow rest
  | 0, blocks, flow, t :: rest =>
    if t.lexeme = .endOfLine ∨ t.lexeme = .mark .colon then
      statements settings next 0 blocks flow rest
    else do
      let step ← statement settings blocks flow t rest
      statements settings next step.1 step.2.1 step.2.2 rest

/-- Assembles procedures in order. -/
def procedures (settings : Settings) : List Passage → Asm Unit
  | [] => pure ()
  | p :: rest => do
    modify fun a => { a with line := p.opening.line }
    header settings p.source.header
    declareLocals settings p.body
    statements settings p.next 0 [] {} p.body
    procedures settings rest

/-- Reads a module and goes through it for its globals and for its procedures. -/
def passes (settings : Settings) (lines : List Text) : Asm Unit := do
  let tokens ← readTokens settings lines
  declareGlobals none false tokens
  procedures settings (Passage.all (endToken lines) tokens)
  modify fun a => { a with table := a.table.closeModule }

/-- Assembles a module. -/
def assembleModule (settings : Settings) (lines : List Text) : Asm Unit := do
  modify enterModule
  if ((← get).table.variableOf? settings.resultName).isNone then
    declareVariable 1 settings.resultName
  passes settings lines

/-! ## Counting is the same -/

theorem readSource_eq (settings : Settings) (lines : List Text) :
    readSource settings lines = (do return (← readTokens settings lines).map (·.lexeme)) := by
  funext a
  unfold readSource
  cases read : Source.read settings lines ⟨a.builder, a.cautions⟩ with
  | ok tokens o =>
    have same : readTokens settings lines a =
        .ok tokens { a with builder := o.builder, cautions := o.cautions } := by
      rw [readTokens, read]
    rw [step_bind_eq_of_ok same]
    rfl
  | error failure o =>
    have same : readTokens settings lines a =
        .error failure { a with builder := o.builder, cautions := o.cautions } := by
      rw [readTokens, read]
    rw [step_bind_error_iff.mpr (.inl same)]

theorem declareGlobals_cons {before : Option Lexeme} {inside : Bool} {l : Lexeme}
    {rest : List Lexeme} (notLine : l ≠ .endOfLine) :
    Assembly.declareGlobals before inside line (l :: rest) = (do
      declareGlobal before (inside || l == .keyword .proc) line l rest.head?
      Assembly.declareGlobals (some l) (inside || l == .keyword .proc) line rest) := by
  rw [Assembly.declareGlobals]
  · unfold declareGlobal
    split
    · rfl
    · cases l with
      | ident name =>
        simp only [bind_assoc]
        congr 1
        funext a
        split
        · rfl
        · rfl
      | endOfFile | endOfLine | number _ | keyword _ | mark _ => rfl
  · exact notLine

theorem declareGlobals_eq {before : Option Lexeme} {inside : Bool}
    (numbered : Numbered line tokens) :
    Assembly.declareGlobals before inside line (tokens.map (·.lexeme)) =
      declareGlobals before inside tokens := by
  induction tokens generalizing before inside line with
  | nil => rfl
  | cons t rest ih =>
    obtain ⟨rfl, later⟩ := numbered
    rw [map_cons, declareGlobals]
    by_cases newline : t.lexeme = .endOfLine
    · rw [newline, Lexeme.lineAfter, if_pos rfl] at later
      rw [if_pos newline, newline, Assembly.declareGlobals]
      exact ih later
    · rw [Lexeme.lineAfter_of_ne newline] at later
      rw [if_neg newline, declareGlobals_cons newline, head?_map, ih later]

theorem declareLocals_cons (settings : Settings) (line : Int) (l : Lexeme) (rest : List Lexeme) :
    Assembly.declareLocals settings line (l :: rest) = (do
      declareLocal settings line l rest
      Assembly.declareLocals settings (l.lineAfter line) rest) := by
  by_cases newline : l = .endOfLine
  · subst newline
    rfl
  rw [Lexeme.lineAfter_of_ne newline]
  by_cases store : l = .mark .store
  · subst store
    by_cases named : ∃ name more, rest = .ident name :: more
    · obtain ⟨name, more, rfl⟩ := named
      rw [Assembly.declareLocals]
      simp only [declareLocal, bind_assoc]
      congr 1
      funext a
      split
      · simp only [bind_assoc]
      · rfl
    · rw [Assembly.declareLocals]
      · unfold declareLocal
        split
        · exact absurd ⟨_, _, rfl⟩ named
        · rfl
      · exact fun _ _ same => named ⟨_, _, same⟩
  · rw [Assembly.declareLocals]
    · unfold declareLocal
      split
      · exact absurd rfl store
      · rfl
    · exact newline
    · exact store

theorem declareLocals_eq (numbered : Numbered line tokens) :
    Assembly.declareLocals settings line (tokens.map (·.lexeme)) =
      declareLocals settings tokens := by
  induction tokens generalizing line with
  | nil => rfl
  | cons t rest ih =>
    obtain ⟨rfl, later⟩ := numbered
    rw [map_cons, declareLocals, declareLocals_cons, ih later]

section Statements

variable {settings : Settings} {blocks : List OpenBlock} {flow : Flow} {t : Token}
  {rest : List Token} {a : Assembly}

theorem cautions_eq (flow : Flow) (a : Assembly) :
    flow.cautions a = a.cautions ++ flow.unreachable a.line := by
  unfold Flow.cautions Flow.unreachable
  split
  · rfl
  · rw [append_nil]

theorem statement_unparsed {fault : Fault}
    (rejected : Statement.parse ⟨settings, a.table⟩ t.lexeme (rest.map (·.lexeme)) =
      .error fault) :
    statement settings blocks flow t rest a =
      .error (.fault t.line fault)
        { a with line := t.line, cautions := a.cautions ++ flow.unreachable t.line } := by
  refine (step_bind_eq_of_ok rfl).trans ((step_bind_eq_of_ok rfl).trans ?_)
  refine step_get_bind.trans ?_
  refine step_bind_error_iff.mpr (.inl ?_)
  rw [rejected]
  rfl

theorem statement_parsed {s : Statement} {used : Nat}
    (parsed : Statement.parse ⟨settings, a.table⟩ t.lexeme (rest.map (·.lexeme)) =
      .ok (s, used)) :
    statement settings blocks flow t rest a =
      (Assembly.statement blocks s >>= fun left => pure (used, left, flow.after s left))
      { a with
        line := t.line
        cautions := a.cautions ++ flow.unreachable t.line ++ (s.caution? t.line).toList } := by
  refine (step_bind_eq_of_ok rfl).trans ((step_bind_eq_of_ok rfl).trans ?_)
  refine step_get_bind.trans ?_
  refine (step_bind_eq_of_ok (check_ok_iff.mpr ⟨parsed, rfl⟩)).trans ?_
  exact step_bind_eq_of_ok rfl

end Statements

/-- The line that is counted along a body is that of the first token of every statement, and at the
end that of the token behind the body. -/
theorem statements_eq {next : Token} {skip : Nat} {blocks : List OpenBlock} {flow : Flow}
    {a : Assembly} (numbered : Numbered line (tokens ++ [next]))
    (inline : .endOfLine ∉ (tokens.map (·.lexeme)).take skip) :
    Assembly.statements settings skip blocks flow (tokens.map (·.lexeme)) { a with line := line } =
      statements settings next skip blocks flow tokens a := by
  induction tokens generalizing skip blocks flow line a with
  | nil =>
    obtain ⟨rfl, -⟩ := numbered
    have ended : Assembly.statements settings skip blocks flow [] =
        Assembly.statements settings 0 blocks flow [] := by
      cases skip <;> rfl
    exact (step_bind_eq_of_ok rfl).symm
  | cons t rest ih =>
    obtain ⟨rfl, later⟩ := numbered
    rw [map_cons] at inline ⊢
    cases skip with
    | succ skip =>
      rw [take_succ_cons, mem_cons, not_or] at inline
      rw [Lexeme.lineAfter_of_ne (Ne.symm inline.1)] at later
      exact ih later inline.2
    | zero =>
      have none {lexemes : List Lexeme} : .endOfLine ∉ lexemes.take 0 := by simp
      rw [statements]
      by_cases newline : t.lexeme = .endOfLine
      · rw [newline, Lexeme.lineAfter, if_pos rfl] at later
        rw [if_pos (.inl newline), newline, ← ih later none]
        rfl
      by_cases colon : t.lexeme = .mark .colon
      · rw [Lexeme.lineAfter_of_ne newline] at later
        rw [if_pos (.inr colon), colon, ← ih later none]
        rfl
      rw [Lexeme.lineAfter_of_ne newline] at later
      rw [if_neg (not_or.mpr ⟨newline, colon⟩)]
      cases parsed : Statement.parse ⟨settings, a.table⟩ t.lexeme (rest.map (·.lexeme)) with
      | error fault =>
        rw [statements_unparsed_eq (a := { a with line := t.line }) newline colon parsed,
          cautions_eq, step_bind_error_iff.mpr (.inl (statement_unparsed parsed))]
      | ok read =>
        obtain ⟨s, used⟩ := read
        rw [statements_parsed_eq (a := { a with line := t.line }) newline colon parsed, cautions_eq,
          step_bind_congr (statement_parsed parsed), bind_assoc]
        refine step_next_congr fun left a' stated => ?_
        have same : a'.line = t.line := SameLine.overlooks.statement blocks s stated
        rw [pure_bind, ← ih later (Statement.parse_extent parsed).2.2, ← same]

/-- Every pass over the tokens of a module counts the lines that they carry: the one for globals,
the division into procedures, and in every body the ones for locals and for statements. -/
structure Counts (settings : Settings) (last : Token) (tokens : List Token) : Prop where
  globals : Assembly.declareGlobals none false 1 (tokens.map (·.lexeme)) =
    declareGlobals none false tokens
  sources : ProcedureSource.all (tokens.map (·.lexeme)) =
    (Passage.all last tokens).map Passage.source
  locals : ∀ p ∈ Passage.all last tokens,
    Assembly.declareLocals settings p.opening.line p.source.body = declareLocals settings p.body
  statements : ∀ p ∈ Passage.all last tokens, ∀ a : Assembly, a.line = p.opening.line →
    Assembly.statements settings 0 [] {} p.source.body a =
      statements settings p.next 0 [] {} p.body a

theorem counts_of_numbered {last : Token} (numbered : Numbered 1 (tokens ++ [last])) :
    Counts settings last tokens := by
  obtain ⟨sources, passages⟩ := Passage.all_source numbered
  refine ⟨declareGlobals_eq numbered.left, sources, fun p member => ?_, fun p member a same => ?_⟩
  · exact declareLocals_eq (passages p member).left
  · have counted : Assembly.statements settings 0 [] {} p.source.body
        { a with line := p.opening.line } = statements settings p.next 0 [] {} p.body a :=
      statements_eq (passages p member) (by rw [take_zero]; exact not_mem_nil)
    rw [← same] at counted
    exact counted

namespace Counts

variable {settings : Settings} {last : Token} {tokens : List Token}

theorem body (counts : Counts settings last tokens) {p : Passage}
    (member : p ∈ Passage.all last tokens) {a : Assembly} (same : a.line = p.opening.line) :
    Assembly.body settings p.source.body a = (do
      declareLocals settings p.body
      Located.statements settings p.next 0 [] {} p.body) a := by
  refine step_get_bind.trans ?_
  rw [same, counts.locals p member]
  refine step_next_congr fun _ a' declared => counts.statements p member a' ?_
  rw [← counts.locals p member] at declared
  have kept : a'.line = a.line := SameLine.declareLocals _ _ _ declared
  exact kept.trans same

theorem procedures (counts : Counts settings last tokens) {passages : List Passage}
    (members : ∀ p ∈ passages, p ∈ Passage.all last tokens) :
    Assembly.procedures settings (passages.map Passage.source) =
      Located.procedures settings passages := by
  induction passages with
  | nil => rfl
  | cons p rest ih =>
    obtain ⟨here, later⟩ := forall_mem_cons.mp members
    rw [map_cons, Assembly.procedures, Located.procedures, ih later]
    funext a
    refine step_next_congr fun _ b opened => step_next_congr fun _ c headed => ?_
    obtain rfl := step_modify_ok_iff.mp opened
    have same : c.line = p.opening.line := SameLine.overlooks.header settings _ headed
    rw [step_bind_congr (counts.body here same), bind_assoc]

end Counts

/-- The lines of a module may be read as some tokens. -/
def Reads (settings : Settings) (lines : List Text) (tokens : List Token) : Prop :=
  ∃ o o' : Source.Output, Source.read settings lines o = .ok tokens o'

theorem readTokens_ok {a a' : Assembly} (ok : readTokens settings lines a = .ok tokens a') :
    Reads settings lines tokens := by
  unfold readTokens at ok
  split at ok
  · next read =>
    cases ok
    exact ⟨_, _, read⟩
  · contradiction

/-- The tokens of a module are numbered from its first line on, and each is on one of its lines. -/
theorem Reads.numbered (read : Reads settings lines tokens) (some : lines ≠ []) :
    Numbered 1 (tokens ++ [endToken lines]) ∧ ∀ t ∈ tokens, 1 ≤ t.line ∧ t.line ≤ lines.length := by
  obtain ⟨o, o', ok⟩ := read
  obtain ⟨front, _, read, ended⟩ := step_bind_ok_iff.mp ok
  cases ended
  have last : Numbered (0 + lines.length : Nat) [endToken lines, endToken lines] := by
    simp [Numbered, endToken, Lexeme.lineAfter]
  obtain ⟨numbered, range⟩ := Source.readLines_numbered some read last
  refine ⟨by rw [append_assoc]; exact numbered, ?_⟩
  have positive : 0 < lines.length := length_pos_iff.mpr some
  refine forall_mem_append.mpr ⟨fun t member => ?_, forall_mem_singleton.mpr ?_⟩
  · simpa using range t member
  · dsimp only
    omega

/-- Every line that is counted is the line of the token at hand. Without any source line there is
nothing but the end of the file, which no pass looks at. -/
theorem Reads.counts (read : Reads settings lines tokens) :
    Counts settings (endToken lines) tokens := by
  by_cases none : lines = []
  · subst none
    obtain ⟨o, o', ok⟩ := read
    cases ok
    exact ⟨rfl, rfl, forall_mem_nil _, forall_mem_nil _⟩
  · exact counts_of_numbered (read.numbered none).1

/-- The assembler that counts lines and the one that does not are the same. -/
theorem assembleModule_eq (settings : Settings) (lines : List Text) :
    Assembly.assembleModule settings lines = assembleModule settings lines := by
  have counted : (do
      let lexemes ← readSource settings lines
      Assembly.declareGlobals none false 1 lexemes
      Assembly.procedures settings (ProcedureSource.all lexemes)
      modify fun a => { a with table := a.table.closeModule }) = passes settings lines := by
    rw [readSource_eq, bind_assoc]
    funext a
    refine step_next_congr fun tokens b read => ?_
    have counts : Counts settings (endToken lines) tokens := (readTokens_ok read).counts
    rw [pure_bind, counts.globals, counts.sources, counts.procedures fun _ member => member]
  unfold Assembly.assembleModule assembleModule
  simp only [counted]
  rfl

end Located

end HighAsm
