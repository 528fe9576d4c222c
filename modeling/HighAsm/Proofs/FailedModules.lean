import HighAsm.Proofs.Robustness

/-!
# What a failed module leaves

A statement is checked as a whole before any of it is written, so one that fails has written
nothing. A module that fails has therefore written just its headers and statements up to the one
that failed. Only a header can fail after it has begun to write: if the name of one of its
parameters or its own name is taken, the procedure was begun, and the parameters before were stored.
-/

namespace HighAsm

open Assembly

/-- Of the program nothing but its data and its string constants has changed. -/
def SameCode (a a' : Assembly) : Prop :=
  ∃ data strings, a'.builder.program = { a.builder.program with data := data, strings := strings }

namespace SameCode

variable {a a' : Assembly}

theorem of_builder (same : a'.builder = a.builder) : SameCode a a' := ⟨_, _, by rw [same]⟩

theorem refl (a : Assembly) : SameCode a a := of_builder rfl

end SameCode

section Preparing

variable (settings : Settings) (lines : List Text)

/-- Everything before the procedures of a module declares variables and stores constants, from the
state on in which it begins. -/
theorem prepare_declarative (a : Assembly) :
    Ends Declares (fun _ _ => True) a.enterModule (prepare settings lines a) := by
  obtain ⟨x, declarative, same⟩ := prepare_composed (Always.composes Declares.refl .trans _)
    (fun line name => (declareVariable_always line name).weaken) (fun _ _ a => ⟨.refl a, trivial⟩)
    (readSource_blames lines).weaken
  rw [same]
  exact declarative a.enterModule

theorem prepare_silent : Always SameCode (fun _ _ => True) (prepare settings lines) :=
  fun a => (prepare_declarative settings lines a).imp (fun _ declares => declares.program)
    fun _ _ _ _ => id

end Preparing

/-! ## Statements -/

/-- A code generator was asked for nothing but addresses. -/
inductive Queried {γ : Type} [CodeGenerator γ] : γ → γ → Prop
  | refl (g : γ) : Queried g g
  | address {g g' : γ} (later : Queried (CodeGenerator.address g).2 g') : Queried g g'

theorem Queried.trans {γ : Type} [CodeGenerator γ] {f g h : γ} (first : Queried f g)
    (second : Queried g h) : Queried f h := by
  induction first with
  | refl => exact second
  | address _ ih => exact .address (ih second)

/-- The address of a builder is read off and changes nothing. -/
theorem Queried.eq {b b' : Builder} (queried : Queried b b') : b' = b := by
  induction queried with
  | refl => rfl
  | address _ ih => exact ih

section Checking

variable {γ α β : Type}

/-- A step that finds no fault. -/
def Faultless (x : AsmOf γ α) : Prop := ∀ a line fault a', x a ≠ .error (.fault line fault) a'

theorem Faultless.bind {x : AsmOf γ α} {next : α → AsmOf γ β} (first : Faultless x)
    (second : ∀ r, Faultless (next r)) : Faultless (x >>= next) := by
  intro a line fault a' failed
  rcases step_bind_error_iff.mp failed with failed | ⟨r, b, -, failed⟩
  · exact first a line fault a' failed
  · exact second r b line fault a' failed

theorem faultless_pure (r : α) : Faultless (pure r : AsmOf γ α) := by
  intro a line fault a' failed
  contradiction

theorem faultless_get : Faultless (get : AsmOf γ (Assembly γ)) := by
  intro a line fault a' failed
  contradiction

theorem faultless_modify (f : Assembly γ → Assembly γ) : Faultless (modify f : AsmOf γ Unit) := by
  intro a line fault a' failed
  contradiction

theorem faultless_build (x : Except Crash α) : Faultless (build x : AsmOf γ α) := by
  intro a line fault a' failed
  cases x with
  | error crash => cases failed
  | ok r => cases failed

theorem faultless_forM {next : α → AsmOf γ PUnit} (each : ∀ r, Faultless (next r)) (rs : List α) :
    Faultless (rs.forM next) := by
  induction rs with
  | nil => exact faultless_pure _
  | cons r rest ih => exact .bind (each r) fun _ => ih

variable [CodeGenerator γ]

theorem faultless_position : Faultless (position : AsmOf γ Int) :=
  .bind faultless_get fun _ => .bind (faultless_modify _) fun _ => faultless_pure _

theorem faultless_request (r : Request) : Faultless (request r : AsmOf γ Unit) :=
  .bind faultless_get fun _ => .bind (faultless_build _) fun _ => faultless_modify _

theorem faultless_write (code : List Instr) : Faultless (write code : AsmOf γ Unit) :=
  faultless_forM (fun _ => faultless_request _) code

/-- Nothing was asked for but addresses, and the table and the line are as they were. -/
structure Unwritten (a a' : Assembly γ) : Prop where
  queried : Queried a.builder a'.builder
  table : a'.table = a.table
  line : a'.line = a.line

theorem Unwritten.refl (a : Assembly γ) : Unwritten a a := ⟨.refl _, rfl, rfl⟩

theorem Unwritten.trans {a b c : Assembly γ} (first : Unwritten a b) (second : Unwritten b c) :
    Unwritten a c :=
  ⟨first.queried.trans second.queried, second.table.trans first.table,
    second.line.trans first.line⟩

/-- A step that finds a fault does so on its line, and has written nothing up to there. -/
def Checks (x : AsmOf γ α) : Prop :=
  ∀ a line fault a', x a = .error (.fault line fault) a' → Unwritten a a' ∧ line = a.line

/-- A step that is quiet whether or not it finds a fault. -/
structure Probes (x : AsmOf γ α) : Prop where
  checks : Checks x
  quiet : ∀ a r a', x a = .ok r a' → Unwritten a a'

theorem Faultless.checks {x : AsmOf γ α} (faultless : Faultless x) : Checks x :=
  fun a line fault a' failed => absurd failed (faultless a line fault a')

namespace Checks

variable {x : AsmOf γ α} {next : α → AsmOf γ β}

/-- What comes behind the faults of a step may write. -/
theorem bind (first : Checks x) (second : ∀ r, Faultless (next r)) : Checks (x >>= next) := by
  intro a line fault a' failed
  rcases step_bind_error_iff.mp failed with failed | ⟨r, b, -, failed⟩
  · exact first a line fault a' failed
  · exact absurd failed (second r b line fault a')

/-- What comes behind a quiet step may still find faults. -/
theorem behind (first : Probes x) (second : ∀ r, Checks (next r)) : Checks (x >>= next) := by
  intro a line fault a' failed
  rcases step_bind_error_iff.mp failed with failed | ⟨r, b, ok, failed⟩
  · exact first.checks a line fault a' failed
  · have before := first.quiet a r b ok
    obtain ⟨after, rfl⟩ := second r b line fault a' failed
    exact ⟨before.trans after, before.line⟩

end Checks

theorem probes_get : Probes (get : AsmOf γ (Assembly γ)) := by
  refine ⟨faultless_get.checks, fun a r a' ok => ?_⟩
  cases ok
  exact .refl a

theorem probes_position : Probes (position : AsmOf γ Int) := by
  refine ⟨faultless_position.checks, fun a r a' ok => ?_⟩
  cases ok
  exact ⟨.address (.refl _), rfl, rfl⟩

theorem probes_fail (fault : Fault) : Probes (fail fault : AsmOf γ α) := by
  refine ⟨fun a line fault' a' failed => ?_, fun a r a' ok => ?_⟩
  · cases failed
    exact ⟨.refl a, rfl⟩
  · contradiction

theorem probes_check (x : Except Fault α) : Probes (check x : AsmOf γ α) := by
  cases x with
  | error fault => exact probes_fail fault
  | ok r =>
    refine ⟨(faultless_pure r).checks, fun a r' a' ok => ?_⟩
    cases ok
    exact .refl a

variable (settings : Settings)

theorem expression_checks (lexemes : List Lexeme) :
    Checks (expression settings lexemes : AsmOf γ Unit) := by
  refine .behind probes_get fun a => .behind (probes_check _) fun e => ?_
  exact (Faultless.bind (faultless_write _) fun _ =>
    faultless_forM (fun _ => faultless_write _) _).checks

theorem openTest_checks (block : Block) (inner : List Lexeme)
    (opened : Int → Test → Int → OpenBlock) :
    Checks (openTest settings block inner opened : AsmOf γ OpenBlock) := by
  refine .behind (probes_check _) fun read => .behind probes_position fun start => ?_
  refine (expression_checks settings _).bind fun _ => .bind faultless_position fun _ => ?_
  exact .bind (faultless_request _) fun _ => faultless_pure _

theorem openCount_checks (inner : List Lexeme) :
    Checks (openCount settings inner : AsmOf γ OpenBlock) := by
  unfold openCount
  split
  · exact (probes_fail _).checks
  · refine (expression_checks settings _).bind fun _ => .bind faultless_position fun _ => ?_
    refine .bind (faultless_request _) fun _ => ?_
    split
    · refine .bind faultless_get fun a => ?_
      split
      · exact .bind (faultless_request _) fun _ => faultless_pure _
      · exact .bind (faultless_pure _) fun _ => faultless_pure _
    · exact .bind (faultless_pure _) fun _ => faultless_pure _

theorem closeBlock_checks (block : Block) (blocks : List OpenBlock) :
    Checks (closeBlock block blocks : AsmOf γ (List OpenBlock)) := by
  have patches (place : Int) (test : Test) (others : List OpenBlock) : Faultless (do
      request (.patch place test (← position))
      return others : AsmOf γ (List OpenBlock)) :=
    .bind faultless_position fun _ => .bind (faultless_request _) fun _ => faultless_pure _
  unfold closeBlock
  split
  · exact (patches _ _ _).checks
  · exact (Faultless.bind (faultless_request _) fun _ => patches _ _ _).checks
  · exact (Faultless.bind (faultless_request _) fun _ => faultless_pure _).checks
  · exact (probes_fail _).checks

theorem callProcedure_checks (name : String) (inner : List Lexeme) :
    Checks (callProcedure settings name inner : AsmOf γ Unit) := by
  refine .behind probes_get fun a => ?_
  split
  · exact (probes_fail _).checks
  · refine .behind probes_get fun b => .behind (probes_check _) fun args => ?_
    split
    · exact (probes_fail _).checks
    · apply Faultless.checks
      split
      · refine .bind faultless_get fun _ => .bind (faultless_modify _) fun _ => ?_
        exact .bind (faultless_write _) fun _ => faultless_request _
      · exact .bind (faultless_write _) fun _ => faultless_request _

/-- Every form of statement is checked before any of it is written. -/
theorem compile_checks (blocks : List OpenBlock) (first : Lexeme) (rest : List Lexeme) :
    Checks (compile settings blocks first rest : AsmOf γ (List OpenBlock × Nat)) := by
  unfold compile
  split
  · exact (Faultless.bind (faultless_request _) fun _ => faultless_pure _).checks
  · exact (closeBlock_checks _ _).bind fun _ => faultless_pure _
  · next block =>
    refine .behind (probes_check _) fun inner => ?_
    cases block with
    | ifBlock | whileLoop => exact (openTest_checks settings _ _ _).bind fun _ => faultless_pure _
    | forLoop => exact (openCount_checks settings _).bind fun _ => faultless_pure _
  · split
    · refine .behind (probes_check _) fun inner => ?_
      exact (callProcedure_checks settings _ _).bind fun _ => faultless_pure _
    · exact (expression_checks settings _).bind fun _ => faultless_pure _

end Checking

section Statements

variable {settings : Settings} {blocks : List OpenBlock} {s : Statement} {line : Int}
  {fault : Fault} {a a' : Assembly}

/-- Where a body fails, it has been assembled up to a statement that fails, or to its end. -/
inductive Point.Stops (settings : Settings) (p : Point) (line : Int) (fault : Fault)
    (a' : Assembly) : Prop
  | statement {blocks : List OpenBlock} {flow : Flow} {l : Lexeme} {rest : List Lexeme}
      {b : Assembly} (arrives : Arrives settings p ⟨0, blocks, flow, l :: rest, b⟩)
      (notLine : l ≠ .endOfLine) (notColon : l ≠ .mark .colon)
      (failed : compile settings blocks l rest { b with cautions := flow.cautions b } =
        .error (.fault line fault) a')
      (builder : a'.builder = b.builder) (table : a'.table = b.table)
  | unclosed {skip : Nat} {top : OpenBlock} {others : List OpenBlock} {flow : Flow}
      (arrives : Arrives settings p ⟨skip, top :: others, flow, [], a'⟩)
      (named : fault = .unclosed top.block)

theorem Point.Stops.of_compile {p : Point} {flow : Flow} {l : Lexeme} {rest : List Lexeme}
    {b : Assembly} (arrives : Arrives settings p ⟨0, blocks, flow, l :: rest, b⟩)
    (notLine : l ≠ .endOfLine) (notColon : l ≠ .mark .colon)
    (failed : compile settings blocks l rest { b with cautions := flow.cautions b } =
      .error (.fault line fault) a') : Stops settings p line fault a' := by
  obtain ⟨quiet, -⟩ := compile_checks settings blocks l rest _ line fault a' failed
  exact .statement arrives notLine notColon failed quiet.queried.eq quiet.table

theorem Point.stops {skip : Nat} {flow : Flow} {lexemes : List Lexeme}
    (failed : statements settings skip blocks flow lexemes a = .error (.fault line fault) a') :
    Stops settings ⟨skip, blocks, flow, lexemes, a⟩ line fault a' := by
  obtain ⟨q, arrives, halts⟩ := Point.arrives settings ⟨skip, blocks, flow, lexemes, a⟩
  rw [finish, failed] at halts
  cases halts with
  | unclosed => exact .unclosed arrives rfl
  | @unparsed blocks flow l rest b fault notLine notColon rejected =>
    have told : compile settings blocks l rest { b with cautions := flow.cautions b } = _ :=
      compile_unparsed rest rejected
    exact .of_compile arrives notLine notColon told
  | @refused blocks flow l rest b _ s used failure notLine notColon parsed refused =>
    have compiled : compile settings blocks l rest { b with cautions := flow.cautions b } = _ :=
      compile_parsed rest parsed
    refine .of_compile arrives notLine notColon (compiled.trans ?_)
    exact step_bind_error_iff.mpr (.inl refused)

end Statements

/-! ## Headers -/

section Headers

variable {settings : Settings} {line : Int} {fault : Fault} {a a' : Assembly} {at_ : Int}
  {names : List String} {lexemes : List Lexeme}

theorem declare_failed {s : Symbol} {failure : Failure}
    (failed : declare at_ s a = .error failure a') :
    failure = .fault at_ (.duplicate s.key) ∧ a' = a := by
  have entered := declare_entered at_ s a
  rw [failed] at entered
  cases entered with
  | error => exact ⟨rfl, rfl⟩

theorem declare_fault {s : Symbol} (failed : declare at_ s a = .error (.fault line fault) a') :
    fault = .duplicate s.key ∧ a' = a := by
  obtain ⟨same, rfl⟩ := declare_failed failed
  exact ⟨(Failure.fault.inj same).2, rfl⟩

/-- Where the name of a parameter is taken, those before it were declared and stored. -/
theorem declareParams_fault {register : Nat}
    (failed : declareParams at_ register names a = .error (.fault line fault) a') :
    ∃ (front : List String) (name : String) (later : List String) (base : Int) (b : Assembly),
      names = front ++ name :: later ∧ fault = .duplicate (normalName name) ∧
      declareParams at_ register front a = .ok base b ∧ SameCode b a' := by
  induction names generalizing register a with
  | nil => contradiction
  | cons name rest ih =>
    rcases step_bind_error_iff.mp failed with refused | ⟨place, a₁, given, failed⟩
    · have allocated := allocWord_allocated a
      rw [refused] at allocated
      contradiction
    rcases step_bind_error_iff.mp failed with taken | ⟨_, a₂, entered, failed⟩
    · obtain ⟨rfl, rfl⟩ := declare_fault taken
      exact ⟨[], name, rest, 0, a, rfl, rfl, rfl, (allocWord_always.of_ok given).program⟩
    rcases step_bind_error_iff.mp failed with emitted | ⟨_, a₃, emitted, failed⟩
    · contradiction
    rcases step_bind_error_iff.mp failed with failed | ⟨_, _, -, returned⟩
    · obtain ⟨front, taken, later, base, b, rfl, rfl, declared, silent⟩ := ih failed
      refine ⟨name :: front, taken, later, place, b, rfl, rfl, ?_, silent⟩
      refine (step_bind_eq_of_ok given).trans ((step_bind_eq_of_ok entered).trans ?_)
      exact (step_bind_eq_of_ok emitted).trans (step_bind_eq_of_ok declared)
    · contradiction

/-- A procedure was begun, and parameters were stored to places. -/
def Assembly.BegunWith (a : Assembly) (name : String) (params : Nat) (places : List Int)
    (a' : Assembly) : Prop :=
  ∃ data strings, a'.builder.program = Program.withCode
    { a.builder.program with
      procedures := a.builder.program.procedures ++ [⟨name, a.builder.address, params⟩]
      data := data
      strings := strings }
    (a.builder.program.code.toList ++ storeParams 0 places)

/-- What a header that fails leaves: nothing of itself if it is malformed or has too many
parameters, and, if a name is taken, a procedure that was begun and the parameters before that
name. -/
inductive HeaderLeaves (settings : Settings) (lexemes : List Lexeme) (fault : Fault)
    (a a' : Assembly) : Prop
  | malformed (rejected : parseHeader lexemes = .error fault) (same : a' = a)
  | tooMany {name : String} {names : List String}
      (parsed : parseHeader lexemes = .ok (name, names))
      (named : fault = .tooManyParameters name names.length settings.maxParams) (same : a' = a)
  | parameters {name taken : String} {front later : List String} {places : List Int}
      (parsed : parseHeader lexemes = .ok (name, front ++ taken :: later))
      (named : fault = .duplicate (normalName taken)) (stored : places.length = front.length)
      (begun : a.BegunWith name (front ++ taken :: later).length places a')
  | all {name : String} {names : List String} {places : List Int}
      (parsed : parseHeader lexemes = .ok (name, names))
      (named : fault = .duplicate (normalName name ++ "(")) (stored : places.length = names.length)
      (begun : a.BegunWith name names.length places a')

theorem declareParams_begun {base : Int} {name : String} {params : Nat} {b : Assembly}
    (declared : declareParams at_ 0 names (a.begun name params) = .ok base b)
    (silent : SameCode b a') :
    ∃ places, places.length = names.length ∧ a.BegunWith name params places a' := by
  obtain ⟨places, symbols, data, strings, program, -, -, named⟩ := declareParams_ok {} declared
  have length := congrArg List.length named
  rw [List.length_map, List.length_map] at length
  obtain ⟨data', strings', program'⟩ := silent
  refine ⟨places, length.symm, data', strings', ?_⟩
  rw [program', program]
  rfl

theorem header_malformed (rejected : parseHeader lexemes = .error fault) :
    header settings lexemes a = .error (.fault a.line fault) a := by
  refine step_bind_error_iff.mpr (.inl ?_)
  rw [rejected]
  rfl

theorem header_tooMany {name : String} (parsed : parseHeader lexemes = .ok (name, names))
    (many : settings.maxParams < names.length) :
    header settings lexemes a =
      .error (.fault a.line (.tooManyParameters name names.length settings.maxParams)) a := by
  refine (step_bind_eq_of_ok (check_ok_iff.mpr ⟨parsed, rfl⟩)).trans ?_
  dsimp only
  rw [if_pos many]
  rfl

/-- A header that fails has written nothing, unless a name is taken. -/
theorem header_fault (failed : header settings lexemes a = .error (.fault line fault) a') :
    HeaderLeaves settings lexemes fault a a' := by
  cases parsed : parseHeader lexemes with
  | error fault' =>
    rw [header_malformed parsed] at failed
    obtain ⟨same, rfl⟩ := EStateM.Result.error.inj failed
    obtain ⟨-, rfl⟩ := Failure.fault.inj same
    exact .malformed parsed rfl
  | ok read =>
    obtain ⟨name, names⟩ := read
    by_cases few : (names.length : Int) ≤ settings.maxParams
    · rw [header_steps parsed few] at failed
      rcases step_bind_error_iff.mp failed with taken | ⟨base, b, declared, taken⟩
      · obtain ⟨front, key, later, base, b, rfl, rfl, declared, silent⟩ := declareParams_fault taken
        obtain ⟨places, stored, begun⟩ := declareParams_begun declared silent
        exact .parameters parsed rfl stored begun
      · obtain ⟨rfl, rfl⟩ := declare_fault taken
        obtain ⟨places, stored, begun⟩ := declareParams_begun declared (.refl _)
        exact .all parsed rfl stored begun
    · rw [header_tooMany parsed (Int.not_le.mp few)] at failed
      obtain ⟨same, rfl⟩ := EStateM.Result.error.inj failed
      exact .tooMany parsed (Failure.fault.inj same).2.symm rfl

end Headers

/-! ## Modules -/

/-- A module is assembled up to the header of one of its procedures. Nothing but headers and
statements has written code. -/
inductive UpTo (settings : Settings) (lines : List Text) (a : Assembly) (source : ProcedureSource) :
    Assembly → Prop
  | intro {done later : List ProcedureSource} {b c : Assembly}
      (prepared : prepare settings lines a = .ok (done ++ source :: later) b)
      (silent : SameCode a b) (earlier : procedures settings done b = .ok () c) :
      UpTo settings lines a source { c with line := source.line }

/-- Where a module fails, and what it then leaves: before its first procedure and among the locals
of a body there is no code, a header may have been begun, and a statement has done nothing. -/
inductive Stopped (settings : Settings) (lines : List Text) (a : Assembly) (line : Int)
    (fault : Fault) (a' : Assembly) : Prop
  | preparing (failed : prepare settings lines a = .error (.fault line fault) a')
      (silent : SameCode a a')
  | header {source : ProcedureSource} {b : Assembly} (upTo : UpTo settings lines a source b)
      (failed : header settings source.header b = .error (.fault line fault) a')
      (leaves : HeaderLeaves settings source.header fault b a')
  | locals {source : ProcedureSource} {b c : Assembly} (upTo : UpTo settings lines a source b)
      (headed : Assembly.header settings source.header b = .ok () c)
      (failed : declareLocals settings c.line source.body c = .error (.fault line fault) a')
      (silent : SameCode c a')
  | body {source : ProcedureSource} {b c d : Assembly} (upTo : UpTo settings lines a source b)
      (headed : Assembly.header settings source.header b = .ok () c)
      (declared : declareLocals settings c.line source.body c = .ok () d) (silent : SameCode c d)
      (stops : Point.Stops settings ⟨0, [], {}, source.body, d⟩ line fault a')

section Modules

variable {settings : Settings} {lines : List Text} {line : Int} {fault : Fault} {a a' : Assembly}

/-- Where procedures fail, those before the one that fails were assembled. -/
theorem procedures_error {sources : List ProcedureSource} {failure : Failure}
    (failed : procedures settings sources a = .error failure a') :
    ∃ done source later b, sources = done ++ source :: later ∧
      procedures settings done a = .ok () b ∧
      (Assembly.header settings source.header >>= fun _ => Assembly.body settings source.body)
        { b with line := source.line } = .error failure a' := by
  induction sources generalizing a with
  | nil => contradiction
  | cons source rest ih =>
    rw [procedures_cons] at failed
    rcases step_bind_error_iff.mp failed with failed | ⟨_, a₁, assembled, failed⟩
    · exact ⟨[], source, rest, a, rfl, rfl, failed⟩
    · obtain ⟨done, last, later, b, rfl, earlier, failed⟩ := ih failed
      refine ⟨source :: done, last, later, b, rfl, ?_, failed⟩
      rw [procedures_cons, step_bind_eq_of_ok assembled, earlier]

/-- A module that is found fault with has stopped somewhere. -/
theorem assembleModule_stopped
    (failed : assembleModule settings lines a = .error (.fault line fault) a') :
    Stopped settings lines a line fault a' := by
  rw [assembleModule_eq] at failed
  rcases step_bind_error_iff.mp failed with failed | ⟨sources, b, prepared, failed⟩
  · exact .preparing failed ((prepare_silent settings lines).of_error failed)
  rcases step_bind_error_iff.mp failed with failed | ⟨_, _, -, closed⟩
  · obtain ⟨done, source, later, c, rfl, earlier, failed⟩ := procedures_error failed
    have upTo : UpTo settings lines a source { c with line := source.line } :=
      .intro prepared ((prepare_silent settings lines).of_ok prepared) earlier
    rcases step_bind_error_iff.mp failed with failed | ⟨_, d, headed, failed⟩
    · exact .header upTo failed (header_fault failed)
    rcases step_bind_error_iff.mp failed with got | ⟨_, _, got, failed⟩
    · contradiction
    obtain ⟨rfl, rfl⟩ := step_get_ok_iff.mp got
    rcases step_bind_error_iff.mp failed with failed | ⟨_, e, declared, failed⟩
    · exact .locals upTo headed failed ((declareLocals_always _ _ _).of_error failed).program
    · exact .body upTo headed declared ((declareLocals_always _ _ _).of_ok declared).program
        (Point.stops failed)
  · contradiction

/-- A statement that is found fault with has asked a code generator, whichever it is, for nothing
but addresses, and has left the table as it is; the assembler takes statements in just this way, one
after the other. A module that is found fault with therefore has no other code than that of the
headers and statements before the one that failed, except that a header of which a name is taken has
begun its procedure and stored the parameters before that name. -/
theorem failed_statement_writes_nothing (settings : Settings) :
    (∀ (γ : Type) [CodeGenerator γ] blocks l rest (a a' : Assembly γ) line fault,
      compile settings blocks l rest a = .error (.fault line fault) a' →
      Queried a.builder a'.builder ∧ a'.table = a.table ∧ line = a.line) ∧
    (∀ blocks flow l rest (a : Assembly), l ≠ .endOfLine → l ≠ .mark .colon →
      statements settings 0 blocks flow (l :: rest) a =
        (compile settings blocks l rest >>= fun done =>
          statements settings done.2 done.1 (flow.behind l done.1) rest)
        { a with cautions := flow.cautions a }) ∧
    ∀ lines a line fault a', assembleModule settings lines a = .error (.fault line fault) a' →
      Stopped settings lines a line fault a' := by
  refine ⟨?_, fun blocks flow l rest a notLine notColon => statements_compile_eq notLine notColon,
    fun lines a line fault a' failed => assembleModule_stopped failed⟩
  intro γ _ blocks l rest a a' line fault failed
  obtain ⟨quiet, same⟩ := compile_checks settings blocks l rest a line fault a' failed
  exact ⟨quiet.queried, quiet.table, same⟩

-- The second header repeats the name of the first and is left with its parameters stored.
example : (attemptModules {} [["proc a(x)", "x+1", "proc a(y,z)", "y"]]
    (start {})).2.builder.program.code.toList =
    [.storeParam 0 0x2002, .load (.var 0x2002), .binary .add (.const 1), .storeParam 0 0x2004,
      .storeParam 1 0x2006] := by
  decide +kernel

end Modules

end HighAsm
