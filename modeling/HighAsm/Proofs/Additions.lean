import HighAsm.Proofs.FailedModules
import HighAsm.Proofs.Liveness

/-!
# What modules add to a program

A module adds code and procedures behind those that are there, and does so also if it fails. The
jumps in what it adds stay inside of it, and its calls lead to procedures of the program. Only where
a body fails inside a structure, an exit is left without a target, which then is the address 0
(`Program.Extends`). What one body adds is read off the text that it consists of; everything else
follows from the order in which procedures and modules come.
-/

namespace HighAsm

open List Assembly

/-- The jumps of an instruction stay between two positions, or may have been left without a target,
and its calls lead to procedures. -/
structure Instr.Leads (loose : Prop) (p : Program) (start stop : Nat) (i : Instr) : Prop where
  jumps : ∀ target ∈ Program.targetOf? i, (loose ∧ target = 0) ∨ p.LeadsInside start stop target
  calls : ∀ entry ∈ i.callee?, p.IsEntry entry

/-! ## Texts -/

section Texts

variable {loose : Prop} {p : Program} {start stop position : Nat} {limit : Int} {i : Instr}

theorem Instr.Straight.leads (straight : i.Straight) : i.Leads loose p start stop :=
  ⟨by simp [straight.1], by simp [straight.2]⟩

theorem Instr.leads_of_target {target : Int} (goes : Program.targetOf? i = some target)
    (plain : i.callee? = none) (inside : (loose ∧ target = 0) ∨ p.LeadsInside start stop target) :
    i.Leads loose p start stop :=
  ⟨by simpa [goes] using inside, by simp [plain]⟩

theorem Opening.enter_leads {o : Opening} {leave : Int}
    (inside : (loose ∧ leave = 0) ∨ p.LeadsInside start stop leave) :
    ∀ i ∈ o.enter leave, i.Leads loose p start stop := by
  refine forall_mem_append.mpr ⟨fun i member => (o.expression.straight i member).leads,
    forall_mem_cons.mpr ⟨?_, fun i member => (o.roundStart_straight i member).leads⟩⟩
  cases o <;> exact Instr.leads_of_target rfl rfl inside

theorem Simple.code_leads {s : Simple} (sound : s.statement.Sound limit p.Offers) :
    ∀ i ∈ s.code, i.Leads loose p start stop := by
  cases s with
  | ret => exact forall_mem_singleton.mpr (Instr.Straight.leads ⟨rfl, rfl⟩)
  | eval e => exact fun i member => (e.straight i member).leads
  | call name entry declared args =>
    refine forall_mem_append.mpr ⟨fun i member => ?_, forall_mem_singleton.mpr ?_⟩
    · exact (passArguments_straight args 0 i member).leads
    · refine ⟨by simp [Program.targetOf?], fun target same => ?_⟩
      obtain rfl : entry = target := Option.some.inj same
      exact sound.1.isEntry

variable (least : start ≤ position)
include least

theorem Opening.back_leads {o : Opening} (most : position + o.enterSize ≤ stop) :
    ∀ i ∈ o.back p.codeBase position, i.Leads loose p start stop := by
  cases o with
  | ifBlock => exact forall_mem_nil _
  | whileLoop =>
    refine forall_mem_singleton.mpr (Instr.leads_of_target rfl rfl (.inr ?_))
    exact ⟨position, least, by omega, rfl⟩
  | forLoop count index =>
    refine forall_mem_singleton.mpr (Instr.leads_of_target rfl rfl (.inr ?_))
    simp only [enterSize, expression] at most
    exact ⟨_, by omega, by omega, rfl⟩

/-- Jumps in a text stay inside of it. -/
theorem Nest.code_leads {n : Nest} (most : position + n.size ≤ stop)
    (sound : ∀ s ∈ n.statements, s.Sound limit p.Offers) :
    ∀ i ∈ n.code p.codeBase position, i.Leads loose p start stop := by
  induction n generalizing position with
  | nil => exact forall_mem_nil _
  | step s rest ih =>
    rw [size] at most
    obtain ⟨own, others⟩ := forall_mem_cons.mp sound
    exact forall_mem_append.mpr ⟨Simple.code_leads own, ih (by omega) (by omega) others⟩
  | block o body rest ihBody ihRest =>
    rw [size] at most
    simp only [statements, forall_mem_cons, forall_mem_append] at sound
    obtain ⟨⟨-, inner⟩, -, others⟩ := sound
    refine forall_mem_append.mpr ⟨forall_mem_append.mpr
      ⟨forall_mem_append.mpr ⟨Opening.enter_leads (.inr ?_), ?_⟩, ?_⟩, ?_⟩
    · exact ⟨_, by omega, by omega, rfl⟩
    · exact ihBody (by omega) (by omega) inner
    · exact Opening.back_leads least (by omega)
    · exact ihRest (by omega) (by omega) others

/-- Where structures are open, their exits have no target yet. -/
theorem Level.code_leads {levels : List Level} (most : position + size levels ≤ stop)
    (sound : ∀ s ∈ statements levels, s.Sound limit p.Offers) :
    ∀ i ∈ code p.codeBase position levels, i.Leads True p start stop := by
  induction levels with
  | nil => exact forall_mem_nil _
  | cons l outer ih =>
    rw [size] at most
    simp only [statements, forall_mem_append] at sound
    obtain ⟨⟨around, before⟩, -⟩ := sound
    refine forall_mem_append.mpr ⟨forall_mem_append.mpr ⟨?_, ?_⟩, ?_⟩
    · exact ih (by omega) around
    · exact Nest.code_leads (by omega) (by omega) before
    · exact Opening.enter_leads (.inl ⟨trivial, rfl⟩)

end Texts

/-! ## One state after another -/

theorem Instr.Leads.mono {loose loose' : Prop} {p p' : Program} {start stop start' stop' : Nat}
    {i : Instr} (leads : i.Leads loose p start stop) (looser : loose → loose')
    (base : p'.codeBase = p.codeBase) (least : start' ≤ start) (most : stop ≤ stop')
    (entries : ∀ entry, p.IsEntry entry → p'.IsEntry entry) : i.Leads loose' p' start' stop' where
  jumps target goes := (leads.jumps target goes).imp (fun zero => ⟨looser zero.1, zero.2⟩)
    fun inside => inside.mono base least most
  calls entry called := entries entry (leads.calls entry called)

/-- A program goes on behind another one, with code that leads nowhere else and procedures that
begin in this code. -/
structure Program.Extends (loose : Prop) (p p' : Program) : Prop where
  base : p'.codeBase = p.codeBase
  code : ∃ added, p'.code.toList = p.code.toList ++ added ∧
    ∀ i ∈ added, i.Leads loose p' p.code.size p'.code.size
  procedures : ∃ added, p'.procedures = p.procedures ++ added ∧
    ∀ proc ∈ added, p'.LeadsInside p.code.size p'.code.size proc.entry

namespace Program.Extends

variable {loose loose' : Prop} {p p' p'' : Program}

theorem longer (more : Extends loose p p') : p.code.size ≤ p'.code.size := by
  obtain ⟨added, whole, -⟩ := more.code
  rw [size_of_toList whole, length_append, Array.length_toList]
  exact Nat.le_add_right _ _

theorem isEntry (more : Extends loose p p') {entry : Int} (begins : p.IsEntry entry) :
    p'.IsEntry entry := by
  obtain ⟨added, whole, -⟩ := more.procedures
  obtain ⟨proc, member, same⟩ := begins
  exact ⟨proc, whole ▸ mem_append_left _ member, same⟩

theorem offers (more : Extends loose p p') {callee : Procedure} (offered : p.Offers callee) :
    p'.Offers callee := by
  obtain ⟨added, whole, -⟩ := more.procedures
  exact offered.append whole

theorem trans (first : Extends loose p p') (second : Extends loose p' p'') :
    Extends loose p p'' where
  base := second.base.trans first.base
  code := by
    obtain ⟨added, whole, leads⟩ := first.code
    obtain ⟨added', whole', leads'⟩ := second.code
    refine ⟨added ++ added', by rw [whole', whole, append_assoc], ?_⟩
    refine forall_mem_append.mpr ⟨fun i member => ?_, fun i member => ?_⟩
    · exact (leads i member).mono id second.base (Nat.le_refl _) second.longer
        fun _ => second.isEntry
    · exact (leads' i member).mono id rfl first.longer (Nat.le_refl _) fun _ => id
  procedures := by
    obtain ⟨added, whole, inside⟩ := first.procedures
    obtain ⟨added', whole', inside'⟩ := second.procedures
    refine ⟨added ++ added', by rw [whole', whole, append_assoc], ?_⟩
    refine forall_mem_append.mpr ⟨fun proc member => ?_, fun proc member => ?_⟩
    · exact (inside proc member).mono second.base (Nat.le_refl _) second.longer
    · exact (inside' proc member).mono rfl first.longer (Nat.le_refl _)

theorem mono (more : Extends loose p p') (looser : loose → loose') : Extends loose' p p' where
  base := more.base
  code := by
    obtain ⟨added, whole, leads⟩ := more.code
    refine ⟨added, whole, fun i member => ?_⟩
    exact (leads i member).mono looser rfl (Nat.le_refl _) (Nat.le_refl _) fun _ => id
  procedures := more.procedures

theorem of_withCode {code added : List Instr} (whole : code = p.code.toList ++ added)
    (leads : ∀ i ∈ added, i.Leads loose p p.code.size code.length) :
    Extends loose p (p.withCode code) where
  base := rfl
  code := by
    refine ⟨added, by rw [toList_withCode, whole], fun i member => ?_⟩
    exact (leads i member).mono id rfl (Nat.le_refl _) (Nat.le_refl _) fun _ => id
  procedures := ⟨[], (append_nil _).symm, forall_mem_nil _⟩

theorem begin (p : Program) (data : Array UInt8) (strings : List (Int × Text)) (name : String)
    (params : Int) :
    Extends loose p
      { p with
        data := data
        strings := strings
        procedures := p.procedures ++ [⟨name, p.codeEnd, params⟩] } := by
  refine ⟨rfl, ⟨[], (append_nil _).symm, forall_mem_nil _⟩, _, rfl, ?_⟩
  exact forall_mem_singleton.mpr ⟨_, Nat.le_refl _, Nat.le_refl _, codeEnd_eq p⟩

end Program.Extends

theorem SameCode.extends {loose : Prop} {a a' : Assembly} (same : SameCode a a') :
    a.builder.program.Extends loose a'.builder.program := by
  obtain ⟨data, strings, program⟩ := same
  rw [program]
  exact ⟨rfl, ⟨[], (append_nil _).symm, forall_mem_nil _⟩,
    [], (append_nil _).symm, forall_mem_nil _⟩

/-- Every procedure that is known by its name is one of the program. -/
def Assembly.Grounded (a : Assembly) : Prop :=
  ∀ callee, a.table.Knows callee → a.builder.program.Offers callee

theorem Assembly.Grounded.of_procedures {a a' : Assembly} (grounded : a.Grounded)
    (known : ∀ s ∈ a'.table.entries, s.isProcedure → s ∈ a.table.entries)
    (offers : ∀ callee, a.builder.program.Offers callee → a'.builder.program.Offers callee) :
    a'.Grounded := by
  rintro callee ⟨s, member, procedure, same⟩
  exact offers callee (grounded callee ⟨s, known s member procedure, procedure, same⟩)

/-- One state after another: as long as the code can be addressed, the program goes on behind what
it was, and what it may call is there. -/
structure Adds (loose : Prop) (a a' : Assembly) : Prop where
  longer : Longer a a'
  program : a'.builder.program.Addressable → a.Grounded →
    a.builder.program.Extends loose a'.builder.program
  grounded : a'.builder.program.Addressable → a.Grounded → a'.Grounded

namespace Adds

variable {loose loose' : Prop} {a a' a'' : Assembly}

theorem of_extends (more : a.builder.program.Extends loose a'.builder.program)
    (known : ∀ s ∈ a'.table.entries, s.isProcedure → s ∈ a.table.entries) : Adds loose a a' where
  longer := more.longer
  program _ _ := more
  grounded _ grounded := grounded.of_procedures known fun _ => more.offers

theorem of_declares (declares : Declares a a') : Adds loose a a' :=
  of_extends (SameCode.extends declares.program) fun _ => declares.procedure_mem

theorem narrow (builder : a'.builder = a.builder)
    (table : ∀ s ∈ a'.table.entries, s ∈ a.table.entries) : Adds loose a a' :=
  of_extends (SameCode.of_builder builder).extends fun s member _ => table s member

theorem refl (a : Assembly) : Adds loose a a := narrow rfl fun _ => id

theorem trans (first : Adds loose a a') (second : Adds loose a' a'') : Adds loose a a'' where
  longer := first.longer.trans second.longer
  program addressable grounded := by
    have small : a'.builder.program.Addressable := Nat.lt_of_le_of_lt second.longer addressable
    exact (first.program small grounded).trans
      (second.program addressable (first.grounded small grounded))
  grounded addressable grounded := by
    have small : a'.builder.program.Addressable := Nat.lt_of_le_of_lt second.longer addressable
    exact second.grounded addressable (first.grounded small grounded)

theorem mono (adds : Adds loose a a') (looser : loose → loose') : Adds loose' a a' :=
  ⟨adds.longer, fun addressable grounded => (adds.program addressable grounded).mono looser,
    adds.grounded⟩

end Adds

/-- Whatever a step comes to, it adds to the program, with exits left open only if it fails. -/
structure Additive {α : Type} (x : Asm α) : Prop where
  keeps : Keeps (Adds False) x
  fails : ∀ {a : Assembly} {failure : Failure} {a' : Assembly}, x a = .error failure a' →
    Adds True a a'

namespace Additive

variable {α β : Type} {x : Asm α}

theorem of_always (always : Always (Adds False) (fun _ _ => True) x) : Additive x where
  keeps _ _ _ ok := always.of_ok ok
  fails failed := (always.of_error failed).mono fun _ => trivial

theorem pure (r : α) : Additive (Pure.pure r : Asm α) := of_always Adds.refl

theorem get : Additive (MonadState.get : Asm Assembly) := of_always Adds.refl

theorem modify {f : Assembly → Assembly} (adds : ∀ a, Adds False a (f a)) :
    Additive (modifyGet fun a => (PUnit.unit, f a) : Asm PUnit) := of_always adds

theorem bind {next : α → Asm β} (first : Additive x) (second : ∀ r, Additive (next r)) :
    Additive (x >>= next) where
  keeps := .bind .trans first.keeps fun r => (second r).keeps
  fails failed := by
    rcases step_bind_error_iff.mp failed with failed | ⟨r, b, ok, failed⟩
    · exact first.fails failed
    · exact ((first.keeps ok).mono fun _ => trivial).trans ((second r).fails failed)

end Additive

theorem Always.additive {α : Type} {x : Asm α} {allowed : Failure → Assembly → Prop}
    (declares : Always Declares allowed x) : Additive x :=
  .of_always fun a => (declares a).imp (fun _ => .of_declares) fun _ _ _ _ _ => trivial

/-! ## Headers -/

section Headers

variable {settings : Settings} {loose : Prop} {a a' : Assembly}

theorem emit_additive {code : List Instr} (straight : ∀ i ∈ code, i.Straight) :
    Additive (emit code) := by
  refine .modify fun a => .of_extends ?_ fun _ member _ => member
  rw [Builder.emitAll_program]
  exact .of_withCode rfl fun i member => (straight i member).leads

theorem declareParams_additive (line : Int) (register : Nat) (names : List String) :
    Additive (declareParams line register names) := by
  induction names generalizing register with
  | nil => exact .pure 0
  | cons name rest ih =>
    refine .bind allocWord_always.additive fun place => ?_
    refine .bind (declare_always line name place).additive fun _ => ?_
    refine .bind (emit_additive (forall_mem_singleton.mpr ⟨rfl, rfl⟩)) fun _ => ?_
    exact .bind (ih _) fun _ => .pure place

theorem begun_adds (name : String) (params : Nat) : Adds loose a (a.begun name params) :=
  .of_extends (.begin ..) fun _ member _ => (mem_filter.mp member).1

theorem header_additive (lexemes : List Lexeme) : Additive (header settings lexemes) where
  keeps := by
    intro a _ a' ok
    obtain ⟨name, places, begins⟩ := header_begins ok
    obtain ⟨data, strings, program⟩ := begins.program
    have more : a.builder.program.Extends False a'.builder.program := by
      rw [program]
      exact .trans (.begin ..)
        (.of_withCode rfl fun i member => (storeParams_straight places 0 i member).leads)
    refine ⟨more.longer, fun _ _ => more, fun _ grounded callee known => ?_⟩
    rcases begins.linked callee known with early | rfl
    · exact more.offers (grounded callee early)
    · refine ⟨⟨name, a.builder.address, places.length⟩, ?_, rfl⟩
      rw [program]
      exact mem_append_right _ mem_cons_self
  fails := by
    intro a failure a' failed
    cases parsed : parseHeader lexemes with
    | error fault =>
      rw [header_malformed parsed] at failed
      cases failed
      exact .refl a
    | ok read =>
      obtain ⟨name, names⟩ := read
      by_cases few : (names.length : Int) ≤ settings.maxParams
      · rw [header_steps parsed few] at failed
        have params := declareParams_additive a.line 0 names
        refine .trans (begun_adds name names.length) ?_
        rcases step_bind_error_iff.mp failed with taken | ⟨base, b, declared, taken⟩
        · exact params.fails taken
        · obtain ⟨-, rfl⟩ := declare_failed taken
          exact (params.keeps declared).mono fun _ => trivial
      · rw [header_tooMany parsed (Int.not_le.mp few)] at failed
        cases failed
        exact .refl a

end Headers

/-! ## Bodies -/

namespace Point

variable {settings : Settings}

/-- A body that fails has arrived somewhere, unless the code cannot be addressed. -/
theorem halted {skip : Nat} {blocks : List OpenBlock} {flow : Flow} {lexemes : List Lexeme}
    {failure : Failure} {a a' : Assembly}
    (failed : statements settings skip blocks flow lexemes a = .error failure a')
    (tracks : a.Tracks blocks) (addressable : a'.builder.program.Addressable) :
    ∃ q, Arrives settings ⟨skip, blocks, flow, lexemes, a⟩ q ∧
      a'.builder = q.assembly.builder ∧ a'.table = q.assembly.table := by
  have ends := statements_ends settings lexemes tracks skip flow
  rw [failed] at ends
  rcases ends.2 with found | tooLong
  · cases failure with
    | crash => exact found.elim
    | fault line fault =>
      cases stops failed with
      | statement arrives _ _ _ builder table => exact ⟨_, arrives, builder, table⟩
      | unclosed arrives => exact ⟨_, arrives, rfl, rfl⟩
  · exact absurd addressable tooLong

end Point

section Bodies

variable {settings : Settings}

/-- What a body has written is added to the program if it leads nowhere else. -/
theorem Follows.adds {loose : Prop} {a a' : Assembly} (longer : Longer a a')
    (follows : a'.builder.program.Addressable → Follows a a')
    (leads : a'.builder.program.Addressable → a.Grounded → ∃ added,
      a'.builder.program.code.toList = a.builder.program.code.toList ++ added ∧
      ∀ i ∈ added, i.Leads loose a.builder.program a.builder.program.code.size
        a'.builder.program.code.toList.length) : Adds loose a a' where
  longer := longer
  program addressable grounded := by
    obtain ⟨added, whole, leads⟩ := leads addressable grounded
    rw [(follows addressable).program]
    exact .of_withCode whole leads
  grounded addressable grounded := by
    have follows := follows addressable
    refine grounded.of_procedures (fun s member _ => follows.table ▸ member) fun _ offered => ?_
    rw [follows.program]
    exact offered

/-- Open structures and the text inside the innermost one lead nowhere else. -/
theorem Stands.leads {p p' : Program} {levels : List Level} {text : Nest}
    {blocks : List OpenBlock} {limit : Int}
    (stands : Stands p.code.toList levels text blocks p') (base : p'.codeBase = p.codeBase)
    (sound : ∀ s ∈ Level.statements levels ++ text.statements, s.Sound limit p.Offers) :
    ∃ added, p'.code.toList = p.code.toList ++ added ∧
      ∀ i ∈ added, i.Leads True p p.code.size p'.code.toList.length := by
  have code := stands.code
  rw [base, Array.length_toList, append_assoc] at code
  obtain ⟨outer, inner⟩ := forall_mem_append.mp sound
  have length : p'.code.toList.length = p.code.size + Level.size levels + text.size := by
    simp [code, Nat.add_assoc]
  refine ⟨_, code, forall_mem_append.mpr ⟨?_, ?_⟩⟩
  · exact Level.code_leads (Nat.le_refl _) (by omega) outer
  · exact Nest.code_leads (by omega) (by omega) inner

theorem statements_additive (lexemes : List Lexeme) :
    Additive (statements settings 0 [] {} lexemes) where
  keeps := by
    intro a _ a' ok
    have follows := statements_follows ok
    refine Follows.adds follows.longer (fun _ => follows) fun addressable grounded => ?_
    obtain ⟨read, n, sequence, whole, code⟩ := statements_nest ok addressable
    have base : a'.builder.program.codeBase = a.builder.program.codeBase := by
      rw [follows.program, Program.codeBase_withCode]
    rw [base] at code
    have sound (s : Statement) (member : s ∈ n.statements) :
        s.Sound settings.maxParams a.builder.program.Offers :=
      ((Statement.sequence_spelled sequence).sound s (whole ▸ member)).mono grounded
    refine ⟨_, code, Nest.code_leads (Nat.le_refl _) ?_ sound⟩
    simp [code]
  fails := by
    intro a failure a' failed
    have ends := statements_ends settings lexemes a.tracks_nil 0 {}
    rw [failed] at ends
    refine Follows.adds ends.1.longer (fun addressable => ?_) fun addressable grounded => ?_
    · obtain ⟨q, arrives, builder, table⟩ := Point.halted failed a.tracks_nil addressable
      exact arrives.follows.trans (.same builder table)
    · obtain ⟨q, arrives, builder, table⟩ := Point.halted failed a.tracks_nil addressable
      obtain ⟨read, -, known, nests⟩ := arrives.nests
      obtain ⟨levels, text, stands, whole⟩ := nests (builder ▸ addressable) (.begin _)
      have base : q.assembly.builder.program.codeBase = a.builder.program.codeBase := by
        rw [arrives.follows.program, Program.codeBase_withCode]
      have sound (s : Statement) (member : s ∈ Level.statements levels ++ text.statements) :
          s.Sound settings.maxParams a.builder.program.Offers := by
        rw [whole] at member
        exact (known s member).mono grounded
      rw [builder]
      exact stands.leads base sound

theorem body_additive (lexemes : List Lexeme) : Additive (body settings lexemes) := by
  refine .bind .get fun a => ?_
  exact .bind (declareLocals_always _ _ _).additive fun _ => statements_additive lexemes

theorem procedures_additive (sources : List ProcedureSource) :
    Additive (procedures settings sources) := by
  induction sources with
  | nil => exact .pure ()
  | cons source rest ih =>
    refine .bind (.modify fun _ => .narrow rfl fun _ => id) fun _ => ?_
    exact .bind (header_additive _) fun _ => .bind (body_additive _) fun _ => ih

end Bodies

/-! ## Modules -/

section Modules

variable {settings : Settings} {loose : Prop} {a : Assembly}

theorem enterModule_adds (a : Assembly) : Adds loose a a.enterModule := by
  refine .narrow rfl fun s member => ?_
  unfold enterModule at member
  split at member
  · exact member
  · exact (mem_filter.mp member).1

theorem prepare_additive (lines : List Text) : Additive (prepare settings lines) := by
  refine .of_always fun a => (prepare_declarative settings lines a).imp ?_ fun _ _ _ _ => id
  exact fun _ declares => (enterModule_adds a).trans (.of_declares declares)

theorem assembleModule_additive (lines : List Text) :
    Additive (assembleModule settings lines) := by
  rw [assembleModule_eq]
  refine .bind (prepare_additive lines) fun sources => ?_
  refine .bind (procedures_additive sources) fun _ => .modify fun a => .narrow rfl ?_
  exact fun s member => (mem_filter.mp member).1

/-- Modules add to the program one behind the other. Exits are left open only if one of them
fails. -/
theorem attemptModules_adds (modules : List (List Text)) (a : Assembly) :
    Adds (∃ failure, .error failure ∈ (attemptModules settings modules a).1) a
      (attemptModules settings modules a).2 := by
  induction modules generalizing a with
  | nil => exact .refl a
  | cons lines rest ih =>
    have additive : Additive (assembleModule settings lines) := assembleModule_additive lines
    rw [attemptModules]
    cases result : assembleModule settings lines a with
    | ok _ a' =>
      refine .trans ((additive.keeps result).mono False.elim) ((ih a').mono ?_)
      rintro ⟨failure, member⟩
      exact ⟨failure, mem_cons_of_mem _ member⟩
    | error failure a' =>
      have failed : ∃ other, .error other ∈
          (.error failure :: (attemptModules settings rest a').1 :
            List (Except Failure SymbolTable)) := ⟨failure, mem_cons_self⟩
      exact .trans ((additive.fails result).mono fun _ => failed) ((ih a').mono fun _ => failed)

end Modules

end HighAsm
