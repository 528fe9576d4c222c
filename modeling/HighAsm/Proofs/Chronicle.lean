import HighAsm.Proofs.Occurrences
import HighAsm.Proofs.Scoping

/-!
# A chronicle of the procedures

What holds of each procedure of the modules that are assembled, and of each two of them, is said
about the pieces that `recordModules` keeps: where they stand, and what later pieces have left of
the variables of earlier ones.
-/

namespace HighAsm

open List Assembly

variable {modules : List (List Text)}

namespace Assembly

section Inversion

variable {settings : Settings} {a a' : Assembly} {module : Nat} {opened : Program}
  {pieces : List Piece}

theorem recordProcedures_opened {sources : List ProcedureSource}
    (ok : recordProcedures settings module opened sources a = .ok pieces a') :
    ∀ piece ∈ pieces, piece.module = module ∧ piece.opened = opened := by
  induction sources generalizing a pieces with
  | nil =>
    cases ok
    exact forall_mem_nil _
  | cons source rest ih =>
    obtain ⟨_, _, _, more, -, -, -, others, rfl⟩ := recordProcedures_cons_ok ok
    exact forall_mem_cons.mpr ⟨⟨rfl, rfl⟩, ih others⟩

/-- The module of a piece began when the modules before it had been assembled. -/
theorem recordModules_opened (ok : recordModules settings module modules a = .ok pieces a') :
    ∀ piece ∈ pieces, ∃ before lines after a₀, modules = before ++ lines :: after ∧
      piece.module = module + before.length ∧ assembleModules settings before a = .ok () a₀ ∧
      a₀.builder.program = piece.opened := by
  induction modules generalizing a module pieces with
  | nil =>
    cases ok
    exact forall_mem_nil _
  | cons lines rest ih =>
    obtain ⟨sources, a₁, a₂, own, others, prepared, recorded, later, rfl⟩ :=
      recordModules_cons_ok ok
    refine forall_mem_append.mpr ⟨?_, ?_⟩
    · intro piece member
      obtain ⟨same, opened⟩ := recordProcedures_opened recorded piece member
      exact ⟨[], lines, rest, a, rfl, same, rfl, opened.symm⟩
    · intro piece member
      obtain ⟨before, lines', after, a₀, split, number, assembled, opened⟩ := ih later piece member
      have first : assembleModule settings lines a =
          .ok () { a₂ with table := a₂.table.closeModule } := by
        refine assembleModule_ok_iff.mpr ⟨sources, a₁, a₂, prepared, ?_, rfl⟩
        exact (procedures_ok_iff module a.builder.program).mpr ⟨own, recorded⟩
      refine ⟨lines :: before, lines', after, a₀, by rw [split]; rfl, ?_, ?_, opened⟩
      · rw [number, length_cons]
        omega
      · exact step_bind_ok_iff.mpr ⟨_, _, first, assembled⟩

end Inversion

end Assembly

/-! ## Variables of earlier and later pieces -/

section Renewal

variable {settings : Settings} {module : Nat} {pieces : List Piece} {a a' : Assembly}
  {sources : List ProcedureSource}

/-- In a module, the globals are common to all procedures and nothing else is. -/
theorem recordProcedures_renews {opened : Program}
    (ok : recordProcedures settings module opened sources a = .ok pieces a') :
    KeepsGlobals a a' ∧
      (∀ piece ∈ pieces, piece.module = module ∧ Renews Symbol.isExported a piece.bodied ∧
        KeepsGlobals piece.bodied a') ∧
      pieces.Pairwise fun p q => Renews Symbol.isExported p.bodied q.bodied := by
  induction sources generalizing a pieces with
  | nil =>
    obtain ⟨rfl, rfl⟩ := step_pure_ok_iff.mp ok
    exact ⟨.of_every (.refl a), by simp, .nil⟩
  | cons source rest ih =>
    obtain ⟨a₁, a₂, a₃, more, begun, locals, body, others, rfl⟩ := recordProcedures_cons_ok ok
    obtain ⟨later, pieces, pairs⟩ := ih others
    have lined : Renews Symbol.every a { a with line := source.line } := .same rfl rfl
    have bodied : Renews Symbol.isExported a a₂ :=
      lined.before ((header_renews begun).andThen (declareLocals_renews _ _ _ locals))
    have ended : Renews Symbol.every a₂ a₃ := statements_renews body
    have whole : KeepsGlobals a₂ a' := (KeepsGlobals.of_every ended).trans later
    refine ⟨(KeepsGlobals.of_exported bodied).trans whole, ?_, ?_⟩
    · refine forall_mem_cons.mpr ⟨⟨rfl, bodied, whole⟩, ?_⟩
      intro piece member
      obtain ⟨same, renews, keeps⟩ := pieces piece member
      exact ⟨same, bodied.again (ended.before renews), keeps⟩
    · refine pairwise_cons.mpr ⟨?_, pairs⟩
      intro piece member
      exact ended.before (pieces piece member).2.1

/-- The variables that two procedures have in common: the globals in one module, and otherwise the
result. -/
def Piece.Shares (result : String) (p q : Piece) : Prop :=
  p.module ≤ q.module ∧
    Renews (if p.module = q.module then Symbol.isExported else (·.name == result))
      p.bodied q.bodied

/-- Along an assembly, tables keep variables and get new ones with words of their own. Of a module
nothing but the result is left. -/
theorem recordModules_through (ok : recordModules settings module modules a = .ok pieces a')
    (only : ∀ s ∈ a.table.dataSymbols, s.name = a.table.result) :
    (∃ kept, Renews kept a a') ∧ (∀ s ∈ a'.table.dataSymbols, s.name = a'.table.result) ∧
      ∀ piece ∈ pieces,
        (∃ kept, Renews kept a piece.bodied) ∧ ∃ kept, Renews kept piece.bodied a' := by
  induction modules generalizing a module pieces with
  | nil =>
    obtain ⟨rfl, rfl⟩ := step_pure_ok_iff.mp ok
    exact ⟨⟨_, .refl a⟩, only, forall_mem_nil _⟩
  | cons lines rest ih =>
    obtain ⟨sources, a₁, a₂, own, others, prepared, recorded, later, rfl⟩ :=
      recordModules_cons_ok ok
    have opened := prepare_renews prepared only
    obtain ⟨⟨_, -, through⟩, members, -⟩ := recordProcedures_renews recorded
    have closed := closeModule_renews a₂
    obtain ⟨⟨_, whole⟩, only', members'⟩ := ih later (closeModule_only a₂.table)
    refine ⟨⟨_, ((opened.trans through).trans closed).trans whole⟩, only',
      forall_mem_append.mpr ⟨?_, ?_⟩⟩
    · intro piece member
      obtain ⟨-, renews, _, -, keeps⟩ := members piece member
      exact ⟨⟨_, opened.trans renews⟩, _, (keeps.trans closed).trans whole⟩
    · intro piece member
      obtain ⟨⟨_, renews⟩, onward⟩ := members' piece member
      exact ⟨⟨_, ((opened.trans through).trans closed).trans renews⟩, onward⟩

/-- All procedures share the result, and those of a module its globals. -/
theorem recordModules_renews {result : String}
    (ok : recordModules settings module modules a = .ok pieces a') (named : a.table.result = result)
    (global : isGlobalName result) (only : ∀ s ∈ a.table.dataSymbols, s.name = result) :
    (∀ piece ∈ pieces, module ≤ piece.module ∧ Renews (·.name == result) a piece.bodied) ∧
      pieces.Pairwise (Piece.Shares result) := by
  induction modules generalizing a module pieces with
  | nil =>
    obtain ⟨rfl, rfl⟩ := step_pure_ok_iff.mp ok
    exact ⟨by simp, .nil⟩
  | cons lines rest ih =>
    obtain ⟨sources, a₁, a₂, own, others, prepared, recorded, later, rfl⟩ :=
      recordModules_cons_ok ok
    have opened := prepare_renews prepared (named ▸ only)
    obtain ⟨through, members, pairs⟩ := recordProcedures_renews recorded
    have result₁ : a₁.table.result = result := opened.result.trans named
    have closed := through.closed (by rw [result₁]; exact global)
    rw [result₁] at closed
    have named' : { a₂ with table := a₂.table.closeModule }.table.result = result :=
      closed.result.trans result₁
    obtain ⟨members', pairs'⟩ := ih later named' (named' ▸ closeModule_only a₂.table)
    refine ⟨forall_mem_append.mpr ⟨?_, ?_⟩, pairwise_append.mpr ⟨?_, pairs', ?_⟩⟩
    · intro piece member
      obtain ⟨same, renews, -⟩ := members piece member
      refine ⟨Nat.le_of_eq same.symm, (opened.before renews).congr ?_⟩
      intro s member
      rw [Symbol.isExported, only s member, beq_self_eq_true]
      exact global
    · intro piece member
      obtain ⟨later, renews⟩ := members' piece member
      exact ⟨Nat.le_of_succ_le later, (opened.before closed).again renews⟩
    · refine pairs.imp_of_mem ?_
      intro p q early late renews
      have same : p.module = q.module := (members p early).1.trans (members q late).1.symm
      refine ⟨Nat.le_of_eq same, ?_⟩
      rw [if_pos same]
      exact renews
    · intro p early q late
      obtain ⟨same, first, keeps⟩ := members p early
      obtain ⟨later, renews⟩ := members' q late
      have before : p.module < q.module := by
        rw [same]
        exact later
      have result₂ : p.bodied.table.result = result := first.result.trans result₁
      -- What a piece of this module leaves behind at its end.
      have left := keeps.closed (by rw [result₂]; exact global)
      rw [result₂] at left
      refine ⟨Nat.le_of_lt before, ?_⟩
      rw [if_neg (Nat.ne_of_lt before)]
      exact left.again renews

theorem procedures_keepsGlobals (ok : procedures settings sources a = .ok () a') :
    KeepsGlobals a a' := by
  obtain ⟨pieces, recorded⟩ := (procedures_ok_iff 0 a.builder.program).mp ok
  exact (recordProcedures_renews recorded).1

theorem assembleModules_renews (ok : assembleModules settings modules (start settings) = .ok () a) :
    (∃ kept, Renews kept (start settings) a) ∧
      ∀ s ∈ a.table.dataSymbols, s.name = a.table.result := by
  obtain ⟨pieces, recorded⟩ := (assembleModules_ok_iff 0).mp ok
  obtain ⟨renews, only, -⟩ := recordModules_through recorded (forall_mem_nil _)
  exact ⟨renews, only⟩

end Renewal

/-! ## On the way to a procedure -/

/-- Modules are assembled, and then the next one up to the header of one of its procedures. -/
inductive Reaches (settings : Settings) (before : List (List Text)) (lines : List Text)
    (opened : Program) (source : ProcedureSource) : Assembly → Prop
  | intro {a₀ a₁ a₂ : Assembly} {front rest : List ProcedureSource}
      (assembled : assembleModules settings before (start settings) = .ok () a₀)
      (began : a₀.builder.program = opened)
      (prepared : prepare settings lines a₀ = .ok (front ++ source :: rest) a₁)
      (done : procedures settings front a₁ = .ok () a₂) :
      Reaches settings before lines opened source { a₂ with line := source.line }

section Failing

variable {settings : Settings} {a a' : Assembly} {failure : Failure}

theorem procedures_cons (settings : Settings) (source : ProcedureSource)
    (rest : List ProcedureSource) (a : Assembly) :
    procedures settings (source :: rest) a =
      ((header settings source.header >>= fun _ => body settings source.body) >>= fun _ =>
        procedures settings rest) { a with line := source.line } := by
  rw [bind_assoc]
  rfl

theorem procedures_append (settings : Settings) (front rest : List ProcedureSource) :
    procedures settings (front ++ rest) =
      (procedures settings front >>= fun _ => procedures settings rest) := by
  induction front with
  | nil => rfl
  | cons source others ih => simp only [cons_append, procedures, ih, bind_assoc]

theorem assembleModules_append (settings : Settings) (front rest : List (List Text)) :
    assembleModules settings (front ++ rest) =
      (assembleModules settings front >>= fun _ => assembleModules settings rest) := by
  induction front with
  | nil => rfl
  | cons lines others ih => simp only [cons_append, assembleModules, ih, bind_assoc]

/-- Where a procedure fails, the assembly of all modules does. -/
theorem Reaches.failed {before after : List (List Text)} {lines : List Text} {opened : Program}
    {source : ProcedureSource} (reaches : Reaches settings before lines opened source a)
    (failed : (do header settings source.header; body settings source.body : Asm Unit) a =
      .error failure a') : failure? settings (before ++ lines :: after) = some failure := by
  obtain @⟨a₀, a₁, a₂, front, rest, assembled, -, prepared, done⟩ := reaches
  have here : procedures settings (source :: rest) a₂ = .error failure a' := by
    rw [procedures_cons]
    exact step_bind_error_iff.mpr (.inl failed)
  have module : assembleModule settings lines a₀ = .error failure a' := by
    rw [assembleModule_eq, step_bind_eq_of_ok prepared, procedures_append, bind_assoc,
      step_bind_eq_of_ok done]
    exact step_bind_error_iff.mpr (.inl here)
  have later : assembleModules settings (lines :: after) a₀ = .error failure a' :=
    step_bind_error_iff.mpr (.inl module)
  rw [failure?, assembleModules_append, step_bind_eq_of_ok assembled, later]

end Failing

/-! ## Looking at results -/

/-- What is seen of the result and of the state that steps lead to from the start, if they do. -/
def Assembly.seen? {α β : Type} (settings : Settings) (x : Asm α) (view : α → Assembly → β) :
    Option β :=
  match x (start settings) with
  | .ok r a => some (view r a)
  | .error _ _ => none

theorem Assembly.seen?_eq_some {α β : Type} {settings : Settings} {x : Asm α}
    {view : α → Assembly → β} {v : β} (seen : seen? settings x view = some v) :
    ∃ r a, x (start settings) = .ok r a ∧ view r a = v := by
  unfold seen? at seen
  split at seen
  · next r a ok => exact ⟨r, a, ok, Option.some.inj seen⟩
  · contradiction

end HighAsm
