import HighAsm.Proofs.Chronicle
import HighAsm.Proofs.ProcedureNames

/-!
# Names that are stored to

A store to a name makes a variable of it before any statement of its body is assembled, so the name
may be read anywhere in the body. Parsing blames an undefined variable only where it finds none
(`Scope.Blames`), and so does assembling statements.
-/

namespace HighAsm

open Assembly

/-! ## What parsing blames -/

/-- If a variable is blamed for being undefined, it is. -/
def Scope.Blames (scope : Scope) {α : Type} (x : Except Fault α) : Prop :=
  ∀ name, x = .error (.undefinedVariable name) → scope.address? name = none

namespace Scope.Blames

variable {scope : Scope} {α β : Type} {x : Except Fault α}

theorem ok (r : α) : scope.Blames (.ok r : Except Fault α) := by
  intro name failed
  contradiction

theorem error {fault : Fault} (other : ∀ name, fault ≠ .undefinedVariable name) :
    scope.Blames (.error fault : Except Fault α) := by
  intro name failed
  exact absurd (Except.error.inj failed) (other name)

theorem bind {next : α → Except Fault β} (first : scope.Blames x)
    (second : ∀ r, scope.Blames (next r)) : scope.Blames (x >>= next) := by
  intro name failed
  cases x with
  | error fault => exact first name (congrArg Except.error (Except.error.inj failed))
  | ok r => exact second r name failed

theorem map {f : α → β} (blames : scope.Blames x) : scope.Blames (x.map f) := by
  intro name failed
  cases x with
  | error fault => exact blames name (congrArg Except.error (Except.error.inj failed))
  | ok r => contradiction

theorem ite {c : Prop} [Decidable c] {y : Except Fault α} (yes : scope.Blames x)
    (no : scope.Blames y) : scope.Blames (if c then x else y) := by
  split
  · exact yes
  · exact no

end Scope.Blames

namespace Scope

variable {scope : Scope}

theorem operand_blames (l : Lexeme) : scope.Blames (scope.operand l) := by
  unfold operand
  split
  · exact .ite (.ok _) (.error (by simp))
  · next name =>
    split
    · exact .ok _
    · next unknown =>
      intro blamed failed
      obtain rfl := Fault.undefinedVariable.inj (Except.error.inj failed)
      exact unknown
  · exact .error (by simp)

theorem index_blames (base offset : Lexeme) (width : Width) (o : Operand) :
    scope.Blames (scope.index base offset width o) := by
  unfold index
  split
  · exact .error (by simp)
  · refine .bind (operand_blames offset) fun o => ?_
    split
    · exact .ok _
    · exact .ite (.ok _) (.error (by simp))

theorem term_blames (lexemes : List Lexeme) : scope.Blames (scope.term lexemes) := by
  unfold term
  split
  · exact .error (by simp)
  · refine .bind (operand_blames _) fun o => ?_
    split
    iterate 3
      · split
        · exact .bind (index_blames _ _ _ _) fun _ => .ok _
        · exact .error (by simp)
    · exact .ok _

theorem operation?_blames {mark target : Lexeme} {t : Term}
    {build : Lexeme → Term → Except Fault Operation} (known : operation? mark = some build) :
    scope.Blames (build target t) := by
  unfold operation? at known
  split at known
  · cases known
    apply Blames.map
    unfold place
    split
    · exact .ok _
    · exact .error (by simp)
    · exact .ok _
  · obtain ⟨op, -, rfl⟩ := Option.map_eq_some_iff.mp known
    apply Blames.map
    unfold right
    split
    · exact .ok _
    · exact .error (by simp)
  · contradiction

theorem operations_blames (skip : Nat) (lexemes : List Lexeme) :
    scope.Blames (scope.operations skip lexemes) := by
  fun_induction Scope.operations scope skip lexemes with
  | case1 => exact .ok _
  | case2 skip _ rest ih => exact ih
  | case3 | case4 => exact .error (by simp)
  | case5 mark build known target rest ih =>
    refine .bind (term_blames _) fun read => ?_
    refine .bind (operation?_blames known) fun _ => ?_
    exact .bind (ih read.2) fun _ => .ok _

theorem expression_blames (lexemes : List Lexeme) : scope.Blames (scope.expression lexemes) :=
  .bind (term_blames _) fun read => .bind (operations_blames read.2 _) fun _ => .ok _

end Scope

namespace Statement

variable {scope : Scope}

theorem test_blames (block : Block) (inner : List Lexeme) :
    scope.Blames (test block inner) := by
  unfold test
  split
  · split
    · exact .error (by simp)
    · exact .ite (.error (by simp)) (.ite (.error (by simp)) (.ok _))
  · exact .error (by simp)

theorem condition_blames (block : Block) (inner : List Lexeme) :
    scope.Blames (condition scope block inner) :=
  .bind (test_blames _ _) fun _ => .map (Scope.expression_blames _)

theorem count_blames (inner : List Lexeme) : scope.Blames (count scope inner) :=
  .ite (.error (by simp)) (.bind (Scope.expression_blames _) fun _ => .ok _)

theorem arguments_blames (name : String) (position : Nat) (lexemes : List Lexeme) :
    scope.Blames (arguments scope name position lexemes) := by
  fun_induction arguments scope name position lexemes with
  | case1 => exact .ok _
  | case2 position l => exact .map (Scope.operand_blames l)
  | case3 => exact .error (by simp)
  | case4 position l comma rest _ ih =>
    refine .bind (Scope.operand_blames l) fun _ => ?_
    exact .ite (.error (by simp)) (.bind ih fun _ => .ok _)

theorem callOf_blames (name : String) (inner : List Lexeme) :
    scope.Blames (callOf scope name inner) := by
  unfold callOf
  split
  · exact .error (by simp)
  · refine .bind (arguments_blames _ _ _) fun _ => ?_
    exact .ite (.error (by simp)) (.ok _)

variable (first : Lexeme) (rest : List Lexeme)

theorem parenthesized_blames : scope.Blames (parenthesized first rest) := by
  unfold parenthesized
  split
  · split
    · exact .ok _
    · exact .error (by simp)
    · exact .error (by simp)
  · exact .error (by simp)

/-- Parsing a statement blames only variables that are not there. -/
theorem parse_blames : scope.Blames (parse scope first rest) := by
  unfold parse
  split
  · exact .ok _
  · exact .ok _
  · next block =>
    refine .bind (parenthesized_blames _ _) fun inner => ?_
    cases block with
    | ifBlock | whileLoop => exact .bind (.map (condition_blames _ _)) fun _ => .ok _
    | forLoop => exact .bind (.map (count_blames _)) fun _ => .ok _
  · split
    · refine .bind (parenthesized_blames _ _) fun inner => ?_
      exact .bind (callOf_blames _ _) fun _ => .ok _
    · exact .bind (Scope.expression_blames _) fun _ => .ok _

end Statement

/-! ## What assembling blames -/

section Steps

variable {settings : Settings} {name : String} {line : Int} {a a' : Assembly}

/-- Statements are not rejected for a variable that the table has. -/
theorem statements_spares {skip : Nat} {blocks : List OpenBlock} {flow : Flow}
    {lexemes : List Lexeme} (known : (Scope.mk settings a.table).address? name ≠ none) :
    statements settings skip blocks flow lexemes a ≠
      .error (.fault line (.undefinedVariable name)) a' := by
  intro failed
  obtain ⟨q, arrives, halts⟩ := Point.arrives settings ⟨skip, blocks, flow, lexemes, a⟩
  have table := arrives.follows.table
  rw [Point.finish, failed] at halts
  cases halts with
  | unparsed _ _ rejected =>
    have missing := Statement.parse_blames _ _ name rejected
    dsimp only at table
    rw [table] at missing
    exact known missing
  | @refused blocks flow l rest b _ s used _ _ _ _ refused =>
    have stated := statement_stated blocks s
      { b with cautions := flow.cautions b ++ (s.caution? b.line).toList }
    rw [refused] at stated
    contradiction

theorem declareLocals_spares {at_ : Int} {lexemes : List Lexeme} :
    declareLocals settings at_ lexemes a ≠ .error (.fault line (.undefinedVariable name)) a' := by
  intro failed
  have ends := declareLocals_always settings at_ lexemes a
  rw [failed] at ends
  nomatch ends.2

end Steps

/-! ## Storage before statements -/

section Passes

variable {settings : Settings} {l : Lexeme} {more rest : List Lexeme} {name : String} {line : Int}
  {a a' : Assembly}

/-- A variable stays in the table while others are declared. -/
theorem Declares.knows (declares : Declares a a')
    (known : (a.table.variableOf? name).isSome) : (a'.table.variableOf? name).isSome := by
  obtain ⟨s, found⟩ := Option.isSome_iff_exists.mp known
  obtain ⟨more, entries, -⟩ := declares.table
  exact Option.isSome_iff_exists.mpr ⟨s, SymbolTable.variableOf?_append found entries⟩

theorem declareVariable_knows (ok : declareVariable line name a = .ok () a') :
    (a'.table.variableOf? name).isSome := by
  obtain ⟨place, a₁, given, entered⟩ := step_bind_ok_iff.mp ok
  exact Option.isSome_iff_exists.mpr ⟨_, (allocated_ok given entered).2⟩

/-- A local variable is declared where it is stored to. -/
theorem declareLocals_cons_ok (ok : declareLocals settings line (l :: rest) a = .ok () a') :
    ∃ line' a₁, declareLocals settings line' rest a₁ = .ok () a' ∧
      ∀ name more, l = .mark .store → rest = .ident name :: more →
        settings.features .implicitLocals = true → isGlobalName name = false →
        more.head?.any startsOffset = false → (a₁.table.variableOf? name).isSome := by
  by_cases newline : l = .endOfLine
  · subst newline
    exact ⟨_, _, ok, by simp⟩
  by_cases store : l = .mark .store
  · subst store
    by_cases named : ∃ stored others, rest = .ident stored :: others
    · obtain ⟨stored, others, rfl⟩ := named
      replace ok := step_get_ok ok
      split at ok
      · obtain ⟨_, a₁, declared, ok⟩ := step_bind_ok_iff.mp ok
        obtain ⟨_, a₂, remarked, ok⟩ := step_bind_ok_iff.mp ok
        refine ⟨_, a₂, ok, fun _ _ _ same _ _ _ => ?_⟩
        cases same
        have known : (a₁.table.variableOf? stored).isSome := declareVariable_knows declared
        cases remarked
        exact known
      · next known =>
        refine ⟨_, a, ok, fun _ _ _ same on plain direct => ?_⟩
        cases same
        simpa [on, plain, direct, Option.isSome_iff_ne_none] using known
    · rw [declareLocals] at ok
      · exact ⟨_, a, ok, fun _ _ _ same => absurd ⟨_, _, same⟩ named⟩
      · exact fun _ _ same => named ⟨_, _, same⟩
  · rw [declareLocals] at ok
    · exact ⟨_, _, ok, fun _ _ same => absurd same store⟩
    · exact newline
    · exact store

/-- Wherever a body stores to a local variable, it has the variable from the start. -/
theorem declareLocals_knows {front : List Lexeme} (on : settings.features .implicitLocals = true)
    (plain : isGlobalName name = false) (direct : more.head?.any startsOffset = false)
    (ok : declareLocals settings line (front ++ .mark .store :: .ident name :: more) a =
      .ok () a') : (a'.table.variableOf? name).isSome := by
  induction front generalizing line a with
  | nil =>
    obtain ⟨_, a₁, later, stored⟩ := declareLocals_cons_ok ok
    exact (declareLocals_declares _ _ _ later).knows (stored name more rfl rfl on plain direct)
  | cons l front ih =>
    obtain ⟨_, a₁, later, -⟩ := declareLocals_cons_ok ok
    exact ih later

/-- A global variable is declared where it is named. -/
theorem declareGlobals_cons_ok {before : Option Lexeme} {inside : Bool}
    (ok : declareGlobals before inside line (l :: rest) a = .ok () a') :
    ∃ inside' line' a₁, declareGlobals (some l) inside' line' rest a₁ = .ok () a' ∧
      ∀ name, l = .ident name → isGlobalName name = true → rest.head? ≠ some (.mark .lparen) →
        before ≠ some (.keyword .proc) → (a₁.table.variableOf? name).isSome := by
  by_cases newline : l = .endOfLine
  · subst newline
    exact ⟨_, _, _, ok, by simp⟩
  rw [declareGlobals] at ok
  · split at ok
    · obtain ⟨_, _, thrown, -⟩ := step_bind_ok_iff.mp ok
      exact absurd thrown step_throw_ne_ok
    · dsimp only at ok
      split at ok
      · next named =>
        replace ok := step_get_ok ok
        split at ok
        · obtain ⟨_, a₁, declared, ok⟩ := step_bind_ok_iff.mp ok
          refine ⟨_, _, a₁, ok, fun _ same _ _ _ => ?_⟩
          cases same
          exact declareVariable_knows declared
        · next known =>
          refine ⟨_, _, a, ok, fun _ same global alone behind => ?_⟩
          cases same
          simpa [global, alone, behind, Option.isSome_iff_ne_none] using known
      · next other => exact ⟨_, _, a, ok, fun _ same => absurd same (other _)⟩
  · exact newline

/-- Wherever a module stores to a global variable, it has the variable before its procedures. -/
theorem declareGlobals_knows {before : Option Lexeme} {inside : Bool} {front : List Lexeme}
    (global : isGlobalName name = true) (alone : more.head? ≠ some (.mark .lparen))
    (ok : declareGlobals before inside line (front ++ .mark .store :: .ident name :: more) a =
      .ok () a') : (a'.table.variableOf? name).isSome := by
  induction front generalizing before inside line a with
  | nil =>
    obtain ⟨_, _, a₁, later, -⟩ := declareGlobals_cons_ok ok
    obtain ⟨_, _, a₂, later, named⟩ := declareGlobals_cons_ok later
    exact (declareGlobals_declares _ _ _ _ later).knows (named name rfl global alone (by simp))
  | cons l front ih =>
    obtain ⟨_, _, a₁, later, -⟩ := declareGlobals_cons_ok ok
    exact ih later

end Passes

/-! ## Bodies in their module -/

section Bodies

variable {settings : Settings} {name : String} {a a' : Assembly} {source : ProcedureSource}

/-- Lexemes store to a name directly, and not through it as a pointer. A global variable must not
look like a call there. -/
def StoresTo (name : String) (lexemes : List Lexeme) : Prop :=
  ∃ front more, lexemes = front ++ .mark .store :: .ident name :: more ∧
    more.head?.any startsOffset = false ∧
    (isGlobalName name = true → more.head? ≠ some (.mark .lparen))

/-- A global variable that a body stores to is there when its module has been prepared. -/
theorem prepare_knows {lines : List Text} {sources : List ProcedureSource}
    (ok : prepare settings lines a = .ok sources a') (member : source ∈ sources)
    (global : isGlobalName name = true) (stores : StoresTo name source.body) :
    (a'.table.variableOf? name).isSome := by
  obtain ⟨a₁, a₂, lexemes, -, globals, stand⟩ := prepare_stands ok
  obtain ⟨front, back, whole, ends⟩ := stand source member
  obtain ⟨start, more, body, -, alone⟩ := stores
  have after : (more ++ back).head? ≠ some (.mark .lparen) := by
    cases more with
    | nil => exact ends
    | cons l rest => exact alone global
  rw [whole, body] at globals
  simp only [List.append_assoc, List.cons_append] at globals
  rw [← List.append_assoc, ← List.append_assoc] at globals
  exact declareGlobals_knows global after globals

/-- A global variable stays in the table up to the end of its module. -/
theorem KeepsGlobals.knows (keeps : KeepsGlobals a a') (distinct : a.table.Distinct)
    (global : isGlobalName name = true) (known : (a.table.variableOf? name).isSome) :
    (a'.table.variableOf? name).isSome := by
  obtain ⟨s, found⟩ := Option.isSome_iff_exists.mp known
  obtain ⟨member, named⟩ := distinct.variableOf?_eq_some_iff.mp found
  have exported : s.isExported = true := by
    rw [Symbol.isExported, named]
    exact isGlobalName_normalName global
  apply Option.isSome_iff_exists.mpr
  refine ⟨s, (keeps.distinct distinct).variableOf?_eq_some_iff.mpr ⟨?_, named⟩⟩
  exact keeps.mem member exported

/-- No body is rejected because a variable is undefined that it stores to. -/
theorem Reaches.body_spares {before : List (List Text)} {lines : List Text} {opened : Program}
    (reaches : Reaches settings before lines opened source a)
    (on : settings.features .implicitLocals = true)
    (begun : header settings source.header a = .ok () a') (stores : StoresTo name source.body)
    (line : Int) (left : Assembly) :
    body settings source.body a' ≠ .error (.fault line (.undefinedVariable name)) left := by
  intro failed
  rcases step_bind_error_iff.mp failed with got | ⟨_, _, got, failed⟩
  · contradiction
  obtain ⟨rfl, rfl⟩ := step_get_ok_iff.mp got
  rcases step_bind_error_iff.mp failed with early | ⟨_, a₂, locals, failed⟩
  · exact declareLocals_spares early
  -- A local is declared in front of its body, a global in front of its module.
  have known : (a₂.table.variableOf? name).isSome := by
    cases global : isGlobalName name with
    | false =>
      obtain ⟨front, more, body, direct, -⟩ := stores
      rw [body] at locals
      exact declareLocals_knows on global direct locals
    | true =>
      obtain @⟨a₀, a₁, b, _, _, assembled, -, prepared, done⟩ := reaches
      obtain ⟨⟨kept, renews⟩, only⟩ := assembleModules_renews assembled
      have opened := prepare_renews prepared only
      have distinct := opened.distinct (renews.distinct List.nodup_nil)
      have lined : KeepsGlobals b { b with line := source.line } := .of_every (.same rfl rfl)
      have begins : KeepsGlobals { b with line := source.line } a₂ :=
        .trans (.of_exported (header_renews begun)) (.of_every (declareLocals_renews _ _ _ locals))
      have keeps : KeepsGlobals a₁ a₂ :=
        ((procedures_keepsGlobals done).trans lined).trans begins
      exact keeps.knows distinct global (prepare_knows prepared (by simp) global stores)
  refine statements_spares ?_ failed
  simpa [Scope.address?, Option.isSome_iff_ne_none] using known

end Bodies

end HighAsm
