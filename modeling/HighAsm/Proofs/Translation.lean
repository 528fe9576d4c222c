import HighAsm.Proofs.Robustness

/-!
# The translation of expressions

The lexemes of an expression are divided into a first term and pairs, each of an operator with a
constant or a variable, or of a store with its target. A `Division` gives the parts together with
the instructions of each. There is at most one for any lexemes, and the assembler accepts them as an
expression exactly if there is one; what it asks of the builder is then the instructions of the
parts in order, and nothing else.
-/

namespace HighAsm

open List Assembly

namespace Scope

/-- A term with the instructions that load it. -/
inductive Loads (scope : Scope) : List Lexeme → List Instr → Prop
  | simple {l : Lexeme} {operand : Operand} (spelled : scope.SpellsOperand l operand) :
      Loads scope [l] [.load operand]
  | indexed {lexemes : List Lexeme} {base : Int} {offset : Operand} {width : Width}
      (spelled : scope.SpellsIndexed lexemes base offset width) :
      Loads scope lexemes [.load (.var base), .binary .add offset, .loadIndirect width]

/-- An operator or a store with what follows it, and the instructions that carry it out. -/
inductive CarriesOut (scope : Scope) : List Lexeme → List Instr → Prop
  | combine {op : BinOp} {m : Mark} {l : Lexeme} {right : Operand} (named : op.mark? = some m)
      (spelled : scope.SpellsOperand l right) : CarriesOut scope [.mark m, l] [.binary op right]
  | store {name : String} {address : Int} (known : scope.address? name = some address) :
      CarriesOut scope [.mark .store, .ident name] [.store address]
  | storeIndexed {lexemes : List Lexeme} {base : Int} {offset : Operand} {width : Width}
      (spelled : scope.SpellsIndexed lexemes base offset width) :
      CarriesOut scope (.mark .store :: lexemes)
        [.copyToTemp, .load (.var base), .binary .add offset, .storeIndirect width]

/-- A part of an expression: its lexemes and its instructions. -/
abbrev Part := List Lexeme × List Instr

/-- Lexemes divided into a first term and pairs. -/
@[ext]
structure Division (scope : Scope) (lexemes : List Lexeme) where
  first : Part
  pairs : List Part
  whole : lexemes = first.1 ++ pairs.flatMap (·.1)
  loads : scope.Loads first.1 first.2
  carryOut : ∀ pair ∈ pairs, scope.CarriesOut pair.1 pair.2

/-- The instructions of all parts in order. -/
def Division.code {scope : Scope} {lexemes : List Lexeme} (d : scope.Division lexemes) :
    List Instr :=
  d.first.2 ++ d.pairs.flatMap (·.2)

variable {scope : Scope} {lexemes rest others : List Lexeme} {code : List Instr}

/-! ## Parts and what they spell -/

theorem loads_iff : scope.Loads lexemes code ↔ ∃ t, scope.SpellsTerm lexemes t ∧ code = t.code := by
  constructor
  · rintro (spelled | spelled)
    · exact ⟨_, .simple spelled, rfl⟩
    · exact ⟨_, .indexed spelled, rfl⟩
  · rintro ⟨t, spelled | spelled, rfl⟩
    · exact .simple spelled
    · exact .indexed spelled

theorem carriesOut_iff :
    scope.CarriesOut lexemes code ↔ ∃ o, scope.SpellsOperation lexemes o ∧ code = o.code := by
  constructor
  · rintro (⟨named, spelled⟩ | known | spelled)
    · exact ⟨_, .combine named spelled, rfl⟩
    · exact ⟨_, .store known, rfl⟩
    · exact ⟨_, .storeIndexed spelled, rfl⟩
  · rintro ⟨o, ⟨named, spelled⟩ | known | spelled, rfl⟩
    · exact .combine named spelled
    · exact .store known
    · exact .storeIndexed spelled

/-- A term ends where no offset follows. -/
theorem SpellsTerm.unique {t u : Term} (spelled : scope.SpellsTerm lexemes t)
    (ends : ∀ l ∈ rest.head?, ¬ IndexMark l) {lexemes' rest' : List Lexeme}
    (spelled' : scope.SpellsTerm lexemes' u) (ends' : ∀ l ∈ rest'.head?, ¬ IndexMark l)
    (same : lexemes ++ rest = lexemes' ++ rest') : lexemes = lexemes' ∧ rest = rest' ∧ t = u := by
  have read := spelled.accepted ends
  rw [same, spelled'.accepted ends'] at read
  obtain ⟨rfl, length⟩ := Prod.mk.inj (Except.ok.inj read)
  obtain ⟨rfl, rfl⟩ := append_inj same length.symm
  exact ⟨rfl, rfl, rfl⟩

/-- A pair begins with its mark, and what follows it is a term. -/
theorem CarriesOut.built (carries : scope.CarriesOut lexemes code) :
    ∃ mark target first t build o, lexemes = mark :: target :: first ∧
      scope.SpellsTerm (target :: first) t ∧ operation? mark = some build ∧
      build target t = .ok o ∧ code = o.code := by
  obtain ⟨o, spelled, rfl⟩ := carriesOut_iff.mp carries
  obtain ⟨mark, target, first, t, build, rfl, term, known, built, -⟩ := spelled.built
  exact ⟨mark, target, first, t, build, o, rfl, term, known, built, rfl⟩

/-! ## Rows of pairs -/

section Pairs

variable {pairs pairs' : List Part}

theorem spell_of_pairs (carry : ∀ pair ∈ pairs, scope.CarriesOut pair.1 pair.2) :
    ∃ operations, scope.SpellsOperations (pairs.flatMap (·.1)) operations ∧
      pairs.flatMap (·.2) = operations.flatMap Operation.code := by
  induction pairs with
  | nil => exact ⟨[], .nil, rfl⟩
  | cons pair rest ih =>
    obtain ⟨here, later⟩ := forall_mem_cons.mp carry
    obtain ⟨o, spelled, code⟩ := carriesOut_iff.mp here
    obtain ⟨others, spelledAll, codes⟩ := ih later
    exact ⟨o :: others, .cons spelled spelledAll, by rw [flatMap_cons, code, codes]; rfl⟩

theorem SpellsOperations.exists_pairs {operations : List Operation}
    (spelled : scope.SpellsOperations lexemes operations) :
    ∃ pairs : List Part, lexemes = pairs.flatMap (·.1) ∧
      ∀ pair ∈ pairs, scope.CarriesOut pair.1 pair.2 := by
  induction spelled with
  | nil => exact ⟨[], rfl, forall_mem_nil _⟩
  | @cons first rest o others spelled _ ih =>
    obtain ⟨pairs, rfl, carry⟩ := ih
    refine ⟨(first, o.code) :: pairs, rfl, forall_mem_cons.mpr ⟨?_, carry⟩⟩
    exact carriesOut_iff.mpr ⟨o, spelled, rfl⟩

variable (carry : ∀ pair ∈ pairs, scope.CarriesOut pair.1 pair.2)
include carry

/-- No pair begins where a term could go on. -/
theorem head_of_pairs : ∀ l ∈ (pairs.flatMap (·.1)).head?, ¬ IndexMark l := by
  obtain ⟨operations, spelled, -⟩ := spell_of_pairs carry
  exact spelled.head

theorem pairs_unique (carry' : ∀ pair ∈ pairs', scope.CarriesOut pair.1 pair.2)
    (same : pairs.flatMap (·.1) = pairs'.flatMap (·.1)) : pairs = pairs' := by
  induction pairs generalizing pairs' with
  | nil =>
    cases pairs' with
    | nil => rfl
    | cons pair' rest' =>
      obtain ⟨_, _, _, _, _, _, shape, -⟩ := (forall_mem_cons.mp carry').1.built
      rw [flatMap_cons, shape] at same
      contradiction
  | cons pair rest ih =>
    obtain ⟨here, later⟩ := forall_mem_cons.mp carry
    obtain ⟨mark, target, first, t, build, o, shape, term, known, built, code⟩ := here.built
    cases pairs' with
    | nil =>
      rw [flatMap_cons, shape] at same
      contradiction
    | cons pair' rest' =>
      obtain ⟨here', later'⟩ := forall_mem_cons.mp carry'
      obtain ⟨mark', target', first', t', build', o', shape', term', known', built', code'⟩ :=
        here'.built
      rw [flatMap_cons, flatMap_cons, shape, shape', cons_append,
        cons_append] at same
      obtain ⟨rfl, behind⟩ := List.cons.inj same
      obtain ⟨targets, rests, rfl⟩ :=
        term.unique (head_of_pairs later) term' (head_of_pairs later') behind
      cases targets
      obtain rfl := Option.some.inj (known.symm.trans known')
      obtain rfl := Except.ok.inj (built.symm.trans built')
      rw [ih later later' rests, Prod.ext (shape.trans shape'.symm) (code.trans code'.symm)]

end Pairs

/-! ## Divisions and expressions -/

theorem Division.unique (d d' : scope.Division lexemes) : d = d' := by
  obtain ⟨t, spelled, code⟩ := loads_iff.mp d.loads
  obtain ⟨t', spelled', code'⟩ := loads_iff.mp d'.loads
  obtain ⟨firsts, rests, rfl⟩ := spelled.unique (head_of_pairs d.carryOut) spelled'
    (head_of_pairs d'.carryOut) (d.whole.symm.trans d'.whole)
  exact Division.ext (Prod.ext firsts (code.trans code'.symm))
    (pairs_unique d.carryOut d'.carryOut rests)

theorem Division.accepted (d : scope.Division lexemes) :
    ∃ e, scope.expression lexemes = .ok e ∧ e.code = d.code := by
  obtain ⟨t, spelled, code⟩ := loads_iff.mp d.loads
  obtain ⟨operations, spelledAll, codes⟩ := spell_of_pairs d.carryOut
  refine ⟨⟨t, operations⟩, expression_ok_iff.mpr ⟨_, _, d.whole, spelled, spelledAll⟩, ?_⟩
  rw [Division.code, code, codes]
  rfl

theorem exists_division {e : Expression} (accepted : scope.expression lexemes = .ok e) :
    Nonempty (scope.Division lexemes) := by
  obtain ⟨first, rest, whole, term, operations⟩ := expression_ok_iff.mp accepted
  obtain ⟨pairs, rfl, carry⟩ := operations.exists_pairs
  exact ⟨⟨(first, e.first.code), pairs, whole, loads_iff.mpr ⟨_, term, rfl⟩, carry⟩⟩

end Scope

/-! ## Assembling -/

namespace Statement

/-- A statement that begins with a lexeme is an expression: it has no reserved word of its own and
is no call. -/
def IsExpression (first : Lexeme) (rest : List Lexeme) : Prop :=
  (∀ word, first = .keyword word → word = .proc) ∧
    ∀ name, first = .ident name → rest.head? ≠ some (.mark .lparen)

/-- The lexemes of an expression that stands alone. -/
theorem take_reach (first : Lexeme) (rest : List Lexeme) :
    (first :: rest).take (reach (first :: rest)) =
      if endsExpression first && !first.isKeyword then []
      else first :: rest.takeWhile fun l => !endsExpression l := by
  rw [reach]
  split
  · rfl
  · rw [take_succ_cons, ← prefix_iff_eq_take.mp (List.takeWhile_prefix _)]

theorem parse_expression {scope : Scope} {first : Lexeme} {rest : List Lexeme}
    (alone : IsExpression first rest) :
    parse scope first rest =
      (scope.expression ((first :: rest).take (reach (first :: rest)))).map fun e =>
        (.eval e, (rest.takeWhile fun l => !endsExpression l).length) := by
  rw [take_reach]
  unfold parse
  split
  · exact absurd (alone.1 _ rfl) (by simp)
  · exact absurd (alone.1 _ rfl) (by simp)
  · exact absurd (alone.1 _ rfl) (by simp)
  · split
    · exact absurd rfl (alone.2 _ rfl)
    · dsimp only
      generalize scope.expression _ = read
      cases read <;> rfl

end Statement

section Assembling

variable {settings : Settings} {blocks : List OpenBlock} {flow : Flow} {l : Lexeme}
  {rest lexemes : List Lexeme} {a : Assembly}

/-- Where an expression stands alone in a body, it is assembled as such, and then the rest is. -/
theorem statements_expression_eq (notLine : l ≠ .endOfLine) (notColon : l ≠ .mark .colon)
    (alone : Statement.IsExpression l rest) :
    statements settings 0 blocks flow (l :: rest) a =
      (expression settings ((l :: rest).take (Statement.reach (l :: rest))) >>= fun _ =>
        statements settings (rest.takeWhile fun l => !Statement.endsExpression l).length blocks
          { flow with remarked := flow.returned } rest)
      { a with cautions := flow.cautions a } := by
  have parses : Statement.parse ⟨settings, a.table⟩ l rest = _ := Statement.parse_expression alone
  cases read : Scope.expression ⟨settings, a.table⟩
      ((l :: rest).take (Statement.reach (l :: rest))) with
  | error fault =>
    rw [read] at parses
    rw [statements_unparsed_eq notLine notColon parses, step_bind_error_iff.mpr
      (.inl (expression_error (a := { a with cautions := flow.cautions a }) read))]
  | ok e =>
    rw [read] at parses
    rw [statements_parsed_eq notLine notColon parses, step_bind_eq_of_ok
      (expression_ok (a := { a with cautions := flow.cautions a }) read)]
    have unchanged : flow.after (.eval e) blocks = { flow with remarked := flow.returned } := by
      simp [Flow.after]
    rw [show (Statement.eval e).caution? a.line = none from rfl, Option.toList_none,
      append_nil, ← unchanged]
    exact step_bind_eq_of_ok (statement_simple (.eval e))

/-- Lexemes are accepted as an expression exactly if they can be divided into a term and pairs of an
operator and a simple term or of a store and its target, as the settings and the names that are
known allow. They can be divided in one way at most. What is asked of the builder is then the load
of the first term and, for every pair in order, its operation or its store, one instruction a
request; all else of the assembly stays as it is. Without a division nothing is asked for, and there
is a fault on the current line. A body in which an expression stands alone is assembled in just this
way. -/
theorem expression_translates_division (settings : Settings) (lexemes : List Lexeme)
    (a : Assembly) :
    (∀ d d' : Scope.Division ⟨settings, a.table⟩ lexemes, d = d') ∧
    ((∃ a', expression settings lexemes a = .ok () a') ↔
      Nonempty (Scope.Division ⟨settings, a.table⟩ lexemes)) ∧
    (∀ d : Scope.Division ⟨settings, a.table⟩ lexemes, ∃ b,
      expression settings lexemes a = .ok () { a with builder := b } ∧
      b.log.toList = a.builder.log.toList ++ d.code.map (fun i => (Request.emit i, none)) ∧
      b.program = a.builder.program.withCode (a.builder.program.code.toList ++ d.code)) ∧
    (¬ Nonempty (Scope.Division ⟨settings, a.table⟩ lexemes) →
      ∃ fault, expression settings lexemes a = .error (.fault a.line fault) a) ∧
    ∀ blocks flow l rest, l ≠ .endOfLine → l ≠ .mark .colon → Statement.IsExpression l rest →
      statements settings 0 blocks flow (l :: rest) a =
        (expression settings ((l :: rest).take (Statement.reach (l :: rest))) >>= fun _ =>
          statements settings (rest.takeWhile fun l => !Statement.endsExpression l).length blocks
            { flow with remarked := flow.returned } rest)
        { a with cautions := flow.cautions a } := by
  have translated (d : Scope.Division ⟨settings, a.table⟩ lexemes) : ∃ b,
      expression settings lexemes a = .ok () { a with builder := b } ∧
      b.log.toList = a.builder.log.toList ++ d.code.map (fun i => (Request.emit i, none)) ∧
      b.program = a.builder.program.withCode (a.builder.program.code.toList ++ d.code) := by
    obtain ⟨e, accepted, code⟩ := d.accepted
    refine ⟨_, expression_ok accepted, ?_, ?_⟩
    · rw [Builder.emitAll_log, code]
    · rw [Builder.emitAll_program, code]
  refine ⟨Scope.Division.unique, ⟨?_, ?_⟩, translated, fun none_ => ?_,
    fun _ _ _ _ notLine notColon alone => statements_expression_eq notLine notColon alone⟩
  · rintro ⟨a', ok⟩
    cases read : Scope.expression ⟨settings, a.table⟩ lexemes with
    | error fault =>
      rw [expression_error read] at ok
      contradiction
    | ok e => exact Scope.exists_division read
  · rintro ⟨d⟩
    obtain ⟨b, ok, -⟩ := translated d
    exact ⟨_, ok⟩
  · cases read : Scope.expression ⟨settings, a.table⟩ lexemes with
    | error fault => exact ⟨fault, expression_error read⟩
    | ok e => exact absurd (Scope.exists_division read) none_

end Assembling

end HighAsm
