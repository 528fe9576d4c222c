import HighAsm.Proofs.ExpressionCode
import HighAsm.Proofs.Nesting

/-!
# Reading a body

`Statement.Spelled` is the grammar of statements, and `Statement.SpelledAll` that of a body, in
which statements follow each other, on lines or behind colons. `Statement.sequence` reads all
statements of a body as they are spelled, without assembling any of them. What the machine needs of
them is gathered in `Statement.Sound`: every operator is one, a structure tests one of the three
relations to zero, and a call is of a known procedure, with no more arguments than there are
parameter registers.
-/

namespace HighAsm

open List

/-- A procedure by the normal form of its name, as a symbol tells of it. -/
def Symbol.procedure (s : Symbol) : Procedure := ⟨s.name, s.value, s.params⟩

/-- A procedure is in the table. -/
def SymbolTable.Knows (t : SymbolTable) (callee : Procedure) : Prop :=
  ∃ s ∈ t.entries, s.isProcedure ∧ s.procedure = callee

theorem SymbolTable.knows_of_procedureOf? {t : SymbolTable} {name : Text} {s : Symbol}
    (found : t.procedureOf? name = some s) : t.Knows ⟨normalName name, s.value, s.params⟩ := by
  obtain ⟨entered, procedure⟩ := Option.filter_eq_some_iff.mp found
  have key : s.key = normalName name ++ "(" := by simpa using find?_some entered
  rw [Symbol.key, if_pos procedure, String.append_left_inj] at key
  exact ⟨s, mem_of_find?_eq_some entered, procedure, by rw [Symbol.procedure, key]⟩

namespace Statement

/-- The statements of a body, after a number of lexemes that belong to the statement before. -/
def sequence (scope : Scope) : Nat → List Lexeme → Except Fault (List Statement)
  | _, [] => .ok []
  | skip + 1, _ :: rest => sequence scope skip rest
  | 0, .endOfLine :: rest => sequence scope 0 rest
  | 0, .mark .colon :: rest => sequence scope 0 rest
  | 0, l :: rest => do
    let (s, used) ← parse scope l rest
    let more ← sequence scope used rest
    return s :: more

/-- What holds of a statement because it was accepted: at most a number of arguments are passed,
and only to known procedures. -/
def Sound (limit : Int) (known : Procedure → Prop) : Statement → Prop
  | ret => True
  | eval e => e.Defined
  | call name entry declared args =>
    known ⟨normalName name, entry, declared⟩ ∧ (args.length : Int) ≤ limit
  | openIf e skip => e.Defined ∧ ∃ r : Relation, skip = r.failTest
  | openWhile e leave => e.Defined ∧ ∃ r : Relation, leave = r.failTest
  | openFor count _ => count.Defined
  | close _ => True

theorem Sound.mono {limit : Int} {known more : Procedure → Prop} {s : Statement}
    (sound : s.Sound limit known) (grown : ∀ callee, known callee → more callee) :
    s.Sound limit more := by
  cases s with
  | call name entry declared args => exact ⟨grown _ sound.1, sound.2⟩
  | ret | eval _ | openIf _ _ | openWhile _ _ | openFor _ _ | close _ => exact sound

end Statement

/-- The mark that a relation to zero is written with. -/
def Relation.mark : Relation → Mark
  | nonZero => .hash
  | zero => .equal
  | negative => .less

theorem Mark.failTest?_eq_some {mark : Mark} {test : Test} (known : mark.failTest? = some test) :
    ∃ r : Relation, mark = r.mark ∧ test = r.failTest := by
  unfold Mark.failTest? at known
  split at known
  · exact ⟨.nonZero, rfl, (Option.some.inj known).symm⟩
  · exact ⟨.zero, rfl, (Option.some.inj known).symm⟩
  · exact ⟨.negative, rfl, (Option.some.inj known).symm⟩
  · contradiction

/-- Operands with commas between them. -/
inductive Scope.SpellsArguments (scope : Scope) : List Lexeme → List Operand → Prop
  | none : SpellsArguments scope [] []
  | last {l : Lexeme} {o : Operand} (spelled : scope.SpellsOperand l o) :
      SpellsArguments scope [l] [o]
  | more {l : Lexeme} {rest : List Lexeme} {o : Operand} {others : List Operand}
      (spelled : scope.SpellsOperand l o) (goesOn : rest ≠ [])
      (later : SpellsArguments scope rest others) :
      SpellsArguments scope (l :: .mark .comma :: rest) (o :: others)

namespace Statement

/-- How a statement is written, and what its names mean. -/
inductive Spelled (scope : Scope) : List Lexeme → Statement → Prop
  | ret : Spelled scope [.keyword .endproc] .ret
  | eval {lexemes : List Lexeme} {e : Expression} (spelled : scope.Spells lexemes e) :
      Spelled scope lexemes (.eval e)
  | call {name : String} {callee : Symbol} {inner : List Lexeme} {args : List Operand}
      (known : scope.table.procedureOf? name = some callee)
      (spelled : scope.SpellsArguments inner args)
      (few : (args.length : Int) ≤ scope.settings.maxParams) :
      Spelled scope (.ident name :: .mark .lparen :: (inner ++ [.mark .rparen]))
        (.call name callee.value callee.params args)
  | openIf {inner : List Lexeme} {e : Expression} (r : Relation) (spelled : scope.Spells inner e) :
      Spelled scope (.keyword (.opens .ifBlock) :: .mark .lparen ::
        (inner ++ [.mark r.mark, .number 0] ++ [.mark .rparen])) (.openIf e r.failTest)
  | openWhile {inner : List Lexeme} {e : Expression} (r : Relation)
      (spelled : scope.Spells inner e) :
      Spelled scope (.keyword (.opens .whileLoop) :: .mark .lparen ::
        (inner ++ [.mark r.mark, .number 0] ++ [.mark .rparen])) (.openWhile e r.failTest)
  /-- The index goes to a variable if the settings say so and there is one of that name. -/
  | openFor {inner : List Lexeme} {count : Expression} {index : Option Int}
      (spelled : scope.Spells inner count)
      (indexed : ∀ place, index = some place ↔ scope.settings.features .indexVariable = true ∧
        scope.address? scope.settings.indexName = some place) :
      Spelled scope (.keyword (.opens .forLoop) :: .mark .lparen :: (inner ++ [.mark .rparen]))
        (.openFor count index)
  | close (block : Block) : Spelled scope [.keyword (.closes block)] (.close block)

/-- An expression goes on to the end of its line, to a colon, or to the next reserved word. -/
def EndsBefore (rest : List Lexeme) : Statement → Prop
  | eval _ => ∀ l ∈ rest.head?, endsExpression l = true
  | _ => True

/-- Statements in order, with line ends and colons around them. -/
inductive SpelledAll (scope : Scope) : List Lexeme → List Statement → Prop
  | nil : SpelledAll scope [] []
  | line {rest : List Lexeme} {read : List Statement} (later : SpelledAll scope rest read) :
      SpelledAll scope (.endOfLine :: rest) read
  | colon {rest : List Lexeme} {read : List Statement} (later : SpelledAll scope rest read) :
      SpelledAll scope (.mark .colon :: rest) read
  | cons {lexemes rest : List Lexeme} {s : Statement} {read : List Statement}
      (first : Spelled scope lexemes s) (ends : s.EndsBefore rest)
      (later : SpelledAll scope rest read) : SpelledAll scope (lexemes ++ rest) (s :: read)

variable {scope : Scope} {inner lexemes rest : List Lexeme} {first : Lexeme} {e : Expression}
  {s : Statement} {read : List Statement}

theorem parens_closed (closed : parens lexemes = .closed inner) :
    ∃ after, lexemes = inner ++ .mark .rparen :: after ∧
      .mark .rparen ∉ inner ∧ .endOfLine ∉ inner := by
  induction lexemes generalizing inner with
  | nil => contradiction
  | cons l rest ih =>
    unfold parens at closed
    split at closed
    · obtain rfl := Parens.closed.inj closed
      exact ⟨rest, rfl, not_mem_nil, not_mem_nil⟩
    · contradiction
    · contradiction
    · contradiction
    · contradiction
    · next notClosing _ _ notLine _ =>
      split at closed
      · next found inside =>
        obtain rfl := Parens.closed.inj closed
        obtain ⟨after, rfl, once, inline⟩ := ih inside
        exact ⟨after, rfl, not_mem_cons_of_ne_of_not_mem (Ne.symm notClosing) once,
          not_mem_cons_of_ne_of_not_mem (Ne.symm notLine) inline⟩
      · next other => exact absurd closed (other _)

theorem parenthesized_split (accepted : parenthesized first rest = .ok inner) :
    ∃ after, rest = .mark .lparen :: (inner ++ .mark .rparen :: after) ∧
      .mark .rparen ∉ inner ∧ .endOfLine ∉ inner := by
  unfold parenthesized at accepted
  split at accepted
  · split at accepted
    · next closed =>
      cases accepted
      obtain ⟨after, rfl, inside⟩ := parens_closed closed
      exact ⟨after, rfl, inside⟩
    · contradiction
    · contradiction
  · contradiction

theorem parenthesized_ok (accepted : parenthesized first rest = .ok inner) :
    rest.take (inner.length + 2) = .mark .lparen :: (inner ++ [.mark .rparen]) := by
  obtain ⟨after, rfl, -⟩ := parenthesized_split accepted
  simp [take_append, take_of_length_le]

theorem test_spelled {block : Block} {front : List Lexeme} {fails : Test}
    (accepted : test block inner = .ok (front, fails)) :
    ∃ r : Relation, inner = front ++ [.mark r.mark, .number 0] ∧ fails = r.failTest := by
  unfold test at accepted
  split at accepted
  · next n relation back reversed =>
    split at accepted
    · contradiction
    · next known =>
      obtain ⟨r, rfl, rfl⟩ := Mark.failTest?_eq_some known
      split at accepted
      · contradiction
      · split at accepted
        · contradiction
        · next zero =>
          cases accepted
          refine ⟨r, ?_, rfl⟩
          rw [← reverse_reverse inner, reversed, Decidable.not_not.mp zero]
          simp
  · contradiction

theorem condition_spelled {block : Block} {fails : Test}
    (accepted : condition scope block inner = .ok (e, fails)) :
    ∃ (front : List Lexeme) (r : Relation), inner = front ++ [.mark r.mark, .number 0] ∧
      scope.Spells front e ∧ fails = r.failTest := by
  obtain ⟨⟨front, fails'⟩, tested, accepted⟩ := bind_ok_iff.mp accepted
  obtain ⟨e', read, same⟩ := map_ok_iff.mp accepted
  cases same
  obtain ⟨r, split, named⟩ := test_spelled tested
  exact ⟨front, r, split, Scope.expression_ok_iff.mp read, named⟩

theorem count_spelled {index : Option Int} (accepted : count scope inner = .ok (e, index)) :
    scope.Spells inner e ∧
      ∀ place, index = some place ↔ scope.settings.features .indexVariable = true ∧
        scope.address? scope.settings.indexName = some place := by
  unfold count at accepted
  split at accepted
  · contradiction
  · obtain ⟨e', read, accepted⟩ := bind_ok_iff.mp accepted
    cases accepted
    refine ⟨Scope.expression_ok_iff.mp read, fun place => ?_⟩
    split
    · next on => simp [on]
    · next off => simp [off]

theorem arguments_spelled {name : String} {position : Nat} {args : List Operand}
    (accepted : arguments scope name position lexemes = .ok args) :
    scope.SpellsArguments lexemes args := by
  fun_induction arguments scope name position lexemes generalizing args with
  | case1 =>
    cases accepted
    exact .none
  | case2 position l =>
    obtain ⟨o, read, rfl⟩ := map_ok_iff.mp accepted
    exact .last (Scope.operand_ok_iff.mp read)
  | case3 => contradiction
  | case4 position l comma rest isComma ih =>
    obtain ⟨o, read, accepted⟩ := bind_ok_iff.mp accepted
    split at accepted
    · contradiction
    · next goesOn =>
      obtain ⟨more, others, accepted⟩ := bind_ok_iff.mp accepted
      cases accepted
      obtain rfl := Decidable.not_not.mp isComma
      exact .more (Scope.operand_ok_iff.mp read) (by simpa using goesOn) (ih others)

theorem callOf_spelled {name : String} (accepted : callOf scope name inner = .ok s) :
    Spelled scope (.ident name :: .mark .lparen :: (inner ++ [.mark .rparen])) s ∧
      ∀ rest, s.EndsBefore rest := by
  unfold callOf at accepted
  split at accepted
  · contradiction
  · next callee known =>
    obtain ⟨args, read, accepted⟩ := bind_ok_iff.mp accepted
    split at accepted
    · contradiction
    · next few =>
      cases accepted
      exact ⟨.call known (arguments_spelled read) (Int.not_lt.mp few), fun _ => trivial⟩

/-- The lexemes of an expression that stands alone, and what comes behind them. -/
theorem eval_spelled {tail : List Lexeme}
    (taken : tail = rest.takeWhile fun l => !endsExpression l)
    (accepted : scope.expression
      (if endsExpression first && !first.isKeyword then [] else first :: tail) = .ok e) :
    Spelled scope (first :: rest.take tail.length) (.eval e) ∧
      (Statement.eval e).EndsBefore (rest.drop tail.length) := by
  let back := rest.dropWhile fun l => !endsExpression l
  have parts : tail ++ back = rest := by
    rw [taken, takeWhile_append_dropWhile]
  have front : rest.take tail.length = tail := by
    rw [← parts, take_left]
  have behind : rest.drop tail.length = back := by
    rw [← parts, drop_left]
  constructor
  · split at accepted
    · contradiction
    · rw [front]
      exact .eval (Scope.expression_ok_iff.mp accepted)
  · intro l here
    have stops := head?_dropWhile_not (fun l => !endsExpression l) rest
    rw [behind] at here
    rw [Option.mem_def.mp here] at stops
    simpa using stops

theorem parse_spelled {used : Nat} (accepted : parse scope first rest = .ok (s, used)) :
    Spelled scope (first :: rest.take used) s ∧ s.EndsBefore (rest.drop used) := by
  unfold parse at accepted
  split at accepted
  · cases accepted
    exact ⟨.ret, trivial⟩
  · next block =>
    cases accepted
    exact ⟨.close block, trivial⟩
  · next block =>
    obtain ⟨inner, enclosed, accepted⟩ := bind_ok_iff.mp accepted
    have written := parenthesized_ok enclosed
    cases block with
    | ifBlock =>
      obtain ⟨opened, read, accepted⟩ := bind_ok_iff.mp accepted
      cases accepted
      obtain ⟨⟨e, test⟩, tested, rfl⟩ := map_ok_iff.mp read
      obtain ⟨front, r, rfl, spelled, rfl⟩ := condition_spelled tested
      rw [written]
      exact ⟨.openIf r spelled, trivial⟩
    | whileLoop =>
      obtain ⟨opened, read, accepted⟩ := bind_ok_iff.mp accepted
      cases accepted
      obtain ⟨⟨e, test⟩, tested, rfl⟩ := map_ok_iff.mp read
      obtain ⟨front, r, rfl, spelled, rfl⟩ := condition_spelled tested
      rw [written]
      exact ⟨.openWhile r spelled, trivial⟩
    | forLoop =>
      obtain ⟨opened, read, accepted⟩ := bind_ok_iff.mp accepted
      cases accepted
      obtain ⟨⟨e, index⟩, counted, rfl⟩ := map_ok_iff.mp read
      obtain ⟨spelled, indexed⟩ := count_spelled counted
      rw [written]
      exact ⟨.openFor spelled indexed, trivial⟩
  · split at accepted
    · obtain ⟨inner, enclosed, accepted⟩ := bind_ok_iff.mp accepted
      obtain ⟨called, resolved, accepted⟩ := bind_ok_iff.mp accepted
      cases accepted
      obtain ⟨spelled, ends⟩ := callOf_spelled resolved
      rw [parenthesized_ok enclosed]
      exact ⟨spelled, ends _⟩
    · obtain ⟨e, expression, accepted⟩ := bind_ok_iff.mp accepted
      cases accepted
      exact eval_spelled rfl expression

theorem Spelled.sound (spelled : Spelled scope lexemes s) :
    s.Sound scope.settings.maxParams scope.table.Knows := by
  cases spelled with
  | ret => trivial
  | eval spelled | openFor spelled => exact spelled.defined
  | call known _ few => exact ⟨SymbolTable.knows_of_procedureOf? known, few⟩
  | openIf r spelled | openWhile r spelled => exact ⟨spelled.defined, r, rfl⟩
  | close => trivial

theorem SpelledAll.sound (spelled : SpelledAll scope lexemes read) :
    ∀ s ∈ read, s.Sound scope.settings.maxParams scope.table.Knows := by
  induction spelled with
  | nil => simp
  | line _ ih => exact ih
  | colon _ ih => exact ih
  | cons first _ _ ih =>
    intro s member
    rcases mem_cons.mp member with rfl | later
    · exact first.sound
    · exact ih s later

theorem sequence_spelled {skip : Nat} (accepted : sequence scope skip lexemes = .ok read) :
    SpelledAll scope (lexemes.drop skip) read := by
  fun_induction sequence scope skip lexemes generalizing read with
  | case1 =>
    cases accepted
    rw [drop_nil]
    exact .nil
  | case2 skip _ rest ih => exact ih accepted
  | case3 rest ih => exact .line (ih accepted)
  | case4 rest ih => exact .colon (ih accepted)
  | case5 l rest _ _ ih =>
    obtain ⟨⟨s, used⟩, parsed, accepted⟩ := bind_ok_iff.mp accepted
    obtain ⟨more, others, accepted⟩ := bind_ok_iff.mp accepted
    cases accepted
    obtain ⟨spelled, ends⟩ := parse_spelled parsed
    have both := SpelledAll.cons spelled ends (ih used others)
    rwa [cons_append, take_append_drop] at both

end Statement

end HighAsm
