import HighAsm.Assembly
import HighAsm.Proofs.Success

/-!
# Statements as a whole

While the assembler goes through a statement it checks, asks where it stands and writes. Nothing is
written before the last check, though, so that a statement can as well be parsed first, with all
names resolved, and then be assembled from what was parsed. This comes to the same
(`Assembly.compile_eq`), and everything else about statements is said of `Statement`s.
-/

namespace HighAsm

inductive Statement
  | ret
  | eval (e : Expression)
  /-- Call a procedure, of which the name and the declared number of parameters are known. -/
  | call (name : String) (entry : Int) (declared : Int) (args : List Operand)
  /-- Open a block that is skipped when the test holds of the expression. -/
  | openIf (e : Expression) (skip : Test)
  /-- Open a loop that is left when the test holds of the expression. -/
  | openWhile (e : Expression) (leave : Test)
  /-- Open a loop of a number of rounds; the index may go to a variable. -/
  | openFor (count : Expression) (index : Option Int)
  | close (block : Block)
  deriving DecidableEq, Repr

namespace Statement

/-- The expression of a test, and when the test fails. -/
def condition (scope : Scope) (block : Block) (inner : List Lexeme) :
    Except Fault (Expression × Test) := do
  let (front, fails) ← test block inner
  (scope.expression front).map (·, fails)

def count (scope : Scope) (inner : List Lexeme) : Except Fault (Expression × Option Int) :=
  if inner.isEmpty then .error .missingCount
  else do
    let e ← scope.expression inner
    let index :=
      if scope.settings.features .indexVariable then scope.address? scope.settings.indexName
      else none
    return (e, index)

def callOf (scope : Scope) (name : String) (inner : List Lexeme) : Except Fault Statement :=
  match scope.table.procedureOf? name with
  | none => .error (.unknownProcedure name)
  | some callee => do
    let args ← arguments scope name 1 inner
    if scope.settings.maxParams < args.length then
      .error (.tooManyArguments name args.length scope.settings.maxParams)
    else return .call name callee.value callee.params args

/-- The statement at the start of some lexemes, and how many of them follow its first one. -/
def parse (scope : Scope) (first : Lexeme) (rest : List Lexeme) :
    Except Fault (Statement × Nat) :=
  match first with
  | .keyword .endproc => .ok (.ret, 0)
  | .keyword (.closes block) => .ok (.close block, 0)
  | .keyword (.opens block) => do
    let inner ← parenthesized first rest
    let statement ←
      match block with
      | .ifBlock => (condition scope block inner).map fun (e, test) => openIf e test
      | .whileLoop => (condition scope block inner).map fun (e, test) => openWhile e test
      | .forLoop => (count scope inner).map fun (e, index) => openFor e index
    return (statement, inner.length + 2)
  | _ =>
    match first, rest with
    | .ident name, .mark .lparen :: _ => do
      let inner ← parenthesized first rest
      return (← callOf scope name inner, inner.length + 2)
    | _, _ => do
      let tail := rest.takeWhile fun l => !endsExpression l
      let lexemes := if endsExpression first && !first.isKeyword then [] else first :: tail
      return (.eval (← scope.expression lexemes), tail.length)

def caution? (line : Int) : Statement → Option Caution
  | .call name _ declared args =>
    if (args.length : Int) = declared then none
    else some (.argCount line name declared args.length)
  | _ => none

end Statement

/-- Only the word for a return is one. -/
theorem Statement.parse_ret {scope : Scope} {first : Lexeme} {rest : List Lexeme} {s : Statement}
    {used : Nat} (parsed : parse scope first rest = .ok (s, used)) :
    s = .ret ↔ first = .keyword .endproc := by
  unfold parse at parsed
  split at parsed
  · cases parsed
    simp
  · cases parsed
    simp
  · next block =>
    obtain ⟨inner, -, parsed⟩ := bind_ok_iff.mp parsed
    cases block with
    | ifBlock | whileLoop | forLoop =>
      dsimp only at parsed
      obtain ⟨made, read, done⟩ := bind_ok_iff.mp parsed
      obtain ⟨_, -, rfl⟩ := map_ok_iff.mp read
      cases done
      simp
  · next other _ _ =>
    refine ⟨?_, fun same => absurd same other⟩
    rintro rfl
    split at parsed
    · obtain ⟨inner, -, parsed⟩ := bind_ok_iff.mp parsed
      obtain ⟨made, read, done⟩ := bind_ok_iff.mp parsed
      cases done
      unfold callOf at read
      split at read
      · contradiction
      · obtain ⟨args, -, called⟩ := bind_ok_iff.mp read
        split at called <;> cases called
    · obtain ⟨e, -, parsed⟩ := bind_ok_iff.mp parsed
      cases parsed

namespace Assembly

/-- What is done for a statement that was parsed. -/
def statement (blocks : List OpenBlock) : Statement → Asm (List OpenBlock)
  | .ret => do
    emit [.ret]
    return blocks
  | .eval e => do
    emit e.code
    return blocks
  | .call _ entry _ args => do
    emit (passArguments 0 args ++ [.call entry])
    return blocks
  | .openIf e skip => do
    emit e.code
    let jump ← address
    emit [.jump skip 0]
    return .ifBlock skip jump :: blocks
  | .openWhile e leave => do
    let start ← address
    emit e.code
    let jump ← address
    emit [.jump leave 0]
    return .whileLoop start leave jump :: blocks
  | .openFor count index => do
    emit count.code
    let head ← address
    modify fun a => { a with builder := a.builder.openLoop }
    emit (index.toList.map .store)
    return .forLoop head :: blocks
  | .close block =>
    match block, blocks with
    | .ifBlock, .ifBlock skip jump :: others => do
      let b := (← get).builder
      setBuilder (← build (b.patch jump skip b.address))
      return others
    | .whileLoop, .whileLoop start leave jump :: others => do
      emit [.jump .always start]
      let b := (← get).builder
      setBuilder (← build (b.patch jump leave b.address))
      return others
    | .forLoop, .forLoop head :: others => do
      setBuilder (← build ((← get).builder.closeLoop head))
      return others
    | _, _ => fail (.mismatch block (blocks.head?.map (·.block)))

/-! ## Going through a statement -/

section Compiling

variable {settings : Settings} {blocks : List OpenBlock} {a : Assembly}

theorem request_emit (i : Instr) : (request (.emit i) : Asm Unit) = emit [i] := rfl

/-- A request that has no answer is one for another builder. -/
theorem request_build {r : Request} {done : Except Crash Builder}
    (performed : CodeGenerator.perform a.builder r = done.map (none, ·)) (others : List OpenBlock) :
    (request r >>= fun _ => pure others : Asm _) a =
      (build done >>= fun b => do
        setBuilder b
        return others) a := by
  rw [request, bind_assoc, step_get_bind, performed]
  cases done <;> rfl

theorem emit_append (front back : List Instr) :
    (emit front >>= fun _ => emit back) = emit (front ++ back) := by
  funext a
  simp only [emit, Builder.emitAll, List.foldl_append]
  rfl

theorem write_eq (code : List Instr) : (write code : Asm Unit) = emit code := by
  induction code with
  | nil => rfl
  | cons i rest ih =>
    have step : (write (i :: rest) : Asm Unit) = (emit [i] >>= fun _ => write rest) := rfl
    rw [step, ih, emit_append, List.singleton_append]

theorem forM_write_eq (operations : List Operation) :
    (operations.forM fun o => write o.code : Asm Unit) =
      emit (operations.flatMap Operation.code) := by
  induction operations with
  | nil => rfl
  | cons o rest ih =>
    have step : ((o :: rest).forM fun o => write o.code : Asm Unit) =
        (write o.code >>= fun _ => rest.forM fun o => write o.code) := rfl
    rw [step, ih, write_eq, emit_append, List.flatMap_cons]

/-- An expression is resolved as a whole, and then written. -/
theorem expression_eq (lexemes : List Lexeme) :
    expression settings lexemes a =
      (check (Scope.expression ⟨settings, a.table⟩ lexemes) >>= fun e => emit e.code) a := by
  refine step_get_bind.trans (congrFun (congrArg _ (funext fun e => ?_)) a)
  rw [write_eq, forM_write_eq, emit_append]
  rfl

theorem expression_error {lexemes : List Lexeme} {fault : Fault}
    (rejected : Scope.expression ⟨settings, a.table⟩ lexemes = .error fault) :
    expression settings lexemes a = .error (.fault a.line fault) a := by
  rw [expression_eq, rejected]
  rfl

theorem expression_ok {lexemes : List Lexeme} {e : Expression}
    (resolved : Scope.expression ⟨settings, a.table⟩ lexemes = .ok e) :
    expression settings lexemes a = emit e.code a := by
  rw [expression_eq, resolved]
  rfl

/-- The test of a structure is resolved before anything is written. -/
theorem openTest_eq (block : Block) (inner : List Lexeme) (opened : Int → Test → Int → OpenBlock) :
    openTest settings block inner opened a =
      (check (Statement.condition ⟨settings, a.table⟩ block inner) >>= fun read => do
        let start ← address
        emit read.1.code
        let jump ← address
        emit [.jump read.2 0]
        return opened start read.2 jump) a := by
  rw [openTest, Statement.condition]
  cases Statement.test block inner with
  | error fault => rfl
  | ok tested =>
    obtain ⟨front, fails⟩ := tested
    let finish (_ : Unit) : Asm OpenBlock := do
      let jump ← address
      emit [.jump fails 0]
      return opened a.builder.address fails jump
    change (expression settings front >>= finish) a =
      (check ((Scope.expression ⟨settings, a.table⟩ front).map (·, fails)) >>= _) a
    cases resolved : Scope.expression ⟨settings, a.table⟩ front with
    | error fault => exact step_bind_error_iff.mpr (.inl (expression_error resolved))
    | ok e => exact step_bind_congr (expression_ok resolved)

/-- The number of rounds of a loop is resolved before anything is written, and so is the variable
for the index. -/
theorem openCount_eq (inner : List Lexeme) :
    openCount settings inner a =
      (check (Statement.count ⟨settings, a.table⟩ inner) >>= fun read => do
        emit read.1.code
        let head ← address
        modify fun a => { a with builder := a.builder.openLoop }
        emit (read.2.toList.map .store)
        return .forLoop head) a := by
  rw [openCount, Statement.count]
  split
  · rfl
  · cases resolved : Scope.expression ⟨settings, a.table⟩ inner with
    | error fault => exact step_bind_error_iff.mpr (.inl (expression_error resolved))
    | ok e =>
      refine (step_bind_congr (expression_ok resolved)).trans ?_
      refine (step_bind_eq_of_ok rfl).trans ((step_bind_eq_of_ok rfl).trans ?_)
      refine (step_bind_eq_of_ok rfl).trans ?_
      cases on : settings.features .indexVariable with
      | false => rfl
      | true =>
        rw [if_pos rfl]
        refine step_get_bind.trans ?_
        cases found : Scope.address? ⟨settings, a.table⟩ settings.indexName with
        | none => rfl
        | some index => rfl

/-- A structure is closed by what its opening has left to complete. -/
theorem closeBlock_eq (block : Block) :
    closeBlock block blocks a = statement blocks (.close block) a := by
  unfold closeBlock
  split
  · exact (step_bind_eq_of_ok rfl).trans (request_build rfl _)
  · refine (step_bind_eq_of_ok rfl).trans ((step_bind_eq_of_ok rfl).trans ?_)
    exact request_build rfl _
  · exact request_build rfl _
  · next notIf notWhile notFor =>
    dsimp only [statement]
    split
    · exact (notIf _ _ _ rfl rfl).elim
    · exact (notWhile _ _ _ _ rfl rfl).elim
    · exact (notFor _ _ rfl rfl).elim
    · rfl

/-- The remarks with that on a statement. -/
def cautionsWith (a : Assembly) (s : Statement) : Assembly :=
  { a with cautions := a.cautions ++ (s.caution? a.line).toList }

/-- Only calls are remarked on. -/
theorem cautionsWith_of_none {s : Statement} (none_ : s.caution? a.line = none) :
    a.cautionsWith s = a := by
  rw [cautionsWith, none_, Option.toList_none, List.append_nil]

theorem callProcedure_error {name : String} {inner : List Lexeme} {fault : Fault}
    (rejected : Statement.callOf ⟨settings, a.table⟩ name inner = .error fault) :
    callProcedure settings name inner a = .error (.fault a.line fault) a := by
  unfold Statement.callOf at rejected
  refine step_get_bind.trans ?_
  dsimp only at rejected
  split at rejected
  · next unknown =>
    cases rejected
    rw [unknown]
    rfl
  · next callee known =>
    rw [known]
    refine step_get_bind.trans ?_
    cases resolved : Statement.arguments ⟨settings, a.table⟩ name 1 inner with
    | error fault' =>
      rw [resolved] at rejected
      cases rejected
      rfl
    | ok args =>
      rw [resolved] at rejected
      replace rejected : (if settings.maxParams < args.length then _ else _) = _ := rejected
      split at rejected
      · next many =>
        cases rejected
        refine (step_bind_eq_of_ok rfl).trans ?_
        rw [if_pos many]
        rfl
      · contradiction

theorem callProcedure_ok {name : String} {inner : List Lexeme} {s : Statement}
    (resolved : Statement.callOf ⟨settings, a.table⟩ name inner = .ok s) :
    (callProcedure settings name inner >>= fun _ => pure blocks) a =
      statement blocks s (a.cautionsWith s) := by
  unfold Statement.callOf at resolved
  dsimp only at resolved
  split at resolved
  · contradiction
  · next callee known =>
    obtain ⟨args, read, resolved⟩ := bind_ok_iff.mp resolved
    split at resolved
    · contradiction
    · next few =>
      cases resolved
      have written : (do
          write (passArguments 0 args)
          request (.emit (.call callee.value)) : Asm Unit) =
          emit (passArguments 0 args ++ [.call callee.value]) := by
        rw [write_eq, request_emit, emit_append]
      rw [callProcedure, bind_assoc, step_get_bind, known]
      dsimp only
      rw [bind_assoc, step_get_bind, read, bind_assoc]
      refine (step_bind_eq_of_ok rfl).trans ?_
      rw [if_neg few, cautionsWith, Statement.caution?]
      by_cases same : (args.length : Int) = callee.params
      · rw [if_pos same, if_neg (not_not_intro same), Option.toList_none, List.append_nil, written]
        rfl
      · rw [if_neg same, if_pos same, bind_assoc, step_get_bind, bind_assoc]
        refine (step_bind_eq_of_ok rfl).trans ?_
        rw [written]
        rfl

theorem check_bind_of_ok {α β : Type} {x : Except Fault α} {next : α → Asm β} {r : α}
    (known : x = .ok r) : (check x >>= next) a = next r a := by
  rw [known]
  rfl

theorem check_bind_of_error {α β : Type} {x : Except Fault α} {next : α → Asm β} {fault : Fault}
    (rejected : x = .error fault) : (check x >>= next) a = .error (.fault a.line fault) a := by
  rw [rejected]
  rfl

/-- What is done for a statement that was parsed, with the remark on it. -/
def perform (blocks : List OpenBlock) (read : Statement × Nat) : Asm (List OpenBlock × Nat) :=
  fun a => (do return (← statement blocks read.1, read.2) : Asm _) (a.cautionsWith read.1)

theorem perform_of_none {s : Statement} {used : Nat} (none_ : s.caution? a.line = none) :
    perform blocks (s, used) a = (do return (← statement blocks s, used) : Asm _) a := by
  rw [perform, cautionsWith_of_none none_]

section Forms

variable (rest : List Lexeme)

theorem compile_opens (block : Block) :
    compile settings blocks (.keyword (.opens block)) rest a =
      (check (Statement.parse ⟨settings, a.table⟩ (.keyword (.opens block)) rest) >>=
        perform blocks) a := by
  cases inside : Statement.parenthesized (.keyword (.opens block)) rest with
  | error fault =>
    rw [compile, Statement.parse, inside]
    rfl
  | ok inner =>
    rw [compile, Statement.parse, bind_of_ok inside, check_bind_of_ok inside]
    cases block with
    | ifBlock =>
      refine (step_bind_congr (openTest_eq ..)).trans ?_
      cases Statement.condition ⟨settings, a.table⟩ .ifBlock inner with
      | error fault => rfl
      | ok read => exact (perform_of_none (s := .openIf read.1 read.2) rfl).symm
    | whileLoop =>
      refine (step_bind_congr (openTest_eq ..)).trans ?_
      cases Statement.condition ⟨settings, a.table⟩ .whileLoop inner with
      | error fault => rfl
      | ok read => exact (perform_of_none (s := .openWhile read.1 read.2) rfl).symm
    | forLoop =>
      refine (step_bind_congr (openCount_eq _)).trans ?_
      cases Statement.count ⟨settings, a.table⟩ inner with
      | error fault => rfl
      | ok read => exact (perform_of_none (s := .openFor read.1 read.2) rfl).symm

theorem compile_call (name : String) :
    compile settings blocks (.ident name) (.mark .lparen :: rest) a =
      (check (Statement.parse ⟨settings, a.table⟩ (.ident name) (.mark .lparen :: rest)) >>=
        perform blocks) a := by
  cases inside : Statement.parenthesized (.ident name) (.mark .lparen :: rest) with
  | error fault =>
    rw [compile, Statement.parse, inside]
    rfl
  | ok inner =>
    rw [compile, Statement.parse, bind_of_ok inside, check_bind_of_ok inside]
    cases resolved : Statement.callOf ⟨settings, a.table⟩ name inner with
    | error fault => exact step_bind_error_iff.mpr (.inl (callProcedure_error resolved))
    | ok s =>
      have done : ((callProcedure settings name inner >>= fun _ => pure blocks) >>= fun left =>
          pure (left, inner.length + 2)) a =
            (statement blocks s >>= fun left => pure (left, inner.length + 2)) (a.cautionsWith s) :=
        step_bind_congr (callProcedure_ok resolved)
      rw [bind_assoc] at done
      exact done

/-- A statement is parsed as a whole, remarked on and then assembled. -/
theorem compile_eq (first : Lexeme) :
    compile settings blocks first rest a =
      (check (Statement.parse ⟨settings, a.table⟩ first rest) >>= perform blocks) a := by
  unfold compile
  split
  · exact (perform_of_none (s := .ret) rfl).symm
  · next block =>
    refine (step_bind_congr (closeBlock_eq block)).trans ?_
    exact (perform_of_none (s := .close block) rfl).symm
  · exact compile_opens rest _
  · next notReturn notClose notOpen =>
    split
    · exact compile_call _ _
    · next notCall =>
      rw [Statement.parse]
      · dsimp only
        generalize (if Statement.endsExpression first && !first.isKeyword then []
          else first :: rest.takeWhile fun l => !Statement.endsExpression l) = lexemes
        cases resolved : Scope.expression ⟨settings, a.table⟩ lexemes with
        | error fault => exact step_bind_error_iff.mpr (.inl (expression_error resolved))
        | ok e =>
          refine (step_bind_congr (expression_ok resolved)).trans ?_
          exact (perform_of_none (s := .eval e) rfl).symm
      · exact notReturn
      · exact notClose
      · exact notOpen
      · exact notCall

theorem compile_unparsed {first : Lexeme} {fault : Fault}
    (rejected : Statement.parse ⟨settings, a.table⟩ first rest = .error fault) :
    compile settings blocks first rest a = .error (.fault a.line fault) a := by
  rw [compile_eq, check_bind_of_error rejected]

theorem compile_parsed {first : Lexeme} {s : Statement} {used : Nat}
    (parsed : Statement.parse ⟨settings, a.table⟩ first rest = .ok (s, used)) :
    compile settings blocks first rest a =
      (statement blocks s >>= fun left => pure (left, used)) (a.cautionsWith s) := by
  rw [compile_eq, check_bind_of_ok parsed]
  rfl

end Forms

end Compiling

end Assembly

end HighAsm
