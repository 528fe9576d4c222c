import HighAsm.Proofs.Brackets
import HighAsm.Proofs.Liveness

/-!
# Exits are completed once

The exit of a structure is written without a target where the structure is opened, and completed by
a request where it is closed. The exits that were completed and those of the open structures are
counted together: a statement that opens a structure adds its exit, and no other statement changes
the sum (`statement_completes`). Where a body ends nothing is open, so every exit was completed
once. Where it goes is read off the code of the nested text.
-/

namespace HighAsm

open List Assembly

/-- A jump around a text, or the head of a counted loop. -/
def Instr.IsExit : Instr → Prop
  | .jump test _ => test ≠ .always
  | .loopHead _ => True
  | _ => False

/-- The address of the exit that a request completes. -/
def Request.completes? : Request × Option Int → Option Int
  | (.patch address _ _, _) => some address
  | (.closeLoop head, _) => some head
  | _ => none

/-- The addresses of the exits that were completed, one for each request. -/
def Builder.completions (b : Builder) : List Int := b.log.toList.filterMap Request.completes?

namespace Statement

variable {position : Nat} {base : Int} {read : List Statement}

/-- The address of the exit of a statement that begins at a position. -/
def exit? (base : Int) (position : Nat) : Statement → Option Int
  | openIf e _ | openWhile e _ | openFor e _ =>
    some (codeAddress base (position + e.code.length))
  | ret | eval _ | call .. | close _ => none

/-- The addresses of the exits of statements in order, the first of which begins at a position. -/
def exits (base : Int) : Nat → List Statement → List Int
  | _, [] => []
  | position, s :: rest =>
    (s.exit? base position).toList ++ exits base (position + s.size) rest

theorem exits_append (base : Int) (position : Nat) (first second : List Statement) :
    exits base position (first ++ second) =
      exits base position first ++ exits base (position + sizes first) second := by
  induction first generalizing position with
  | nil => rfl
  | cons s rest ih => rw [cons_append, exits, exits, ih, sizes_cons, append_assoc,
      Nat.add_assoc]

/-- Exits stand among the instructions of their statements. -/
theorem mem_exits {address : Int} (member : address ∈ exits base position read) :
    ∃ i, position ≤ i ∧ i < position + sizes read ∧ address = codeAddress base i := by
  induction read generalizing position with
  | nil => exact absurd member not_mem_nil
  | cons s rest ih =>
    rw [sizes_cons]
    rcases mem_append.mp member with own | later
    · have inside (e : Expression) (least : e.code.length < s.size)
          (same : s.exit? base position = some (codeAddress base (position + e.code.length))) :
          ∃ i, position ≤ i ∧ i < position + (s.size + sizes rest) ∧
            address = codeAddress base i := by
        rw [same, Option.toList_some, mem_singleton] at own
        exact ⟨_, Nat.le_add_right .., by omega, own⟩
      cases s with
      | ret | eval _ | call _ _ _ _ | close _ => exact absurd own not_mem_nil
      | openIf e _ | openWhile e _ => exact inside e (Nat.lt_succ_self _) rfl
      | openFor count _ => exact inside count (by rw [size]; omega) rfl
    · obtain ⟨i, least, most, same⟩ := ih later
      exact ⟨i, by omega, by omega, same⟩

theorem exit?_opening (base : Int) (position : Nat) (o : Opening) :
    o.statement.exit? base position =
      some (codeAddress base (position + o.expression.code.length)) := by
  cases o <;> rfl

theorem size_opening (o : Opening) : o.statement.size = o.enterSize := by
  cases o with
  | ifBlock e r | whileLoop e r => rfl
  | forLoop count index =>
    simp [Opening.statement, size, Opening.enterSize, Opening.expression, Opening.roundStart]
    omega

theorem not_mem_exits {k : Nat} (outside : k < position ∨ position + sizes read ≤ k)
    (short : position + sizes read < 0x8000000000000000) (small : k < 0x8000000000000000) :
    codeAddress base k ∉ exits base position read := by
  intro member
  obtain ⟨i, least, most, same⟩ := mem_exits member
  have equal := (codeAddress_inj small (by omega)).mp same
  omega

/-- An exit of addressable statements occurs once among theirs. -/
theorem count_exits {front rest : List Statement} {o : Opening}
    (short : position + sizes (front ++ o.statement :: rest) < 0x8000000000000000) :
    (exits base position (front ++ o.statement :: rest)).count
      (codeAddress base (position + sizes front + o.expression.code.length)) = 1 := by
  have own : o.expression.code.length < o.statement.size := by
    rw [size_opening, Opening.enterSize]
    omega
  rw [sizes_append, sizes_cons] at short
  rw [exits_append, exits, exit?_opening, Option.toList_some, singleton_append,
    count_append, count_cons_self,
    count_eq_zero_of_not_mem (not_mem_exits (by omega) (by omega) (by omega)),
    count_eq_zero_of_not_mem (not_mem_exits (by omega) (by omega) (by omega))]

end Statement

/-! ## What is completed and what is pending -/

section Completing

variable {settings : Settings} {blocks left : List OpenBlock} {s : Statement} {a a' : Assembly}

namespace Builder

variable {b b' : Builder}

theorem completions_emitAll (b : Builder) (code : List Instr) :
    (b.emitAll code).completions = b.completions := by
  have none_ : (code.map fun i => (Request.emit i, (none : Option Int))).filterMap
      Request.completes? = [] := by
    rw [filterMap_map]
    exact filterMap_eq_nil_iff.mpr fun _ _ => rfl
  rw [completions, emitAll_log, filterMap_append, none_, append_nil, completions]

theorem completions_openLoop (b : Builder) : b.openLoop.completions = b.completions := by
  simp [completions, openLoop, enter, Request.completes?]

theorem completions_of_perform {r : Request} {answer : Option Int}
    (ok : b.perform r = .ok (answer, b')) :
    b'.completions = b.completions ++ (Request.completes? (r, answer)).toList := by
  rw [completions, perform_log ok, filterMap_append, completions]
  rfl

theorem completions_patch {address target : Int} {test : Test}
    (ok : b.patch address test target = .ok b') : b'.completions = b.completions ++ [address] :=
  completions_of_perform (r := .patch address test target) (map_ok_iff.mpr ⟨b', ok, rfl⟩)

theorem completions_closeLoop {head : Int} (ok : b.closeLoop head = .ok b') :
    b'.completions = b.completions ++ [head] :=
  completions_of_perform (r := .closeLoop head) (map_ok_iff.mpr ⟨b', ok, rfl⟩)

end Builder

/-- A statement adds its own exit to those that are completed or pending. -/
theorem statement_completes (stated : statement blocks s a = .ok left a') (x : Int) :
    a'.builder.completions.count x + (left.map OpenBlock.exit).count x =
      a.builder.completions.count x + (blocks.map OpenBlock.exit).count x +
        (s.exit? a.builder.program.codeBase a.builder.program.code.size).toList.count x := by
  have opened {top : OpenBlock} {e : Expression}
      (exit : top.exit = (a.builder.emitAll e.code).address) :
      a.builder.completions.count x + ((top :: blocks).map OpenBlock.exit).count x =
        a.builder.completions.count x + (blocks.map OpenBlock.exit).count x +
          [codeAddress a.builder.program.codeBase
            (a.builder.program.code.size + e.code.length)].count x := by
    have last := (perm_append_singleton top.exit (blocks.map OpenBlock.exit)).count_eq x
    rw [count_append] at last
    rw [← Builder.address_emitAll, ← exit, map_cons, ← last, Nat.add_assoc]
  cases s with
  | ret | eval _ | call _ _ _ _ =>
    cases stated
    rw [Builder.completions_emitAll]
    rfl
  | openIf e _ | openWhile e _ =>
    cases stated
    rw [Builder.completions_emitAll, Builder.completions_emitAll]
    exact opened rfl
  | openFor count index =>
    cases stated
    rw [Builder.completions_emitAll, Builder.completions_openLoop, Builder.completions_emitAll]
    exact opened rfl
  | close block =>
    obtain ⟨top, _, _, rfl, rfl, -⟩ := statement_close_ok stated
    have closed : a'.builder.completions = a.builder.completions ++ [top.exit] := by
      cases top with
      | ifBlock skip jump =>
        obtain ⟨-, b, patched, rfl⟩ := complete_ok_iff.mp stated
        exact Builder.completions_patch patched
      | whileLoop start leave jump =>
        obtain ⟨-, b, patched, rfl⟩ := complete_ok_iff.mp stated
        exact (Builder.completions_patch patched).trans
          (congrArg (· ++ [jump]) (Builder.completions_emitAll ..))
      | forLoop head =>
        obtain ⟨-, b, done, rfl⟩ := complete_ok_iff.mp stated
        exact Builder.completions_closeLoop done
    rw [closed, count_append, Nat.add_assoc, ← count_append]
    rfl

/-- A body adds the instructions of its statements, and completes the exits that were pending before
it and its own. -/
theorem Point.Arrives.completes {p q : Point} {read : List Statement}
    (arrives : Arrives settings p q) (lexemes : q.lexemes = []) (blocks : q.blocks = [])
    (parsed : Statement.sequence ⟨settings, p.assembly.table⟩ p.skip p.lexemes = .ok read) :
    q.assembly.builder.program.code.size =
        p.assembly.builder.program.code.size + Statement.sizes read ∧
      ∀ x, q.assembly.builder.completions.count x =
        p.assembly.builder.completions.count x + (p.blocks.map OpenBlock.exit).count x +
        (Statement.exits p.assembly.builder.program.codeBase
          p.assembly.builder.program.code.size read).count x := by
  induction arrives generalizing read with
  | refl p =>
    rw [lexemes, Statement.sequence] at parsed
    cases parsed
    rw [blocks]
    exact ⟨rfl, fun _ => rfl⟩
  | step first others ih =>
    cases first with
    | skip | line | colon => exact ih lexemes blocks parsed
    | @statement blocks' left flow l rest a a₂ s used notLine notColon here stated =>
      rw [Statement.sequence] at parsed
      · obtain ⟨_, same, parsed⟩ := bind_ok_iff.mp parsed
        obtain rfl := Except.ok.inj (here.symm.trans same)
        obtain ⟨more, later, parsed⟩ := bind_ok_iff.mp parsed
        cases parsed
        let b : Assembly := { a with cautions := flow.cautions a ++ (s.caution? a.line).toList }
        have follows : Follows b a₂ := statement_follows stated
        have size : a₂.builder.program.code.size = a.builder.program.code.size + s.size :=
          statement_size (a := b) stated
        have base : a₂.builder.program.codeBase = a.builder.program.codeBase := by
          rw [follows.program]
          rfl
        obtain ⟨total, counted⟩ := ih lexemes blocks (by rwa [follows.table])
        refine ⟨by rw [total, size, Statement.sizes_cons, Nat.add_assoc], fun x => ?_⟩
        have step : a₂.builder.completions.count x + (left.map OpenBlock.exit).count x =
            a.builder.completions.count x + (blocks'.map OpenBlock.exit).count x +
              (s.exit? a.builder.program.codeBase a.builder.program.code.size).toList.count x :=
          statement_completes (a := b) stated x
        rw [counted, step, base, size, Statement.exits, count_append, Nat.add_assoc]
      · exact notLine
      · exact notColon

end Completing

/-! ## Exits of nested texts -/

namespace Nest

variable {i : Instr} {k : Nat}

theorem size_simple (s : Simple) : s.statement.size = s.code.length := by
  cases s with
  | ret | eval _ => rfl
  | call name entry declared args => simp [Simple.statement, Simple.code, Statement.size]

theorem sizes_statements (n : Nest) : Statement.sizes n.statements = n.size := by
  induction n with
  | nil => rfl
  | step s rest ih => rw [statements, Statement.sizes_cons, size_simple, ih, size]
  | block o body rest ihBody ihRest =>
    have close : (Statement.close o.block).size = o.backSize := rfl
    rw [statements, cons_append, Statement.sizes_cons, Statement.sizes_append,
      Statement.sizes_cons, Statement.size_opening, close, ihBody, ihRest, size]
    omega

theorem balanced (n : Nest) : Bracket.Balanced (n.statements.filterMap Statement.bracket?) := by
  induction n with
  | nil => exact .nil
  | step s rest ih =>
    have none_ : s.statement.bracket? = none := by cases s <;> rfl
    rw [statements, filterMap_cons_none none_]
    exact ih
  | block o body rest ihBody ihRest =>
    have opening : o.statement.bracket? = some (.opening o.block) := by cases o <;> rfl
    have closing : (Statement.close o.block).bracket? = some (.closing o.block) := rfl
    rw [statements, filterMap_append, filterMap_cons_some opening,
      filterMap_cons_some closing]
    exact .block o.block ihBody ihRest

theorem not_isExit_of_straight (straight : i.Straight) : ¬ i.IsExit := by
  intro exit
  cases i with
  | jump test target | loopHead leave => exact absurd straight.1 (by simp [Program.targetOf?])
  | _ => exact exit

theorem not_isExit_simple (s : Simple) : ∀ i ∈ s.code, ¬ i.IsExit := by
  intro i member
  cases s with
  | ret =>
    obtain rfl := mem_singleton.mp member
    exact id
  | eval e => exact not_isExit_of_straight (e.straight i member)
  | call name entry declared args =>
    rcases mem_append.mp member with passes | calls
    · exact not_isExit_of_straight (passArguments_straight args 0 i passes)
    · obtain rfl := mem_singleton.mp calls
      exact id

theorem not_isExit_back (o : Opening) (base : Int) (position : Nat) :
    ∀ i ∈ o.back base position, ¬ i.IsExit := by
  intro i member
  cases o with
  | ifBlock e r => exact absurd member not_mem_nil
  | whileLoop e r =>
    obtain rfl := mem_singleton.mp member
    exact fun other => other rfl
  | forLoop count index =>
    obtain rfl := mem_singleton.mp member
    exact id

/-- The only exit before the text of a structure is its own. -/
theorem enter_exit {o : Opening} {leave : Int} (here : (o.enter leave)[k]? = some i)
    (exit : i.IsExit) : k = o.expression.code.length :=
  (o.enter_straight here).resolve_right fun straight => not_isExit_of_straight straight exit

/-- Every exit in the code of a text is that of a structure. -/
theorem exit_found {n : Nest} {base : Int} {position : Nat}
    (here : (n.code base position)[k]? = some i) (exit : i.IsExit) :
    ∃ front o rest, n.statements = front ++ Opening.statement o :: rest ∧
      k = Statement.sizes front + o.expression.code.length := by
  induction n generalizing position k with
  | nil => contradiction
  | step s rest ih =>
    rw [code, getElem?_append] at here
    split at here
    · exact absurd exit (not_isExit_simple s i (mem_of_getElem? here))
    · obtain ⟨front, o, tail, split, place⟩ := ih here
      refine ⟨s.statement :: front, o, tail, by rw [statements, split, cons_append], ?_⟩
      rw [Statement.sizes_cons, size_simple]
      omega
  | block o body rest ihBody ihRest =>
    rw [code, append_assoc, append_assoc, getElem?_append, getElem?_append,
      getElem?_append, Opening.length_enter, length_code, Opening.length_back] at here
    split at here
    · refine ⟨[], o, _, rfl, ?_⟩
      rw [Statement.sizes_nil, Nat.zero_add]
      exact enter_exit here exit
    split at here
    · obtain ⟨front, o', tail, split, place⟩ := ihBody here
      refine ⟨o.statement :: front, o', tail ++ .close o.block :: rest.statements, ?_, ?_⟩
      · rw [statements, split]
        simp
      · rw [Statement.sizes_cons, Statement.size_opening]
        omega
    split at here
    · exact absurd exit (not_isExit_back o base position i (mem_of_getElem? here))
    · obtain ⟨front, o', tail, split, place⟩ := ihRest here
      refine ⟨o.statement :: body.statements ++ .close o.block :: front, o', tail, ?_, ?_⟩
      · rw [statements, split]
        simp
      · have close : (Statement.close o.block).size = o.backSize := rfl
        simp only [cons_append, Statement.sizes_cons, Statement.sizes_append,
          Statement.size_opening, sizes_statements, close]
        omega

theorem code_step {s : Simple} {rest : Nest} {base : Int} {position : Nat}
    (there : (rest.code base (position + s.code.length))[k]? = some i) :
    ((step s rest).code base position)[s.code.length + k]? = some i := by
  rw [code, getElem?_append_right (Nat.le_add_right ..), Nat.add_sub_cancel_left, there]

section Block

variable {o : Opening} {body rest : Nest} {base : Int} {position k : Nat} {i : Instr}

theorem code_block_enter (o : Opening) (body rest : Nest) (base : Int) (position : Nat) :
    ((block o body rest).code base position)[o.expression.code.length]? =
      some (o.exit (codeAddress base (position + (o.enterSize + body.size + o.backSize)))) := by
  rw [code, Opening.enter]
  simp

theorem code_block_body
    (there : (body.code base (position + o.enterSize))[k]? = some i) :
    ((block o body rest).code base position)[o.enterSize + k]? = some i := by
  have inside : k < body.size := by
    rw [← length_code base (position + o.enterSize)]
    exact (List.getElem?_eq_some_iff.mp there).1
  rw [code, append_assoc, append_assoc,
    getElem?_append_right (by rw [Opening.length_enter]; exact Nat.le_add_right ..),
    Opening.length_enter, Nat.add_sub_cancel_left,
    getElem?_append_left (by simpa using inside), there]

theorem code_block_rest
    (there : (rest.code base (position + (o.enterSize + body.size + o.backSize)))[k]? = some i) :
    ((block o body rest).code base position)[o.enterSize + body.size + o.backSize + k]? =
      some i := by
  have length (leave : Int) :
      (o.enter leave ++ body.code base (position + o.enterSize) ++ o.back base position).length =
        o.enterSize + body.size + o.backSize := by
    simp [Nat.add_assoc]
  rw [code, getElem?_append_right (by rw [length]; exact Nat.le_add_right ..), length,
    Nat.add_sub_cancel_left, there]

end Block

/-- The exit of every structure in a text goes behind the statement that closes it. -/
theorem exit_stands {n : Nest} (base : Int) (position : Nat) {front rest : List Statement}
    {o : Opening} (split : n.statements = front ++ o.statement :: rest) :
    ∃ inside outside, rest = inside ++ .close o.block :: outside ∧
      Bracket.Balanced (inside.filterMap Statement.bracket?) ∧
      (n.code base position)[Statement.sizes front + o.expression.code.length]? =
        some (o.exit (codeAddress base
          (position + Statement.sizes (front ++ o.statement :: inside ++ [.close o.block])))) := by
  induction n generalizing position front rest with
  | nil => exact absurd split (by simp [statements])
  | step s tail ih =>
    cases front with
    | nil =>
      obtain ⟨same, -⟩ := List.cons.inj split
      cases s <;> cases o <;> cases same
    | cons first front =>
      obtain ⟨rfl, later⟩ := List.cons.inj split
      obtain ⟨inside, outside, parts, balanced, exit⟩ := ih (position + s.code.length) later
      refine ⟨inside, outside, parts, balanced, ?_⟩
      rw [Statement.sizes_cons, size_simple, Nat.add_assoc, code_step exit]
      simp [size_simple, Nat.add_assoc]
  | block o' body tail ihBody ihTail =>
    have close : (Statement.close o'.block).size = o'.backSize := rfl
    cases front with
    | nil =>
      obtain ⟨same, behind⟩ := List.cons.inj split
      obtain rfl := Opening.statement_inj same
      refine ⟨body.statements, tail.statements, behind.symm, body.balanced, ?_⟩
      rw [Statement.sizes_nil, Nat.zero_add, code_block_enter]
      simp [Statement.size_opening, sizes_statements, close, Nat.add_assoc]
    | cons first front =>
      obtain ⟨rfl, behind⟩ := List.cons.inj split
      -- The structure is opened inside this one, or behind it.
      rcases append_eq_append_iff.mp behind with
        ⟨later, rfl, after⟩ | ⟨later, inBody, after⟩
      · cases later with
        | nil => cases o <;> cases (List.cons.inj after).1
        | cons closing front =>
          obtain ⟨rfl, inTail⟩ := List.cons.inj after
          obtain ⟨inside, outside, parts, balanced, exit⟩ := ihTail _ inTail
          refine ⟨inside, outside, parts, balanced, ?_⟩
          have place : Statement.sizes (o'.statement ::
                (body.statements ++ Statement.close o'.block :: front)) + o.expression.code.length =
              o'.enterSize + body.size + o'.backSize +
                (Statement.sizes front + o.expression.code.length) := by
            simp [Statement.size_opening, sizes_statements, close, Nat.add_assoc]
          rw [place, code_block_rest exit]
          simp [Statement.size_opening, sizes_statements, close, Nat.add_assoc]
      · cases later with
        | nil => cases o <;> cases (List.cons.inj after).1
        | cons opening others =>
          cases after
          obtain ⟨inside, outside, rfl, balanced, exit⟩ := ihBody _ inBody
          refine ⟨inside, outside ++ .close o'.block :: tail.statements, by simp, balanced, ?_⟩
          rw [Statement.sizes_cons, Statement.size_opening, Nat.add_assoc, code_block_body exit]
          simp [Statement.size_opening, Nat.add_assoc]

end Nest

/-! ## Whole bodies -/

/-- The exits among the instructions of statements, which begin at a position: every structure that
is opened is closed behind a balanced text, its exit goes behind the statement that closes it, and
one request has completed it. There are no other exits. -/
structure Completed (start : Nat) (read : List Statement) (requests : List (Request × Option Int))
    (p : Program) : Prop where
  opened : ∀ front o rest, read = front ++ Opening.statement o :: rest →
    ∃ inside outside, rest = inside ++ .close o.block :: outside ∧
      Bracket.Balanced (inside.filterMap Statement.bracket?) ∧
      p.code[start + Statement.sizes front + o.expression.code.length]? =
        some (o.exit (codeAddress p.codeBase
          (start + Statement.sizes (front ++ o.statement :: inside ++ [.close o.block])))) ∧
      (requests.filterMap Request.completes?).count (codeAddress p.codeBase
        (start + Statement.sizes front + o.expression.code.length)) = 1
  found : ∀ k i, start ≤ k → p.code[k]? = some i → i.IsExit →
    ∃ front o rest, read = front ++ Opening.statement o :: rest ∧
      k = start + Statement.sizes front + o.expression.code.length

/-- A body that is assembled has completed its exits. -/
theorem statements_completed {settings : Settings} {flow : Flow} {lexemes : List Lexeme}
    {read : List Statement} {a a' : Assembly}
    (ok : statements settings 0 [] flow lexemes a = .ok () a')
    (parsed : Statement.sequence ⟨settings, a.table⟩ 0 lexemes = .ok read)
    (short : a.builder.program.code.size + Statement.sizes read < 0x8000000000000000) :
    ∃ requests, a'.builder.log.toList = a.builder.log.toList ++ requests ∧
      Completed a.builder.program.code.size read requests a'.builder.program := by
  have final : a'.builder.program.code.size = a.builder.program.code.size + Statement.sizes read ∧
      ∀ x, a'.builder.completions.count x = a.builder.completions.count x + 0 +
        (Statement.exits a.builder.program.codeBase a.builder.program.code.size read).count x := by
    obtain ⟨_, _, _, _, rfl, arrives⟩ := statements_arrive ok
    exact arrives.completes rfl rfl parsed
  obtain ⟨total, counted⟩ := final
  obtain ⟨requests, log, -⟩ := (statements_asks ok).log
  have addressable : a'.builder.program.Addressable := by
    rw [Program.Addressable, total]
    exact short
  obtain ⟨_, n, same, statements, code⟩ := statements_nest ok addressable
  obtain rfl := Except.ok.inj (parsed.symm.trans same)
  have base : a'.builder.program.codeBase = a.builder.program.codeBase := by
    rw [(statements_follows ok).program]
    rfl
  -- Positions of the text are counted from the end of the code before it.
  have there (k : Nat) : a'.builder.program.code[a.builder.program.code.size + k]? =
      (n.code a'.builder.program.codeBase a.builder.program.code.size)[k]? := by
    rw [← Array.getElem?_toList, code, ← Array.length_toList,
      getElem?_append_right (Nat.le_add_right ..), Nat.add_sub_cancel_left]
  have once (x : Int) : (requests.filterMap Request.completes?).count x =
      (Statement.exits a.builder.program.codeBase a.builder.program.code.size read).count x := by
    have sum := counted x
    rw [Builder.completions, log, filterMap_append, count_append, ← Builder.completions,
      Nat.add_zero] at sum
    exact Nat.add_left_cancel sum
  refine ⟨requests, log, fun front o rest split => ?_, fun k i least here exit => ?_⟩
  · obtain ⟨inside, outside, parts, balanced, stands⟩ :=
      Nest.exit_stands a'.builder.program.codeBase a.builder.program.code.size
        (statements.trans split)
    refine ⟨inside, outside, parts, balanced, ?_, ?_⟩
    · rw [Nat.add_assoc, there, stands]
    · subst split
      rw [once, base, Statement.count_exits short]
  · obtain ⟨k, rfl⟩ := Nat.exists_eq_add_of_le least
    rw [there] at here
    obtain ⟨front, o, rest, split, rfl⟩ := Nest.exit_found here exit
    exact ⟨front, o, rest, statements.symm.trans split, (Nat.add_assoc ..).symm⟩

/-- A body all of whose statements can be parsed, with the variables that it stores to, is accepted
exactly if its brackets are balanced. Otherwise the fault is on the line of the first word that
closes what is not the innermost open structure, or, if there is no such word, on the last line, for
the innermost structure that is left open. If the body is accepted, every jump around a text and
every head of a counted loop that it has written was completed by one request, and goes behind the
statement that closes its own structure. -/
theorem body_accepted_iff_balanced {settings : Settings} {lexemes : List Lexeme}
    {a a₁ : Assembly} {read : List Statement}
    (declared : declareLocals settings a.line lexemes a = .ok () a₁)
    (parsed : Statement.sequence ⟨settings, a₁.table⟩ 0 lexemes = .ok read)
    (short : a.builder.program.code.size + Statement.sizes read < 0x8000000000000000) :
    ((∃ a', body settings lexemes a = .ok () a') ↔ Bracket.Balanced (brackets lexemes)) ∧
    (¬ Bracket.Balanced (brackets lexemes) →
      (∃ front block back left a', lexemes = front ++ .keyword (.closes block) :: back ∧
        Bracket.Leaves (brackets front) left ∧ left.head? ≠ some block ∧
        body settings lexemes a = .error
          (.fault (a.line + front.count .endOfLine) (.mismatch block left.head?)) a') ∨
      ∃ top others a', Bracket.Leaves (brackets lexemes) (top :: others) ∧
        body settings lexemes a =
          .error (.fault (a.line + lexemes.count .endOfLine) (.unclosed top)) a') ∧
    ∀ a', body settings lexemes a = .ok () a' → ∃ requests,
      a'.builder.log.toList = a₁.builder.log.toList ++ requests ∧
      Completed a.builder.program.code.size read requests a'.builder.program := by
  have verdict := (body_judged declared parsed short).verdict
  refine ⟨?_, fun unbalanced => ?_, fun a' ok => ?_⟩
  · rcases verdict with ⟨accepted, balanced⟩ | ⟨unbalanced, located⟩
    · exact iff_of_true accepted balanced
    · refine iff_of_false ?_ unbalanced
      rintro ⟨a', ok⟩
      rcases located with ⟨_, _, _, _, _, -, -, -, failed⟩ | ⟨_, _, _, -, failed⟩
      · cases ok.symm.trans failed
      · cases ok.symm.trans failed
  · rcases verdict with ⟨-, balanced⟩ | ⟨-, located⟩
    · exact absurd balanced unbalanced
    · exact located
  · obtain ⟨data, strings, program⟩ := (declareLocals_declares _ _ _ declared).program
    have size : a₁.builder.program.code.size = a.builder.program.code.size := by rw [program]
    have begun : body settings lexemes a = statements settings 0 [] {} lexemes a₁ :=
      step_bind_eq_of_ok declared
    rw [← size] at short ⊢
    exact statements_completed (begun.symm.trans ok) parsed short

/-- Three structures, one inside the other. -/
def nestedBody : List Lexeme :=
  [.keyword (.opens .whileLoop), .mark .lparen, .number 1, .mark .hash, .number 0, .mark .rparen,
    .endOfLine, .keyword (.opens .forLoop), .mark .lparen, .number 3, .mark .rparen, .endOfLine,
    .keyword (.opens .ifBlock), .mark .lparen, .number 5, .mark .minus, .number 5, .mark .equal,
    .number 0, .mark .rparen, .number 7, .keyword (.closes .ifBlock), .endOfLine,
    .keyword (.closes .forLoop), .mark .colon, .keyword (.closes .whileLoop), .endOfLine]

/-- The statements of `nestedBody`. -/
def nestedStatements : List Statement :=
  [.openWhile ⟨.simple (.const 1), []⟩ .zero, .openFor ⟨.simple (.const 3), []⟩ none,
    .openIf ⟨.simple (.const 5), [.combine .sub (.const 5)]⟩ .nonZero,
    .eval ⟨.simple (.const 7), []⟩, .close .ifBlock, .close .forLoop, .close .whileLoop]

theorem nestedBody_completed :
    ∃ a' requests, body {} nestedBody (start {}) = .ok () a' ∧
      a'.builder.log.toList = requests ∧
      Completed 0 nestedStatements requests a'.builder.program := by
  have balanced : Bracket.Balanced (brackets nestedBody) :=
    .block .whileLoop (.block .forLoop (.block .ifBlock .nil .nil) .nil) .nil
  have declared : declareLocals {} (start {}).line nestedBody (start {}) = .ok () (start {}) := rfl
  have parsed : Statement.sequence ⟨{}, (start {}).table⟩ 0 nestedBody = .ok nestedStatements := by
    decide +kernel
  have holds := body_accepted_iff_balanced declared parsed (by decide)
  obtain ⟨a', ok⟩ := holds.1.mpr balanced
  obtain ⟨requests, log, completed⟩ := holds.2.2 a' ok
  exact ⟨a', requests, ok, log, completed⟩

end HighAsm
