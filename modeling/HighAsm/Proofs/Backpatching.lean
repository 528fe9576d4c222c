import HighAsm.Proofs.Declarations
import HighAsm.Proofs.Reading

/-!
# Completing jumps

The assembler takes one statement after the other. A structure that it opens gets an exit without a
target, which is completed at its end. While structures are open, the code written so far is
described by `Level`s, one for each of them: the text before it and its head. One statement moves
from one such description to the next (`statement_nests`). A body is taken step by step from one
`Point` of its text to the next, up to its end or to what is wrong with it (`Point.arrives`), and
one that has been taken to its end, with nothing left open, has the code of a `Nest`.
-/

namespace HighAsm

open Assembly Statement List

section Code

variable {p : Program} {b : Builder} {before after : List Instr} {i : Instr}

theorem size_of_toList {code : List Instr} (whole : p.code.toList = code) :
    p.code.size = code.length := by
  rw [← Array.length_toList, whole]

theorem replace_eq_withCode (p : Program) (position : Nat) (j : Instr) :
    Builder.replace p position j = p.withCode (p.code.toList.set position j) := by
  rw [Builder.replace, Program.withCode, ← Array.toList_setIfInBounds, Array.toArray_toList]

theorem replace_append (p : Program) (next : Instr) (position : Nat) (j : Instr) :
    Builder.replace (Builder.append p next) position j =
      p.withCode ((p.code.toList ++ [next]).set position j) := by
  rw [replace_eq_withCode, Builder.append_eq_withCode, Program.toList_withCode,
    Program.withCode_withCode]

theorem openLoop_program (b : Builder) :
    b.openLoop.program =
      b.program.withCode (b.program.code.toList ++ [.loopHead 0, .loopIndex]) := by
  simp [Builder.openLoop, Builder.enter, Builder.append_eq_withCode]

/-- Replacing the instruction behind a first part of the code leaves both its sides. -/
theorem replace_behind (whole : p.code.toList = before ++ i :: after) (j : Instr) :
    Builder.replace p before.length j = p.withCode (before ++ j :: after) := by
  rw [replace_eq_withCode, whole]
  simp

/-- The instruction behind a first part of the code is found at its address. -/
theorem found_behind (whole : p.code.toList = before ++ i :: after) (addressable : p.Addressable) :
    p.index? (codeAddress p.codeBase before.length) = some before.length ∧
      p.instr? (codeAddress p.codeBase before.length) = some i := by
  have total := size_of_toList whole
  simp only [length_append, length_cons] at total
  have here : p.code[before.length]? = some i := by
    rw [← Array.getElem?_toList, whole]
    simp
  exact ⟨Program.index?_codeAddress addressable (by omega),
    Program.instr?_codeAddress addressable here⟩

theorem patch_behind {oldTest : Test} {oldTarget : Int}
    (whole : b.program.code.toList = before ++ .jump oldTest oldTarget :: after)
    (addressable : b.program.Addressable) (test : Test) (target : Int) :
    ∃ c, b.patch (codeAddress b.program.codeBase before.length) test target = .ok c ∧
      c.program = b.program.withCode (before ++ .jump test target :: after) := by
  obtain ⟨index, instr⟩ := found_behind whole addressable
  simp only [Builder.patch, index, instr]
  exact ⟨_, rfl, replace_behind whole _⟩

theorem closeLoop_behind {oldTarget : Int}
    (whole : b.program.code.toList = before ++ .loopHead oldTarget :: after)
    (addressable : b.program.Addressable) :
    ∃ c, b.closeLoop (codeAddress b.program.codeBase before.length) = .ok c ∧
      c.program = b.program.withCode (before ++
        .loopHead (codeAddress b.program.codeBase (before.length + after.length + 2)) ::
        (after ++ [.loopNext (codeAddress b.program.codeBase (before.length + 1))])) := by
  obtain ⟨index, instr⟩ := found_behind whole addressable
  have total := size_of_toList whole
  have longer (next : Instr) : (Builder.append b.program next).code.toList =
      before ++ .loopHead oldTarget :: (after ++ [next]) := by
    simp [Builder.append_eq_withCode, whole]
  have stop (next : Instr) : (Builder.append b.program next).codeEnd =
      codeAddress b.program.codeBase (before.length + after.length + 2) := by
    rw [Program.codeEnd_eq, size_of_toList (longer next)]
    simp [Builder.append_eq_withCode, Nat.add_assoc]
  simp only [Builder.closeLoop, index, instr, codeAddress_succ, stop]
  exact ⟨_, rfl, replace_behind (longer _) _⟩

theorem patch_ok {c : Builder} {address target : Int} {test : Test}
    (ok : b.patch address test target = .ok c) :
    ∃ i, c.program = b.program.withCode (b.program.code.toList.set i (.jump test target)) := by
  rw [Builder.patch] at ok
  split at ok
  · cases ok
    exact ⟨_, replace_eq_withCode ..⟩
  · contradiction

theorem closeLoop_ok {c : Builder} {head : Int} (ok : b.closeLoop head = .ok c) :
    ∃ i instr next,
      c.program = b.program.withCode ((b.program.code.toList ++ [next]).set i instr) := by
  rw [Builder.closeLoop] at ok
  split at ok
  · cases ok
    exact ⟨_, _, _, replace_append ..⟩
  · contradiction

end Code

/-! ## One statement -/

section OneStatement

variable {a : Assembly} {blocks : List OpenBlock}

theorem statement_simple (s : Simple) :
    statement blocks s.statement a =
      .ok blocks { a with builder := a.builder.emitAll s.code } := by
  cases s <;> rfl

/-- A statement that opens a structure appends what stands before its text, with an exit that is
still to be completed, and remembers where. -/
theorem statement_opening (blocks : List OpenBlock) (a : Assembly) (o : Opening) :
    ∃ b, statement blocks o.statement a =
        .ok (o.pending a.builder.program.codeBase a.builder.program.code.size :: blocks)
          { a with builder := b } ∧
      b.program =
        a.builder.program.withCode (a.builder.program.code.toList ++ o.enter 0) := by
  cases o with
  | ifBlock e r | whileLoop e r =>
    refine ⟨(a.builder.emitAll e.code).emitAll [.jump r.failTest 0], ?_, ?_⟩
    · rw [Opening.pending, ← Builder.address_emitAll]
      rfl
    · simp [Builder.emitAll_program, Opening.enter, Opening.expression, Opening.exit,
        Opening.roundStart]
  | forLoop count index =>
    refine ⟨(a.builder.emitAll count.code).openLoop.emitAll (index.toList.map .store), ?_, ?_⟩
    · rw [Opening.pending, ← Builder.address_emitAll]
      rfl
    · simp [Builder.emitAll_program, openLoop_program, Opening.enter, Opening.expression,
        Opening.exit, Opening.roundStart]

/-- Takes over a builder that may be missing, and returns the structures that are left. -/
def complete (x : Except Crash Builder) (others : List OpenBlock) : Asm (List OpenBlock) := do
  setBuilder (← build x)
  return others

theorem complete_ok_iff {x : Except Crash Builder} {others left : List OpenBlock} {a' : Assembly} :
    complete x others a = .ok left a' ↔
      others = left ∧ ∃ b, x = .ok b ∧ { a with builder := b } = a' := by
  cases x with
  | error crash =>
    simp only [reduceCtorEq, false_and, exists_false, and_false, iff_false]
    intro ok
    obtain ⟨b, u, built, -⟩ := step_bind_ok_iff.mp ok
    exact step_throw_ne_ok built
  | ok b =>
    simp only [Except.ok.injEq, exists_eq_left']
    exact EStateM.Result.ok.injEq .. ▸ Iff.rfl

theorem statement_close_eq (top : OpenBlock) (others : List OpenBlock) :
    statement (top :: others) (.close top.block) a =
      match top with
      | .ifBlock skip jump => complete (a.builder.patch jump skip a.builder.address) others a
      | .whileLoop start leave jump =>
        let b := a.builder.emitAll [.jump .always start]
        complete (b.patch jump leave b.address) others { a with builder := b }
      | .forLoop head => complete (a.builder.closeLoop head) others a := by
  cases top <;> rfl

/-- A statement that closes the innermost structure completes its exit, which now goes behind the
code that is added. -/
theorem statement_close (blocks : List OpenBlock) {o : Opening} {front inner : List Instr}
    (whole : a.builder.program.code.toList = front ++ o.enter 0 ++ inner)
    (addressable : a.builder.program.Addressable)
    (looped : o.block = .whileLoop → a.builder.program.code.size + 1 < 0x8000000000000000) :
    ∃ b, statement (o.pending a.builder.program.codeBase front.length :: blocks)
        (.close o.block) a = .ok blocks { a with builder := b } ∧
      b.program = a.builder.program.withCode (front ++
        o.enter (codeAddress a.builder.program.codeBase
          (front.length + (o.enterSize + inner.length + o.backSize))) ++
        inner ++ o.back a.builder.program.codeBase front.length) := by
  have total := size_of_toList whole
  simp only [length_append, Opening.length_enter] at total
  cases o with
  | ifBlock e r =>
    have split : a.builder.program.code.toList =
        (front ++ e.code) ++ .jump r.failTest 0 :: inner := by
      simp [whole, Opening.enter, Opening.expression, Opening.exit, Opening.roundStart]
    obtain ⟨b, patched, program⟩ := patch_behind split addressable r.failTest a.builder.address
    rw [length_append] at patched
    refine ⟨b, complete_ok_iff.mpr ⟨rfl, b, patched, rfl⟩, ?_⟩
    rw [program, Builder.address, Program.codeEnd_eq, total]
    simp [Opening.enter, Opening.expression, Opening.exit, Opening.roundStart, Opening.back,
      Opening.backSize, Opening.block, Block.backSize, Nat.add_assoc]
  | whileLoop e r =>
    let again : Instr := .jump .always (codeAddress a.builder.program.codeBase front.length)
    let again' := a.builder.emitAll [again]
    have program : again'.program =
        a.builder.program.withCode (a.builder.program.code.toList ++ [again]) :=
      a.builder.emitAll_program [again]
    have split : again'.program.code.toList =
        (front ++ e.code) ++ .jump r.failTest 0 :: (inner ++ [again]) := by
      simp [program, whole, Opening.enter, Opening.expression, Opening.exit, Opening.roundStart]
    have addressable : again'.program.Addressable := by
      simpa [program, Program.Addressable] using looped rfl
    obtain ⟨b, patched, changed⟩ := patch_behind split addressable r.failTest again'.address
    rw [length_append, program, Program.codeBase_withCode] at patched
    refine ⟨b, complete_ok_iff.mpr ⟨rfl, b, patched, rfl⟩, ?_⟩
    rw [changed, Builder.address, Program.codeEnd_eq]
    simp [program, again, total, Opening.enter, Opening.expression, Opening.exit,
      Opening.roundStart, Opening.back, Opening.backSize, Opening.block, Block.backSize,
      Nat.add_assoc]
  | forLoop count index =>
    have split : a.builder.program.code.toList = (front ++ count.code) ++ .loopHead 0 ::
        ((Opening.forLoop count index).roundStart ++ inner) := by
      simp [whole, Opening.enter, Opening.expression, Opening.exit]
    obtain ⟨b, closed, program⟩ := closeLoop_behind split addressable
    rw [length_append] at closed program
    refine ⟨b, complete_ok_iff.mpr ⟨rfl, b, closed, rfl⟩, ?_⟩
    have target : front.length + count.code.length +
        ((Opening.forLoop count index).roundStart ++ inner).length + 2 =
        front.length + ((Opening.forLoop count index).enterSize + inner.length + 1) := by
      simp only [Opening.enterSize, Opening.expression, length_append]
      omega
    rw [program, target]
    simp [Opening.enter, Opening.expression, Opening.exit, Opening.back, Opening.backSize,
      Opening.block, Block.backSize, Nat.add_assoc]

theorem statement_close_mismatch {block : Block}
    (other : ¬ ∃ top others, blocks = top :: others ∧ top.block = block) :
    statement blocks (.close block) = fail (.mismatch block (blocks.head?.map (·.block))) := by
  cases blocks with
  | nil => cases block <;> rfl
  | cons top others =>
    have different : top.block ≠ block := fun same => other ⟨top, others, rfl, same⟩
    cases top <;> cases block <;> first | rfl | exact absurd rfl different

/-- What a statement comes to. It changes nothing but the builder. It fails if it is to close
another structure than the innermost one, or if an exit is not where it was remembered. -/
inductive Stated (blocks : List OpenBlock) (s : Statement) (a : Assembly) :
    EStateM.Result Failure Assembly (List OpenBlock) → Prop
  | ok {left : List OpenBlock} {b : Builder} : Stated blocks s a (.ok left { a with builder := b })
  | mismatch {block : Block} (closes : s = .close block) :
      Stated blocks s a (.error (.fault a.line (.mismatch block (blocks.head?.map (·.block)))) a)
  | crash {top : OpenBlock} {others : List OpenBlock} {why : Crash} {b : Builder}
      (open_ : blocks = top :: others) (closes : s = .close top.block) :
      Stated blocks s a (.error (.crash why) { a with builder := b })

theorem statement_stated (blocks : List OpenBlock) (s : Statement) (a : Assembly) :
    Stated blocks s a (statement blocks s a) := by
  cases s with
  | ret | eval _ | call _ _ _ _ | openIf _ _ | openWhile _ _ | openFor _ _ => exact .ok
  | close block =>
    by_cases open_ : ∃ top others, blocks = top :: others ∧ top.block = block
    · obtain ⟨top, others, rfl, rfl⟩ := open_
      have completed (x : Except Crash Builder) (b : Builder) :
          Stated (top :: others) (.close top.block) a
            (complete x others { a with builder := b }) := by
        cases x with
        | ok b => exact .ok
        | error crash => exact .crash rfl rfl
      cases top with
      | ifBlock | whileLoop | forLoop => exact completed _ _
    · rw [statement_close_mismatch open_]
      exact .mismatch rfl

theorem statement_ok_eq {s : Statement} {left : List OpenBlock} {a' : Assembly}
    (ok : statement blocks s a = .ok left a') : a' = { a with builder := a'.builder } := by
  have stated := statement_stated blocks s a
  rw [ok] at stated
  cases stated with
  | ok => rfl

/-- A structure can be closed only if it is the innermost one that is open. What follows its text
is added to the code. -/
theorem statement_close_ok {block : Block} {left : List OpenBlock} {a' : Assembly}
    (ok : statement blocks (.close block) a = .ok left a') :
    ∃ top b code, blocks = top :: left ∧ top.block = block ∧ a' = { a with builder := b } ∧
      b.program = a.builder.program.withCode code ∧
      code.length = a.builder.program.code.size + block.backSize := by
  by_cases open_ : ∃ top others, blocks = top :: others ∧ top.block = block
  · obtain ⟨top, others, rfl, rfl⟩ := open_
    rw [statement_close_eq] at ok
    cases top with
    | ifBlock skip jump =>
      obtain ⟨rfl, b, patched, rfl⟩ := complete_ok_iff.mp ok
      obtain ⟨i, program⟩ := patch_ok patched
      exact ⟨_, b, _, rfl, rfl, rfl, program, by simp [OpenBlock.block, Block.backSize]⟩
    | whileLoop start leave jump =>
      obtain ⟨rfl, b, patched, rfl⟩ := complete_ok_iff.mp ok
      obtain ⟨i, program⟩ := patch_ok patched
      rw [Builder.emitAll_program, Program.withCode_withCode] at program
      exact ⟨_, b, _, rfl, rfl, rfl, program, by simp [OpenBlock.block, Block.backSize]⟩
    | forLoop head =>
      obtain ⟨rfl, b, closed, rfl⟩ := complete_ok_iff.mp ok
      obtain ⟨i, instr, next, program⟩ := closeLoop_ok closed
      exact ⟨_, b, _, rfl, rfl, rfl, program, by simp [OpenBlock.block, Block.backSize]⟩
  · rw [statement_close_mismatch open_] at ok
    exact absurd ok fail_ne_ok

end OneStatement

/-! ## Open structures -/

/-- A structure that is open: the text before it and its head. -/
structure Level where
  before : Nest
  opening : Opening

namespace Level

/-- The number of instructions up to the text of the innermost structure, which comes first. -/
def size : List Level → Nat
  | [] => 0
  | l :: outer => size outer + l.before.size + l.opening.enterSize

/-- The code up to the text of the innermost structure. No exit has a target yet. -/
def code (base : Int) (position : Nat) : List Level → List Instr
  | [] => []
  | l :: outer =>
    code base position outer ++ l.before.code base (position + size outer) ++ l.opening.enter 0

/-- What the assembler keeps of the open structures. -/
def pending (base : Int) (position : Nat) : List Level → List OpenBlock
  | [] => []
  | l :: outer =>
    l.opening.pending base (position + size outer + l.before.size) :: pending base position outer

/-- The statements up to the text of the innermost structure. -/
def statements : List Level → List Statement
  | [] => []
  | l :: outer => statements outer ++ l.before.statements ++ [l.opening.statement]

@[simp] theorem length_code (base : Int) (position : Nat) (levels : List Level) :
    (code base position levels).length = size levels := by
  induction levels with
  | nil => rfl
  | cons l outer ih =>
    simp only [code, size, length_append, ih, Nest.length_code, Opening.length_enter]

end Level

/-- The code behind a first part consists of open structures and the text inside the innermost one,
and the assembler remembers just these structures. -/
structure Stands (start : List Instr) (levels : List Level) (text : Nest)
    (blocks : List OpenBlock) (p : Program) : Prop where
  code : p.code.toList = start ++ Level.code p.codeBase start.length levels ++
    text.code p.codeBase (start.length + Level.size levels)
  blocks : blocks = Level.pending p.codeBase start.length levels

/-- Nothing of an assembly but the code, the current line and the remarks has changed, and the code
is not shorter. -/
structure Follows (a a' : Assembly) : Prop where
  program : a'.builder.program = a.builder.program.withCode a'.builder.program.code.toList
  longer : a.builder.program.code.size ≤ a'.builder.program.code.size
  table : a'.table = a.table

namespace Follows

variable {a a' a'' : Assembly}

theorem of_withCode {b : Builder} {code : List Instr}
    (program : b.program = a.builder.program.withCode code)
    (longer : a.builder.program.code.size ≤ code.length) : Follows a { a with builder := b } where
  program := by simp [program]
  longer := by simpa [program] using longer
  table := rfl

theorem same (builder : a'.builder = a.builder) (table : a'.table = a.table) : Follows a a' where
  program := by rw [builder, Program.withCode_toList]
  longer := Nat.le_of_eq (by rw [builder])
  table := table

theorem emitAll (a : Assembly) (code : List Instr) :
    Follows a { a with builder := a.builder.emitAll code } :=
  of_withCode (a.builder.emitAll_program code) (by simp)

theorem trans (first : Follows a a') (second : Follows a' a'') : Follows a a'' where
  program := by rw [second.program, first.program]; simp
  longer := Nat.le_trans first.longer second.longer
  table := second.table.trans first.table

end Follows

/-- Whatever a statement is, it changes nothing but the code, which does not get shorter. -/
theorem statement_follows {blocks left : List OpenBlock} {s : Statement} {a a' : Assembly}
    (ok : statement blocks s a = .ok left a') : Follows a a' := by
  cases s with
  | ret | eval _ | call _ _ _ _ =>
    cases ok
    exact .emitAll ..
  | openIf e _ | openWhile e _ =>
    cases ok
    exact .trans (.emitAll a e.code) (.emitAll ..)
  | openFor count index =>
    cases ok
    have opened := Follows.of_withCode (a := { a with builder := a.builder.emitAll count.code })
      (openLoop_program _) (by simp)
    exact .trans (.emitAll a count.code) (opened.trans (.emitAll ..))
  | close block =>
    obtain ⟨top, b, code, -, -, rfl, program, length⟩ := statement_close_ok ok
    exact .of_withCode program (by omega)

namespace Stands

variable {start : List Instr} {levels : List Level} {text : Nest} {blocks left : List OpenBlock}
  {a a' : Assembly}

theorem begin (p : Program) : Stands p.code.toList [] .nil [] p :=
  ⟨by simp [Level.code, Nest.code], rfl⟩

theorem size_eq {p : Program} (stands : Stands start levels text blocks p) :
    p.code.size = start.length + Level.size levels + text.size := by
  rw [size_of_toList stands.code]
  simp [Nat.add_assoc]

theorem simple (stands : Stands start levels text blocks a.builder.program) {s : Simple}
    (ok : statement blocks s.statement a = .ok left a') :
    Stands start levels (text.append (.step s .nil)) left a'.builder.program := by
  rw [statement_simple] at ok
  cases ok
  constructor
  · simp [Builder.emitAll_program, stands.code, Nest.code_append, Nest.code]
  · simpa [Builder.emitAll_program] using stands.blocks

theorem opening (stands : Stands start levels text blocks a.builder.program) {o : Opening}
    (ok : statement blocks o.statement a = .ok left a') :
    Stands start (⟨text, o⟩ :: levels) .nil left a'.builder.program := by
  obtain ⟨b, opened, program⟩ := statement_opening blocks a o
  rw [opened] at ok
  cases ok
  constructor
  · simp [program, stands.code, Level.code, Nest.code]
  · simp [program, stands.size_eq, Level.pending, ← stands.blocks]

/-- The innermost open structure begins where it was remembered. -/
theorem innermost {p : Program} {l : Level} (stands : Stands start (l :: levels) text blocks p) :
    ∃ front, p.code.toList = front ++ l.opening.enter 0 ++
        text.code p.codeBase (front.length + l.opening.enterSize) ∧
      front = start ++ Level.code p.codeBase start.length levels ++
        l.before.code p.codeBase (start.length + Level.size levels) ∧
      blocks = l.opening.pending p.codeBase front.length ::
        Level.pending p.codeBase start.length levels := by
  refine ⟨_, ?_, rfl, ?_⟩
  · rw [stands.code]
    simp [Level.code, Level.size, Nat.add_assoc]
  · rw [stands.blocks, Level.pending]
    simp [Nat.add_assoc]

theorem close {l : Level} (stands : Stands start (l :: levels) text blocks a.builder.program)
    (ok : statement blocks (.close l.opening.block) a = .ok left a')
    (addressable : a.builder.program.Addressable)
    (looped : l.opening.block = .whileLoop →
      a.builder.program.code.size + 1 < 0x8000000000000000) :
    Stands start levels (l.before.append (.block l.opening text .nil)) left
      a'.builder.program := by
  obtain ⟨front, whole, same, kept⟩ := stands.innermost
  obtain ⟨b, closed, program⟩ := statement_close _ whole addressable looped
  rw [kept, closed] at ok
  cases ok
  have length : front.length = start.length + Level.size levels + l.before.size := by
    simp [same, Nat.add_assoc]
  constructor
  · rw [program, length]
    simp [same, Nest.code_append, Nest.code, Nat.add_assoc]
  · simp [program]

end Stands

/-- One statement moves from one description of the code so far to the next, which has this
statement after the others. -/
theorem statement_nests {limit : Int} {known : Procedure → Prop} {start : List Instr}
    {levels : List Level} {text : Nest} {blocks left : List OpenBlock} {s : Statement}
    {a a' : Assembly}
    (stands : Stands start levels text blocks a.builder.program) (sound : s.Sound limit known)
    (ok : statement blocks s a = .ok left a') (addressable : a'.builder.program.Addressable) :
    ∃ levels' text', Stands start levels' text' left a'.builder.program ∧
      Level.statements levels' ++ text'.statements =
        Level.statements levels ++ text.statements ++ [s] := by
  cases s with
  | ret =>
    exact ⟨levels, _, stands.simple (s := .ret) ok, by simp [Nest.statements, Simple.statement]⟩
  | eval e =>
    exact ⟨levels, _, stands.simple (s := .eval e) ok, by simp [Nest.statements, Simple.statement]⟩
  | call name entry declared args =>
    exact ⟨levels, _, stands.simple (s := .call name entry declared args) ok,
      by simp [Nest.statements, Simple.statement]⟩
  | openIf e skip =>
    obtain ⟨-, r, rfl⟩ := sound
    exact ⟨_, .nil, stands.opening (o := .ifBlock e r) ok,
      by simp [Level.statements, Nest.statements, Opening.statement]⟩
  | openWhile e leave =>
    obtain ⟨-, r, rfl⟩ := sound
    exact ⟨_, .nil, stands.opening (o := .whileLoop e r) ok,
      by simp [Level.statements, Nest.statements, Opening.statement]⟩
  | openFor count index =>
    exact ⟨_, .nil, stands.opening (o := .forLoop count index) ok,
      by simp [Level.statements, Nest.statements, Opening.statement]⟩
  | close block =>
    -- What the assembler keeps agrees with the levels, so the structure that is closed is the
    -- innermost of them.
    obtain ⟨top, b, code, split, kind, rfl, program, longer⟩ := statement_close_ok ok
    obtain ⟨l, outer, rfl⟩ : ∃ l outer, levels = l :: outer := by
      cases levels with
      | nil => exact absurd (stands.blocks.symm.trans split) (by simp [Level.pending])
      | cons l outer => exact ⟨l, outer, rfl⟩
    have own : l.opening.block = block := by
      rw [← kind, ← head_eq_of_cons_eq (stands.blocks.symm.trans split),
        Opening.block_pending]
    subst own
    rw [Program.Addressable, program, Program.size_withCode, longer] at addressable
    have closed := stands.close ok (Nat.lt_of_le_of_lt (Nat.le_add_right ..) addressable)
      fun loop => by rwa [loop] at addressable
    exact ⟨outer, _, closed, by simp [Level.statements, Nest.statements]⟩

/-! ## A whole body -/

/-- The remarks of a body before a statement, which may be behind a return. -/
def Assembly.Flow.cautions (flow : Flow) (a : Assembly) : List Caution :=
  if flow.returned && !flow.remarked then a.cautions ++ [.unreachable a.line] else a.cautions

/-- What is known of a body after one more statement. -/
def Assembly.Flow.after (flow : Flow) (s : Statement) (left : List OpenBlock) : Flow where
  returned := flow.returned || (s == .ret && left.isEmpty)
  remarked := flow.returned
  ends := flow.ends || s == .ret

theorem Assembly.Flow.behind_of_parsed {scope : Scope} {l : Lexeme} {rest : List Lexeme}
    {s : Statement} {used : Nat} (parsed : parse scope l rest = .ok (s, used)) (flow : Flow)
    (left : List OpenBlock) : flow.behind l left = flow.after s left := by
  have same : (l == .keyword .endproc) = (s == .ret) := by
    rw [Bool.eq_iff_iff, beq_iff_eq, beq_iff_eq, parse_ret parsed]
  rw [Flow.behind, Flow.after, same]

section Statements

variable {settings : Settings} {blocks : List OpenBlock} {flow : Flow} {l : Lexeme}
  {rest : List Lexeme} {a : Assembly} (notLine : l ≠ .endOfLine) (notColon : l ≠ .mark .colon)
include notLine notColon

theorem statements_compile_eq :
    statements settings 0 blocks flow (l :: rest) a =
      (compile settings blocks l rest >>= fun done =>
        statements settings done.2 done.1 (flow.behind l done.1) rest)
      { a with cautions := flow.cautions a } := by
  rw [statements]
  · rw [Flow.cautions]
    split
    · rfl
    · rfl
  · exact notLine
  · exact notColon

theorem statements_unparsed_eq {fault : Fault}
    (rejected : parse ⟨settings, a.table⟩ l rest = .error fault) :
    statements settings 0 blocks flow (l :: rest) a =
      .error (.fault a.line fault) { a with cautions := flow.cautions a } := by
  rw [statements_compile_eq notLine notColon]
  exact step_bind_error_iff.mpr (.inl (compile_unparsed rest rejected))

/-- Where a statement has been parsed, remarks are made, it is assembled, and then the rest of the
body is. -/
theorem statements_parsed_eq {s : Statement} {used : Nat}
    (parsed : parse ⟨settings, a.table⟩ l rest = .ok (s, used)) :
    statements settings 0 blocks flow (l :: rest) a =
      (Assembly.statement blocks s >>= fun left =>
        statements settings used left (flow.after s left) rest)
      { a with cautions := flow.cautions a ++ (s.caution? a.line).toList } := by
  let b : Assembly := { a with cautions := flow.cautions a }
  have compiled : compile settings blocks l rest b = _ := compile_parsed rest parsed
  rw [statements_compile_eq notLine notColon, step_bind_congr compiled, bind_assoc]
  simp only [pure_bind, Flow.behind_of_parsed parsed]
  rfl

end Statements

/-- A point in the text of a body, with what was assembled before it. -/
structure Point where
  /-- The number of lexemes that belong to the statement before. -/
  skip : Nat := 0
  blocks : List OpenBlock := []
  flow : Flow := {}
  lexemes : List Lexeme
  assembly : Assembly

namespace Point

variable {settings : Settings} {p q : Point}

/-- What comes of the text from a point on. -/
def finish (settings : Settings) (p : Point) : EStateM.Result Failure Assembly Unit :=
  statements settings p.skip p.blocks p.flow p.lexemes p.assembly

/-- One step through a body: over a lexeme, to the next line, or behind a statement. -/
inductive Step (settings : Settings) : Point → Point → Prop
  | skip {n : Nat} {blocks : List OpenBlock} {flow : Flow} {l : Lexeme} {rest : List Lexeme}
      {a : Assembly} :
      Step settings ⟨n + 1, blocks, flow, l :: rest, a⟩ ⟨n, blocks, flow, rest, a⟩
  | line {blocks : List OpenBlock} {flow : Flow} {rest : List Lexeme} {a : Assembly} :
      Step settings ⟨0, blocks, flow, .endOfLine :: rest, a⟩
        ⟨0, blocks, flow, rest, { a with line := a.line + 1 }⟩
  | colon {blocks : List OpenBlock} {flow : Flow} {rest : List Lexeme} {a : Assembly} :
      Step settings ⟨0, blocks, flow, .mark .colon :: rest, a⟩ ⟨0, blocks, flow, rest, a⟩
  | statement {blocks left : List OpenBlock} {flow : Flow} {l : Lexeme} {rest : List Lexeme}
      {a a' : Assembly} {s : Statement} {used : Nat} (notLine : l ≠ .endOfLine)
      (notColon : l ≠ .mark .colon)
      (parsed : Statement.parse ⟨settings, a.table⟩ l rest = .ok (s, used))
      (stated : Assembly.statement blocks s
        { a with cautions := flow.cautions a ++ (s.caution? a.line).toList } = .ok left a') :
      Step settings ⟨0, blocks, flow, l :: rest, a⟩ ⟨used, left, flow.after s left, rest, a'⟩

/-- Statements are assembled from one point to another. -/
inductive Arrives (settings : Settings) : Point → Point → Prop
  | refl (p : Point) : Arrives settings p p
  | step {p q r : Point} (first : Step settings p q) (others : Arrives settings q r) :
      Arrives settings p r

/-- What comes of a point from which there is no step: the end of a body, with nothing open or with
an open structure, or a statement that is rejected. -/
inductive Halts (settings : Settings) : Point → EStateM.Result Failure Assembly Unit → Prop
  | ended {skip : Nat} {flow : Flow} {a : Assembly} {cautions : List Caution} :
      Halts settings ⟨skip, [], flow, [], a⟩ (.ok () { a with cautions := cautions })
  | unclosed {skip : Nat} {top : OpenBlock} {others : List OpenBlock} {flow : Flow} {a : Assembly} :
      Halts settings ⟨skip, top :: others, flow, [], a⟩
        (.error (.fault a.line (.unclosed top.block)) a)
  | unparsed {blocks : List OpenBlock} {flow : Flow} {l : Lexeme} {rest : List Lexeme}
      {a : Assembly} {fault : Fault} (notLine : l ≠ .endOfLine) (notColon : l ≠ .mark .colon)
      (rejected : parse ⟨settings, a.table⟩ l rest = .error fault) :
      Halts settings ⟨0, blocks, flow, l :: rest, a⟩
        (.error (.fault a.line fault) { a with cautions := flow.cautions a })
  | refused {blocks : List OpenBlock} {flow : Flow} {l : Lexeme} {rest : List Lexeme}
      {a a' : Assembly} {s : Statement} {used : Nat} {failure : Failure} (notLine : l ≠ .endOfLine)
      (notColon : l ≠ .mark .colon) (parsed : parse ⟨settings, a.table⟩ l rest = .ok (s, used))
      (failed : Assembly.statement blocks s
        { a with cautions := flow.cautions a ++ (s.caution? a.line).toList } = .error failure a') :
      Halts settings ⟨0, blocks, flow, l :: rest, a⟩ (.error failure a')

/-- A step changes nothing in what comes of the text. -/
theorem Step.finish_eq (step : Step settings p q) : p.finish settings = q.finish settings := by
  cases step with
  | skip => rfl
  | line => rfl
  | colon => rfl
  | @statement blocks left flow l rest a a' s used notLine notColon parsed stated =>
    rw [finish, statements_parsed_eq notLine notColon parsed]
    exact step_bind_eq_of_ok stated

/-- From every point on, statements are assembled up to a point where nothing is left to do. -/
theorem arrives (settings : Settings) (p : Point) :
    ∃ q, Arrives settings p q ∧ q.Halts settings (p.finish settings) := by
  obtain ⟨skip, blocks, flow, lexemes, a⟩ := p
  have after {p q : Point} (step : Step settings p q)
      (later : ∃ r, Arrives settings q r ∧ r.Halts settings (q.finish settings)) :
      ∃ r, Arrives settings p r ∧ r.Halts settings (p.finish settings) := by
    obtain ⟨r, arrives, halts⟩ := later
    exact ⟨r, .step step arrives, step.finish_eq ▸ halts⟩
  induction lexemes generalizing skip blocks flow a with
  | nil =>
    refine ⟨_, .refl _, ?_⟩
    unfold finish statements
    cases blocks with
    | cons top others => exact .unclosed
    | nil =>
      dsimp only
      split
      · exact .ended
      · exact @Halts.ended settings skip flow a a.cautions
  | cons l rest ih =>
    cases skip with
    | succ skip => exact after .skip (ih ..)
    | zero =>
      by_cases line : l = .endOfLine
      · subst line
        exact after .line (ih ..)
      by_cases colon : l = .mark .colon
      · subst colon
        exact after .colon (ih ..)
      cases parsed : parse ⟨settings, a.table⟩ l rest with
      | error fault =>
        refine ⟨_, .refl _, ?_⟩
        rw [finish, statements_unparsed_eq line colon parsed]
        exact .unparsed line colon parsed
      | ok read =>
        cases stated : Assembly.statement blocks read.1
            { a with cautions := flow.cautions a ++ (read.1.caution? a.line).toList } with
        | ok left a' => exact after (.statement line colon parsed stated) (ih ..)
        | error failure a' =>
          refine ⟨_, .refl _, ?_⟩
          rw [finish, statements_parsed_eq line colon parsed, step_bind_error_iff.mpr (.inl stated)]
          exact .refused line colon parsed stated

variable (arrives : Arrives settings p q)
include arrives

/-- What comes of a body is what comes of it from any point on. -/
theorem Arrives.finish_eq : p.finish settings = q.finish settings := by
  induction arrives with
  | refl p => rfl
  | step first _ ih => exact first.finish_eq.trans ih

/-- What holds of every statement, and of lines and cautions, holds on the way through a body. -/
theorem Arrives.relates {R : Assembly → Assembly → Prop}
    (aside : ∀ a line cautions, R a { a with line := line, cautions := cautions })
    (trans : ∀ {a b c}, R a b → R b c → R a c)
    (step : ∀ {blocks s a left a'}, Assembly.statement blocks s a = .ok left a' → R a a') :
    R p.assembly q.assembly := by
  induction arrives with
  | refl p => exact aside _ _ _
  | step first _ ih =>
    refine trans ?_ ih
    cases first with
    | skip | line | colon => exact aside _ _ _
    | statement _ _ _ stated => exact trans (aside _ _ _) (step stated)

theorem Arrives.follows : Follows p.assembly q.assembly :=
  arrives.relates (fun _ _ _ => .same rfl rfl) .trans statement_follows

/-- The statements on the way are read by `Statement.sequence`, and they are added to the open
structures and the text inside the innermost one. -/
theorem Arrives.nests :
    ∃ read : List Statement,
      (∀ more, sequence ⟨settings, q.assembly.table⟩ q.skip q.lexemes = .ok more →
        sequence ⟨settings, p.assembly.table⟩ p.skip p.lexemes = .ok (read ++ more)) ∧
      (∀ s ∈ read, s.Sound settings.maxParams p.assembly.table.Knows) ∧
      ∀ {start levels text}, q.assembly.builder.program.Addressable →
        Stands start levels text p.blocks p.assembly.builder.program →
        ∃ levels' text', Stands start levels' text' q.blocks q.assembly.builder.program ∧
          Level.statements levels' ++ text'.statements =
            Level.statements levels ++ text.statements ++ read := by
  induction arrives with
  | refl p => exact ⟨[], fun _ => id, forall_mem_nil _, fun _ stands => ⟨_, _, stands, by simp⟩⟩
  | step first others ih =>
    obtain ⟨read, reads, sound, nests⟩ := ih
    cases first with
    | skip | line | colon => exact ⟨read, reads, sound, nests⟩
    | @statement blocks left flow l rest a a' s used notLine notColon parsed stated =>
      have table : a'.table = a.table := (statement_follows stated).table
      have own := (parse_spelled parsed).1.sound
      rw [table] at sound
      refine ⟨s :: read, fun more later => ?_, forall_mem_cons.mpr ⟨own, sound⟩,
        fun addressable stands => ?_⟩
      · have later := reads more later
        rw [table] at later
        rw [Statement.sequence]
        · exact bind_ok_iff.mpr ⟨_, parsed, bind_ok_iff.mpr ⟨_, later, rfl⟩⟩
        · exact notLine
        · exact notColon
      · -- Later statements only make the code longer, so it can be addressed already here.
        obtain ⟨levels', text', stands', grown⟩ := statement_nests
          (a := { a with cautions := flow.cautions a ++ (s.caution? a.line).toList }) stands own
          stated (Nat.lt_of_le_of_lt others.follows.longer addressable)
        obtain ⟨levels'', text'', stands'', whole⟩ := nests addressable stands'
        exact ⟨levels'', text'', stands'', by rw [whole, grown]; simp⟩

end Point

section Body

variable {settings : Settings} {skip : Nat} {blocks : List OpenBlock} {flow : Flow}
  {lexemes : List Lexeme} {a a' : Assembly}
  (ok : statements settings skip blocks flow lexemes a = .ok () a')
include ok

/-- A body ends where no structure is open. -/
theorem statements_arrive : ∃ skip' flow' b cautions, a' = { b with cautions := cautions } ∧
    Point.Arrives settings ⟨skip, blocks, flow, lexemes, a⟩ ⟨skip', [], flow', [], b⟩ := by
  obtain ⟨q, arrives, halts⟩ := Point.arrives settings ⟨skip, blocks, flow, lexemes, a⟩
  rw [Point.finish, ok] at halts
  cases halts with
  | ended => exact ⟨_, _, _, _, rfl, arrives⟩

/-- What holds of every statement, and of lines and cautions, holds of a body. -/
theorem statements_relates {R : Assembly → Assembly → Prop}
    (aside : ∀ a line cautions, R a { a with line := line, cautions := cautions })
    (trans : ∀ {a b c}, R a b → R b c → R a c)
    (step : ∀ {blocks s a left a'}, statement blocks s a = .ok left a' → R a a') : R a a' := by
  obtain ⟨_, _, b, cautions, rfl, arrives⟩ := statements_arrive ok
  exact trans (arrives.relates aside trans step) (aside b b.line cautions)

theorem statements_follows : Follows a a' :=
  statements_relates ok (fun _ _ _ => .same rfl rfl) .trans statement_follows

/-- A body that is assembled is read by `Statement.sequence`. -/
theorem statements_sequence :
    ∃ read, sequence ⟨settings, a.table⟩ skip lexemes = .ok read := by
  obtain ⟨_, _, b, _, rfl, arrives⟩ := statements_arrive ok
  obtain ⟨read, reads, -⟩ := arrives.nests
  exact ⟨_, reads [] (by rw [Statement.sequence])⟩

omit ok in
/-- The code of a body is that of a text which consists of its statements. -/
theorem statements_nest (ok : statements settings skip [] flow lexemes a = .ok () a')
    (addressable : a'.builder.program.Addressable) :
    ∃ (read : List Statement) (n : Nest),
      sequence ⟨settings, a.table⟩ skip lexemes = .ok read ∧ n.statements = read ∧
      a'.builder.program.code.toList = a.builder.program.code.toList ++
        n.code a'.builder.program.codeBase a.builder.program.code.size := by
  obtain ⟨_, _, b, _, rfl, arrives⟩ := statements_arrive ok
  obtain ⟨read, reads, -, nests⟩ := arrives.nests
  obtain ⟨levels, text, stands, whole⟩ := nests addressable (.begin _)
  obtain rfl : levels = [] := by
    cases levels with
    | nil => rfl
    | cons l outer => exact absurd stands.blocks (by simp [Level.pending])
  refine ⟨read, text, ?_, whole, ?_⟩
  · rw [← append_nil read]
    exact reads [] (by rw [Statement.sequence])
  · simpa [Level.code, Level.size] using stands.code

end Body

end HighAsm
