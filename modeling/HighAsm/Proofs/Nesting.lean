import HighAsm.Proofs.Statements
import HighAsm.Proofs.CodeAddress

/-!
# Nested statements and their code

The source is read as a flat list of statements, some of which open or close a structure. A `Nest`
is the text that such a list stands for: statements in order, and structures with the text inside
them. Its code is laid out in one go, with every jump already going where it should, so it shows
directly what code a structure has. That the assembler, which sees one statement at a time and
completes jumps later, arrives at the same code is shown elsewhere.
-/

namespace HighAsm

open List

/-- How the test of a structure compares a value with zero. -/
inductive Relation
  | nonZero | zero | negative
  deriving DecidableEq, Repr

namespace Relation

/-- Whether a relation holds of a value. -/
def holds (r : Relation) (n : Int) : Bool :=
  match r with
  | nonZero => n != 0
  | zero => n == 0
  | negative => n < 0

/-- The test of the jump around a text that is under a relation. -/
def failTest : Relation → Test
  | nonZero => .zero
  | zero => .nonZero
  | negative => .nonNegative

theorem taken_failTest (r : Relation) (n : Int) : r.failTest.taken n = !r.holds n := by
  cases r with
  | nonZero | zero => simp [failTest, Test.taken, holds, bne]
  | negative => simp [failTest, Test.taken, holds, ← decide_not]

theorem failTest_inj {r s : Relation} (same : r.failTest = s.failTest) : r = s := by
  revert same
  cases r <;> cases s <;> decide

end Relation

/-- A statement that stands for itself. -/
inductive Simple
  | ret
  | eval (e : Expression)
  | call (name : String) (entry declared : Int) (args : List Operand)
  deriving DecidableEq, Repr

namespace Simple

/-- The statement as it is read. -/
def statement : Simple → Statement
  | ret => .ret
  | eval e => .eval e
  | call name entry declared args => .call name entry declared args

/-- The instructions of the statement. -/
def code : Simple → List Instr
  | ret => [.ret]
  | eval e => e.code
  | call _ entry _ args => Assembly.passArguments 0 args ++ [.call entry]

theorem statement_inj {s t : Simple} (same : s.statement = t.statement) : s = t := by
  cases s <;> cases t <;> simp_all [statement]

end Simple

/-- The number of instructions after the text of a structure: a loop goes back to its start. -/
def Block.backSize : Block → Nat
  | ifBlock => 0
  | whileLoop => 1
  | forLoop => 1

/-- The head of a structure. -/
inductive Opening
  | ifBlock (e : Expression) (relation : Relation)
  | whileLoop (e : Expression) (relation : Relation)
  | forLoop (count : Expression) (index : Option Int)
  deriving DecidableEq, Repr

/-- The address of the exit of an open structure. -/
def OpenBlock.exit : OpenBlock → Int
  | ifBlock _ jump => jump
  | whileLoop _ _ jump => jump
  | forLoop head => head

namespace Opening

/-- The statement that opens the structure. -/
def statement : Opening → Statement
  | ifBlock e r => .openIf e r.failTest
  | whileLoop e r => .openWhile e r.failTest
  | forLoop count index => .openFor count index

/-- The structure that is opened. -/
def block : Opening → Block
  | ifBlock _ _ => .ifBlock
  | whileLoop _ _ => .whileLoop
  | forLoop _ _ => .forLoop

/-- The expression in the parentheses. -/
def expression : Opening → Expression
  | ifBlock e _ => e
  | whileLoop e _ => e
  | forLoop count _ => count

/-- The instruction that may leave the structure for an address. -/
def exit (leave : Int) : Opening → Instr
  | ifBlock _ r => .jump r.failTest leave
  | whileLoop _ r => .jump r.failTest leave
  | forLoop _ _ => .loopHead leave

/-- The instructions that begin a round of a counted loop. -/
def roundStart : Opening → List Instr
  | ifBlock _ _ => []
  | whileLoop _ _ => []
  | forLoop _ index => .loopIndex :: index.toList.map .store

/-- The instructions before the text of the structure, whose exit goes to an address. -/
def enter (leave : Int) (o : Opening) : List Instr :=
  o.expression.code ++ o.exit leave :: o.roundStart

/-- The number of instructions before the text of the structure. -/
def enterSize (o : Opening) : Nat := o.expression.code.length + 1 + o.roundStart.length

/-- The instructions after the text of a structure that begins at a position. -/
def back (base : Int) (position : Nat) : Opening → List Instr
  | ifBlock _ _ => []
  | whileLoop _ _ => [.jump .always (codeAddress base position)]
  | forLoop count _ => [.loopNext (codeAddress base (position + count.code.length + 1))]

/-- The number of instructions after the text of the structure. -/
def backSize (o : Opening) : Nat := o.block.backSize

@[simp] theorem length_enter (leave : Int) (o : Opening) :
    (o.enter leave).length = o.enterSize := by
  simp only [enter, enterSize, length_append, length_cons]
  omega

@[simp] theorem length_back (base : Int) (position : Nat) (o : Opening) :
    (o.back base position).length = o.backSize := by
  cases o <;> rfl

/-- What the assembler keeps of a structure that begins at a position while it is open. -/
def pending (base : Int) (position : Nat) : Opening → OpenBlock
  | ifBlock e r => .ifBlock r.failTest (codeAddress base (position + e.code.length))
  | whileLoop e r =>
    .whileLoop (codeAddress base position) r.failTest
      (codeAddress base (position + e.code.length))
  | forLoop count _ => .forLoop (codeAddress base (position + count.code.length))

theorem block_pending (base : Int) (position : Nat) (o : Opening) :
    (o.pending base position).block = o.block := by
  cases o <;> rfl

theorem statement_inj {o o' : Opening} (same : o.statement = o'.statement) : o = o' := by
  cases o <;> cases o' <;> simp only [statement, Statement.openIf.injEq, Statement.openWhile.injEq,
    Statement.openFor.injEq, reduceCtorEq] at same
  · rw [same.1, Relation.failTest_inj same.2]
  · rw [same.1, Relation.failTest_inj same.2]
  · rw [same.1, same.2]

end Opening

/-- Statements in order, and structures with the statements inside them. -/
inductive Nest
  | nil
  | step (s : Simple) (rest : Nest)
  | block (o : Opening) (body rest : Nest)
  deriving DecidableEq, Repr

namespace Nest

/-- The statements of a text in the order in which they are read. -/
def statements : Nest → List Statement
  | nil => []
  | step s rest => s.statement :: rest.statements
  | block o body rest =>
    o.statement :: body.statements ++ .close o.block :: rest.statements

/-- The number of instructions of a text. -/
def size : Nest → Nat
  | nil => 0
  | step s rest => s.code.length + rest.size
  | block o body rest => o.enterSize + body.size + o.backSize + rest.size

/-- The code of a text that begins at a position. -/
def code (base : Int) (position : Nat) : Nest → List Instr
  | nil => []
  | step s rest => s.code ++ rest.code base (position + s.code.length)
  | block o body rest =>
    let after := position + (o.enterSize + body.size + o.backSize)
    o.enter (codeAddress base after) ++ body.code base (position + o.enterSize) ++
      o.back base position ++ rest.code base after

@[simp] theorem length_code (base : Int) (position : Nat) (n : Nest) :
    (n.code base position).length = n.size := by
  induction n generalizing position with
  | nil => rfl
  | step s rest ih => simp only [code, size, length_append, ih]
  | block o body rest ihBody ihRest =>
    simp only [code, size, length_append, Opening.length_enter, Opening.length_back, ihBody,
      ihRest]

/-- A text followed by another. -/
def append : Nest → Nest → Nest
  | nil, other => other
  | step s rest, other => step s (rest.append other)
  | block o body rest, other => block o body (rest.append other)

@[simp] theorem statements_append (first second : Nest) :
    (first.append second).statements = first.statements ++ second.statements := by
  induction first with
  | nil => rfl
  | step s rest ih => simp only [append, statements, ih, cons_append]
  | block o body rest _ ih =>
    simp only [append, statements, ih, cons_append, append_assoc]

theorem code_append (base : Int) (position : Nat) (first second : Nest) :
    (first.append second).code base position =
      first.code base position ++ second.code base (position + first.size) := by
  induction first generalizing position with
  | nil => simp only [append, code, size, Nat.add_zero, nil_append]
  | step s rest ih | block o body rest _ ih =>
    simp only [append, code, size, ih, append_assoc, Nat.add_assoc]

/-- Statements that come after a text inside a structure, or at its end. -/
def Behind (rest : List Statement) : Prop := ∀ s ∈ rest.head?, ∃ block, s = .close block

theorem not_behind_simple (s : Simple) (rest : List Statement) :
    ¬ Behind (s.statement :: rest) := by
  intro behind
  obtain ⟨block, impossible⟩ := behind s.statement rfl
  cases s <;> cases impossible

theorem not_behind_opening (o : Opening) (rest : List Statement) :
    ¬ Behind (o.statement :: rest) := by
  intro behind
  obtain ⟨block, impossible⟩ := behind o.statement rfl
  cases o <;> cases impossible

theorem behind_close (block : Block) (rest : List Statement) : Behind (.close block :: rest) := by
  simp [Behind]

/-- Texts that are followed by what can come after a text are told apart by their statements. -/
theorem statements_append_inj {first second : Nest} {rest others : List Statement}
    (behindFirst : Behind rest) (behindSecond : Behind others)
    (same : first.statements ++ rest = second.statements ++ others) :
    first = second ∧ rest = others := by
  induction first generalizing second rest others with
  | nil =>
    cases second with
    | nil => exact ⟨rfl, same⟩
    | step s tail =>
      obtain rfl : rest = _ := same
      exact absurd behindFirst (not_behind_simple s _)
    | block o body tail =>
      obtain rfl : rest = _ := same
      exact absurd behindFirst (not_behind_opening o _)
  | step s tail ih =>
    cases second with
    | nil =>
      obtain rfl : _ = others := same
      exact absurd behindSecond (not_behind_simple s _)
    | step s' tail' =>
      obtain ⟨head, after⟩ := List.cons.inj same
      obtain ⟨rfl, rfl⟩ := ih behindFirst behindSecond after
      obtain rfl := Simple.statement_inj head
      exact ⟨rfl, rfl⟩
    | block o body tail' =>
      obtain ⟨head, -⟩ := List.cons.inj same
      cases s <;> cases o <;> cases head
  | block o body tail ihBody ihTail =>
    cases second with
    | nil =>
      obtain rfl : _ = others := same
      exact absurd behindSecond (not_behind_opening o _)
    | step s' tail' =>
      obtain ⟨head, -⟩ := List.cons.inj same
      cases s' <;> cases o <;> cases head
    | block o' body' tail' =>
      simp only [statements, cons_append, append_assoc] at same
      obtain ⟨head, inside⟩ := List.cons.inj same
      obtain ⟨rfl, closed⟩ := ihBody (behind_close _ _) (behind_close _ _) inside
      obtain ⟨-, after⟩ := List.cons.inj closed
      obtain ⟨rfl, rfl⟩ := ihTail behindFirst behindSecond after
      obtain rfl := Opening.statement_inj head
      exact ⟨rfl, rfl⟩

theorem statements_inj {first second : Nest} (same : first.statements = second.statements) :
    first = second := by
  have nothing : Behind [] := by simp [Behind]
  have both : first.statements ++ [] = second.statements ++ [] := by
    rw [append_nil, append_nil, same]
  exact (statements_append_inj nothing nothing both).1

end Nest

end HighAsm
