import HighAsm.Proofs.ControlFlow
import HighAsm.Proofs.LocatedAssembly
import HighAsm.Proofs.Robustness

/-!
# Structures as brackets

The words that open and close structures are the brackets of a body, in three kinds. A body is a
balanced word of them, or there is a first bracket that closes what is not the innermost open
structure, or structures are left open at its end. Which of these holds is all that the assembler
finds out about a body whose statements can be parsed, and it finds it out on the right line.
-/

namespace HighAsm

open List Assembly Statement

/-- A word that opens or closes a structure. -/
inductive Bracket
  | opening (block : Block)
  | closing (block : Block)
  deriving DecidableEq, Repr

/-- The bracket that a lexeme is. -/
def Lexeme.bracket? : Lexeme → Option Bracket
  | .keyword (.opens block) => some (.opening block)
  | .keyword (.closes block) => some (.closing block)
  | _ => none

theorem Lexeme.bracket?_eq_closing {l : Lexeme} {block : Block}
    (closing : l.bracket? = some (.closing block)) : l = .keyword (.closes block) := by
  unfold bracket? at closing
  split at closing
  · cases closing
  · obtain rfl := Bracket.closing.inj (Option.some.inj closing)
    rfl
  · contradiction

/-- The brackets of a text, in order. -/
def brackets (lexemes : List Lexeme) : List Bracket := lexemes.filterMap Lexeme.bracket?

@[simp] theorem brackets_nil : brackets [] = [] := rfl

@[simp] theorem brackets_cons (l : Lexeme) (rest : List Lexeme) :
    brackets (l :: rest) = l.bracket?.toList ++ brackets rest := by
  rw [brackets, filterMap_cons]
  cases l.bracket? <;> rfl

@[simp] theorem brackets_append (first second : List Lexeme) :
    brackets (first ++ second) = brackets first ++ brackets second :=
  filterMap_append

namespace Bracket

/-! ## Words of brackets -/

/-- Every structure is closed by a bracket of its kind, behind a balanced word. -/
inductive Balanced : List Bracket → Prop
  | nil : Balanced []
  | block {inside rest : List Bracket} (block : Block) (inner : Balanced inside)
      (later : Balanced rest) : Balanced (.opening block :: inside ++ .closing block :: rest)

/-- Structures are left open by a word that closes only what it should, the innermost first: behind
each of their opening brackets, and before the first of them, the word is balanced. -/
inductive Leaves : List Bracket → List Block → Prop
  | none {word : List Bracket} (balanced : Balanced word) : Leaves word []
  | block {word inside : List Bracket} {blocks : List Block} (outer : Leaves word blocks)
      (block : Block) (inner : Balanced inside) :
      Leaves (word ++ .opening block :: inside) (block :: blocks)

/-- The structures that are open behind a word, if every bracket closes the innermost of them. -/
def settle : List Block → List Bracket → Option (List Block)
  | blocks, [] => some blocks
  | blocks, .opening block :: rest => settle (block :: blocks) rest
  | blocks, .closing block :: rest =>
    if blocks.head? = some block then settle blocks.tail rest else none

variable {word front rest : List Bracket} {blocks left : List Block}

theorem Balanced.append (first : Balanced front) (second : Balanced rest) :
    Balanced (front ++ rest) := by
  induction first with
  | nil => exact second
  | block block inner later _ ih =>
    have both := Balanced.block block inner ih
    rwa [← cons_append, ← append_assoc] at both

theorem leaves_nil_iff : Leaves word [] ↔ Balanced word := by
  constructor
  · rintro ⟨balanced⟩
    exact balanced
  · exact .none

theorem Leaves.append (leaves : Leaves front blocks) (balanced : Balanced rest) :
    Leaves (front ++ rest) blocks := by
  cases leaves with
  | none before => exact .none (before.append balanced)
  | block outer block inner =>
    rw [append_assoc, cons_append]
    exact .block outer block (inner.append balanced)

theorem Leaves.close {block : Block} (leaves : Leaves front (block :: blocks)) :
    Leaves (front ++ [.closing block]) blocks := by
  cases leaves with
  | block outer _ inner =>
    have closed := outer.append (.block block inner .nil)
    rwa [append_assoc]

theorem settle_append (blocks : List Block) (front rest : List Bracket) :
    settle blocks (front ++ rest) = (settle blocks front).bind (settle · rest) := by
  induction front generalizing blocks with
  | nil => rfl
  | cons bracket others ih =>
    cases bracket with
    | opening block => exact ih _
    | closing block =>
      simp only [cons_append, settle]
      split
      · exact ih _
      · rfl

theorem Balanced.settles (balanced : Balanced word) (blocks : List Block) :
    settle blocks word = some blocks := by
  induction balanced generalizing blocks with
  | nil => rfl
  | block block _ _ ihInner ihLater =>
    rw [cons_append, settle, settle_append, ihInner, Option.bind_some, settle,
      head?_cons, if_pos rfl, tail_cons, ihLater]

theorem Leaves.settles (leaves : Leaves word blocks) : settle [] word = some blocks := by
  induction leaves with
  | none balanced => exact balanced.settles []
  | block _ block inner ih =>
    rw [settle_append, ih, Option.bind_some, settle, inner.settles]

/-- Going on from a word, one bracket after the other. -/
theorem Leaves.after (leaves : Leaves front blocks) (settled : settle blocks rest = some left) :
    Leaves (front ++ rest) left := by
  induction rest generalizing front blocks with
  | nil =>
    cases settled
    rwa [append_nil]
  | cons bracket others ih =>
    rw [← singleton_append, ← append_assoc]
    cases bracket with
    | opening block => exact ih (.block leaves block .nil) settled
    | closing block =>
      rw [settle] at settled
      split at settled
      · next innermost =>
        obtain ⟨others, rfl⟩ := head?_eq_some_iff.mp innermost
        exact ih leaves.close settled
      · contradiction

theorem settle_eq_some_iff : settle [] word = some blocks ↔ Leaves word blocks :=
  ⟨Leaves.after (.none .nil), Leaves.settles⟩

theorem not_balanced_of_open {top : Block} (leaves : Leaves word (top :: blocks)) :
    ¬ Balanced word := by
  intro balanced
  cases leaves.settles.symm.trans (balanced.settles [])

theorem not_balanced_of_mismatch {block : Block} (leaves : Leaves front blocks)
    (other : blocks.head? ≠ some block) : ¬ Balanced (front ++ .closing block :: rest) := by
  intro balanced
  have settled := balanced.settles []
  rw [settle_append, leaves.settles, Option.bind_some, settle, if_neg other] at settled
  contradiction

end Bracket

/-! ## The brackets of statements -/

namespace Statement

/-- The bracket that a statement is. -/
def bracket? : Statement → Option Bracket
  | openIf _ _ => some (.opening .ifBlock)
  | openWhile _ _ => some (.opening .whileLoop)
  | openFor _ _ => some (.opening .forLoop)
  | close block => some (.closing block)
  | ret | eval _ | call .. => none

theorem brackets_inner {inner : List Lexeme} (free : ∀ l ∈ inner, l.Inner) :
    brackets inner = [] := by
  refine filterMap_eq_nil_iff.mpr fun l member => ?_
  have own := free l member
  cases l with
  | keyword word => exact own.elim
  | endOfLine | endOfFile | ident _ | number _ | mark _ => rfl

/-- Only the first lexeme of a statement can be a bracket. -/
theorem Spelled.brackets {scope : Scope} {first : Lexeme} {others : List Lexeme} {s : Statement}
    (spelled : Spelled scope (first :: others) s) :
    first.bracket? = s.bracket? ∧ brackets others = [] := by
  cases spelled with
  | ret => exact ⟨rfl, rfl⟩
  | close block => exact ⟨rfl, rfl⟩
  | eval spelled =>
    have none := brackets_inner spelled.uses.inner
    rw [brackets_cons, append_eq_nil_iff, Option.toList_eq_nil_iff] at none
    exact none
  | call known spelled few =>
    have none := brackets_inner (spelled.uses 0).inner
    exact ⟨rfl, by simp [none, Lexeme.bracket?]⟩
  | openIf r spelled | openWhile r spelled | openFor spelled indexed =>
    have none := brackets_inner spelled.uses.inner
    exact ⟨rfl, by simp [none, Lexeme.bracket?]⟩

/-- The number of instructions of a statement. -/
def size : Statement → Nat
  | ret => 1
  | eval e => e.code.length
  | call _ _ _ args => args.length + 1
  | openIf e _ | openWhile e _ => e.code.length + 1
  | openFor count index => count.code.length + 2 + index.toList.length
  | close block => block.backSize

/-- The number of instructions of statements in order. -/
def sizes : List Statement → Nat
  | [] => 0
  | s :: rest => s.size + sizes rest

@[simp] theorem sizes_nil : sizes [] = 0 := rfl

@[simp] theorem sizes_cons (s : Statement) (rest : List Statement) :
    sizes (s :: rest) = s.size + sizes rest := rfl

@[simp] theorem sizes_append (first second : List Statement) :
    sizes (first ++ second) = sizes first + sizes second := by
  induction first with
  | nil => exact (Nat.zero_add _).symm
  | cons s rest ih => rw [cons_append, sizes_cons, ih, sizes_cons, Nat.add_assoc]

end Statement

/-! ## One statement -/

section Statements

variable {settings : Settings} {blocks left : List OpenBlock} {s : Statement} {a a' : Assembly}

theorem statement_size (stated : statement blocks s a = .ok left a') :
    a'.builder.program.code.size = a.builder.program.code.size + s.size := by
  cases s with
  | ret | eval _ | call _ _ _ _ | openIf _ _ | openWhile _ _ =>
    cases stated
    simp [Builder.emitAll_program, size]
  | openFor count index =>
    cases stated
    simp [Builder.emitAll_program, openLoop_program, size, Nat.add_assoc,
      Nat.add_comm 2]
  | close block =>
    obtain ⟨top, b, code, -, -, rfl, program, length⟩ := statement_close_ok stated
    rw [program, Program.size_withCode, length, size]

/-- A statement does to the open structures what its bracket does, if that closes the innermost one
or none; otherwise it is a mismatch. -/
theorem statement_judged (tracks : a.Tracks blocks)
    (short : a.builder.program.code.size + s.size < 0x8000000000000000) :
    (∃ left a', statement blocks s a = .ok left a' ∧
        Bracket.settle (blocks.map (·.block)) s.bracket?.toList = some (left.map (·.block))) ∨
      ∃ block, s = .close block ∧ (blocks.map (·.block)).head? ≠ some block ∧
        statement blocks s a =
          .error (.fault a.line (.mismatch block (blocks.map (·.block)).head?)) a := by
  cases s with
  | ret | eval _ | call _ _ _ _ | openIf _ _ | openWhile _ _ | openFor _ _ =>
    exact .inl ⟨_, _, rfl, rfl⟩
  | close block =>
    by_cases open_ : ∃ top others, blocks = top :: others ∧ top.block = block
    · obtain ⟨top, others, rfl, rfl⟩ := open_
      obtain ⟨a', closed⟩ := tracks.close_ok (Nat.lt_of_le_of_lt (Nat.le_add_right ..) short)
        fun loop => by rwa [size, loop] at short
      exact .inl ⟨others, a', closed, by simp [bracket?, Bracket.settle]⟩
    · refine .inr ⟨block, rfl, fun same => open_ ?_, ?_⟩
      · rw [head?_map] at same
        obtain ⟨top, first, kind⟩ := Option.map_eq_some_iff.mp same
        obtain ⟨others, rfl⟩ := head?_eq_some_iff.mp first
        exact ⟨top, others, rfl, kind⟩
      · rw [statement_close_mismatch open_, head?_map]
        rfl

end Statements

/-! ## A whole body -/

/-- What is found out about the structures of a text that begins on a line, inside open ones: all of
them are closed, a word closes what is not the innermost one, or some are left open. -/
inductive Judged (line : Int) (blocks : List Block) (lexemes : List Lexeme) :
    EStateM.Result Failure Assembly Unit → Prop
  | closed {a : Assembly} (settled : Bracket.settle blocks (brackets lexemes) = some []) :
      Judged line blocks lexemes (.ok () a)
  | mismatch {front back : List Lexeme} {block : Block} {left : List Block} {a : Assembly}
      (split : lexemes = front ++ .keyword (.closes block) :: back)
      (settled : Bracket.settle blocks (brackets front) = some left)
      (other : left.head? ≠ some block) :
      Judged line blocks lexemes
        (.error (.fault (line + front.count .endOfLine) (.mismatch block left.head?)) a)
  | unclosed {top : Block} {others : List Block} {a : Assembly}
      (settled : Bracket.settle blocks (brackets lexemes) = some (top :: others)) :
      Judged line blocks lexemes
        (.error (.fault (line + lexemes.count .endOfLine) (.unclosed top)) a)

section Body

variable {settings : Settings} {blocks : List OpenBlock} {lexemes : List Lexeme} {a : Assembly}
  {r : EStateM.Result Failure Assembly Unit} {line : Int} {read : List Statement}

theorem Judged.behind {blocks left : List Block} {l : Lexeme} {rest : List Lexeme}
    (judged : Judged (line + [l].count .endOfLine) left rest r)
    (settled : Bracket.settle blocks l.bracket?.toList = some left) :
    Judged line blocks (l :: rest) r := by
  have joined (more : List Lexeme) :
      Bracket.settle blocks (brackets (l :: more)) = Bracket.settle left (brackets more) := by
    rw [brackets_cons, Bracket.settle_append, settled, Option.bind_some]
  have counted (more : List Lexeme) : line + [l].count .endOfLine + more.count .endOfLine =
      line + ((l :: more).count .endOfLine : Nat) := by
    rw [Int.add_assoc, ← Int.natCast_add, ← count_append]
    rfl
  cases judged with
  | closed all => exact .closed ((joined rest).trans all)
  | mismatch split before other =>
    rw [counted]
    exact .mismatch (congrArg (l :: ·) split) ((joined _).trans before) other
  | unclosed all =>
    rw [counted]
    exact .unclosed ((joined rest).trans all)

theorem Judged.behind_inline {blocks left : List Block} {l : Lexeme} {rest : List Lexeme}
    (inline : l ≠ .endOfLine) (settled : Bracket.settle blocks l.bracket?.toList = some left)
    (judged : Judged line left rest r) : Judged line blocks (l :: rest) r := by
  have here : [l].count .endOfLine = 0 :=
    count_eq_zero_of_not_mem fun same => inline (mem_singleton.mp same).symm
  refine .behind ?_ settled
  rwa [here, Int.natCast_zero, Int.add_zero]

/-- A text outside all structures is found to be balanced, or where it first is not. -/
theorem Judged.verdict (judged : Judged line [] lexemes r) :
    (∃ a, r = .ok () a) ∧ Bracket.Balanced (brackets lexemes) ∨
      ¬ Bracket.Balanced (brackets lexemes) ∧
        ((∃ front block back left a, lexemes = front ++ .keyword (.closes block) :: back ∧
          Bracket.Leaves (brackets front) left ∧ left.head? ≠ some block ∧
          r = .error (.fault (line + front.count .endOfLine) (.mismatch block left.head?)) a) ∨
        ∃ top others a, Bracket.Leaves (brackets lexemes) (top :: others) ∧
          r = .error (.fault (line + lexemes.count .endOfLine) (.unclosed top)) a) := by
  cases judged with
  | closed settled =>
    have leaves := Bracket.settle_eq_some_iff.mp settled
    exact .inl ⟨⟨_, rfl⟩, Bracket.leaves_nil_iff.mp leaves⟩
  | @mismatch front back block left a split settled other =>
    have leaves := Bracket.settle_eq_some_iff.mp settled
    refine .inr ⟨?_, .inl ⟨front, block, back, left, a, split, leaves, other, rfl⟩⟩
    rw [split, brackets_append, brackets_cons]
    exact Bracket.not_balanced_of_mismatch leaves other
  | @unclosed top others a settled =>
    have leaves := Bracket.settle_eq_some_iff.mp settled
    exact .inr ⟨Bracket.not_balanced_of_open leaves, .inr ⟨top, others, a, leaves, rfl⟩⟩

/-- A body whose statements can be parsed is judged by its brackets alone. -/
theorem statements_judged {skip : Nat} (flow : Flow) (tracks : a.Tracks blocks)
    (parsed : sequence ⟨settings, a.table⟩ skip lexemes = .ok read)
    (short : a.builder.program.code.size + sizes read < 0x8000000000000000)
    (inline : .endOfLine ∉ lexemes.take skip) (plain : brackets (lexemes.take skip) = []) :
    Judged a.line (blocks.map (·.block)) lexemes
      (statements settings skip blocks flow lexemes a) := by
  induction lexemes generalizing skip blocks flow a read with
  | nil =>
    unfold statements
    cases blocks with
    | cons top others =>
      have judged : Judged a.line ((top :: others).map (·.block)) []
          (.error (.fault (a.line + 0) (.unclosed top.block)) a) := .unclosed rfl
      rwa [Int.add_zero] at judged
    | nil =>
      split
      · exact .closed rfl
      · exact .closed rfl
  | cons l rest ih =>
    cases skip with
    | succ skip =>
      rw [take_succ_cons] at inline plain
      rw [brackets_cons, append_eq_nil_iff] at plain
      rw [mem_cons, not_or] at inline
      refine .behind_inline (fun same => inline.1 same.symm) (by rw [plain.1]; rfl) ?_
      exact ih flow tracks parsed short inline.2 plain.2
    | zero =>
      by_cases line : l = .endOfLine
      · subst line
        exact .behind (ih (a := { a with line := a.line + 1 }) flow tracks parsed short
          not_mem_nil rfl) rfl
      by_cases colon : l = .mark .colon
      · subst colon
        exact .behind_inline line rfl (ih flow tracks parsed short not_mem_nil rfl)
      rw [Statement.sequence] at parsed
      · obtain ⟨⟨s, used⟩, here, parsed⟩ := bind_ok_iff.mp parsed
        obtain ⟨more, later, parsed⟩ := bind_ok_iff.mp parsed
        cases parsed
        rw [statements_parsed_eq line colon here]
        let b : Assembly := { a with cautions := flow.cautions a ++ (s.caution? a.line).toList }
        obtain ⟨spelled, -⟩ := parse_spelled here
        obtain ⟨own, others⟩ := spelled.brackets
        rw [sizes_cons] at short
        have small : a.builder.program.code.size + s.size < 0x8000000000000000 := by omega
        rcases statement_judged (a := b) tracks small with
          ⟨left, a', stated, settled⟩ | ⟨block, rfl, other, failed⟩
        · have table : a'.table = a.table := (statement_follows stated).table
          have size : a'.builder.program.code.size = a.builder.program.code.size + s.size :=
            statement_size (a := b) stated
          have same : a'.line = b.line := SameLine.overlooks.statement blocks s stated
          have tracked : a'.Tracks left :=
            (statement_ends (a := b) tracks spelled.sound).2 left a' stated
          rw [step_bind_eq_of_ok stated]
          refine .behind_inline line (own ▸ settled) ?_
          rw [show a.line = a'.line from same.symm]
          exact ih _ tracked (table ▸ later) (by omega) (parse_extent here).2.2 others
        · -- Nothing stands in front of the word that fails.
          obtain rfl := Lexeme.bracket?_eq_closing own
          rw [step_bind_error_iff.mpr (.inl failed)]
          have judged : Judged a.line (blocks.map (·.block))
              ([] ++ .keyword (.closes block) :: rest)
              (.error (.fault (a.line + 0) (.mismatch block (blocks.map (·.block)).head?)) b) :=
            .mismatch rfl rfl other
          rwa [Int.add_zero] at judged
      · exact line
      · exact colon

theorem body_judged {a₁ : Assembly} (declared : declareLocals settings a.line lexemes a = .ok () a₁)
    (parsed : sequence ⟨settings, a₁.table⟩ 0 lexemes = .ok read)
    (short : a.builder.program.code.size + sizes read < 0x8000000000000000) :
    Judged a.line [] lexemes (body settings lexemes a) := by
  have same : a₁.line = a.line := SameLine.declareLocals _ _ _ declared
  obtain ⟨data, strings, program⟩ := (declareLocals_declares _ _ _ declared).program
  have begun : body settings lexemes a = statements settings 0 [] {} lexemes a₁ :=
    step_bind_eq_of_ok declared
  rw [begun, ← same]
  exact statements_judged {} a₁.tracks_nil parsed (by rwa [program]) not_mem_nil rfl

end Body

end HighAsm
