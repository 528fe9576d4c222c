import HighAsm.Proofs.DirectStores
import HighAsm.Proofs.Respelling

/-!
# Lines of tokens

Every token carries the line that it was read from. Tokens are numbered if these are the lines that
come out when the ends of lines are counted along them, which is so for the tokens of at least one
source line. The division of a module into procedures gives each of them the line of the word that
opens it, and bodies that are numbered from there.
-/

namespace HighAsm

open List Assembly

/-! ## Numbered tokens -/

/-- The line behind a lexeme of a line. -/
def Lexeme.lineAfter (l : Lexeme) (line : Int) : Int := if l = .endOfLine then line + 1 else line

/-- Tokens carry the lines that are counted along them from a line on. -/
def Numbered : Int → List Token → Prop
  | _, [] => True
  | line, t :: rest => t.line = line ∧ Numbered (t.lexeme.lineAfter line) rest

theorem Lexeme.lineAfter_of_ne {l : Lexeme} (inside : l ≠ .endOfLine) (line : Int) :
    l.lineAfter line = line := if_neg inside

theorem Numbered.inline {line : Int} {first rest : List Token} (later : Numbered line rest)
    (inside : ∀ t ∈ first, t.line = line ∧ t.lexeme ≠ .endOfLine) :
    Numbered line (first ++ rest) := by
  induction first with
  | nil => exact later
  | cons t first ih =>
    have ⟨here, others⟩ := forall_mem_cons.mp inside
    refine ⟨here.1, ?_⟩
    rw [Lexeme.lineAfter_of_ne here.2]
    exact ih others

theorem Numbered.left {line : Int} {first rest : List Token}
    (numbered : Numbered line (first ++ rest)) : Numbered line first := by
  induction first generalizing line with
  | nil => trivial
  | cons t first ih => exact ⟨numbered.1, ih numbered.2⟩

namespace Source

variable {settings : Settings} {o o' : Output} {tokens : List Token}

theorem readLine_line {line : Int} {raw : Text}
    (ok : readLine settings line raw o = .ok tokens o') :
    ∀ t ∈ tokens, t.line = line ∧ t.lexeme ≠ .endOfLine := by
  intro t member
  obtain ⟨same, scannable⟩ := readLine_read ok t member
  refine ⟨same, fun ends => ?_⟩
  rw [ends] at scannable
  exact scannable

/-- The tokens of some lines are numbered, and what is numbered from the last of the lines on may
follow them. -/
theorem readLines_numbered {before : Nat} {lines : List Text} (some : lines ≠ [])
    (ok : readLines settings before lines o = .ok tokens o') {rest : List Token}
    (later : Numbered (before + lines.length : Nat) rest) :
    Numbered (before + 1 : Nat) (tokens ++ rest) ∧
      ∀ t ∈ tokens, before + 1 ≤ t.line ∧ t.line ≤ (before + lines.length : Nat) := by
  fun_induction readLines (γ := Builder) settings before lines generalizing o o' tokens with
  | case1 => contradiction
  | case2 before raw =>
    have inside := readLine_line ok
    refine ⟨later.inline inside, fun t member => ?_⟩
    rw [(inside t member).1]
    simp
  | case3 before raw others several ih =>
    obtain ⟨first, _, early, ok⟩ := step_bind_ok_iff.mp ok
    obtain ⟨more, _, late, ok⟩ := step_bind_ok_iff.mp ok
    cases ok
    have inside := readLine_line early
    have length : before + (raw :: others).length = before + 1 + others.length := by
      rw [length_cons]
      omega
    rw [length] at later ⊢
    obtain ⟨numbered, range⟩ := ih several late later
    constructor
    · rw [append_assoc]
      refine Numbered.inline ⟨rfl, ?_⟩ inside
      exact numbered
    · refine forall_mem_append.mpr ⟨fun t member => ?_, forall_mem_cons.mpr ⟨?_, ?_⟩⟩
      · rw [(inside t member).1]
        omega
      · dsimp only
        omega
      · intro t member
        have := range t member
        omega

end Source

/-! ## Dividing tokens -/

/-- A procedure in its module: the word that opens it, the rest of its header, its body, and the
token behind the body. -/
structure Passage where
  opening : Token
  header : List Token
  body : List Token
  next : Token

namespace Passage

variable {line : Int} {t : Token} {d : Division}

/-- The source of a procedure, which has the line of the word that opens it. -/
def source (p : Passage) : ProcedureSource :=
  ⟨p.opening.lexeme :: p.header.map (·.lexeme), p.body.map (·.lexeme), p.opening.line⟩

/-- What is left of the current header and of the current body, the token behind them, and the
procedures after them. -/
structure Division where
  header : List Token := []
  body : List Token := []
  next : Token
  others : List Passage := []

/-- Divides tokens from a part on. A last token stands behind all of them. -/
def divide (last : Token) : ProcedureSource.Part → List Token → Division
  | _, [] => { next := last }
  | .before, t :: rest =>
    match t.lexeme with
    | .keyword .proc =>
      let d := divide last .header rest
      { next := t, others := ⟨t, d.header, d.body, d.next⟩ :: d.others }
    | _ => { next := t, others := (divide last .before rest).others }
  | .header, t :: rest =>
    match t.lexeme with
    | .mark .rparen => { divide last .body rest with header := [t] }
    | .endOfLine =>
      let d := divide last .body rest
      { d with body := t :: d.body }
    | .endOfFile => { next := t, others := (divide last .before rest).others }
    | _ =>
      let d := divide last .header rest
      { d with header := t :: d.header }
  | .body, t :: rest =>
    match t.lexeme with
    | .keyword .proc =>
      let d := divide last .header rest
      { next := t, others := ⟨t, d.header, d.body, d.next⟩ :: d.others }
    | .endOfFile => { next := t, others := (divide last .before rest).others }
    | _ =>
      let d := divide last .body rest
      { d with body := t :: d.body }

/-- The procedures of a module. -/
def all (last : Token) (tokens : List Token) : List Passage := (divide last .before tokens).others

/-- A division of tokens as one of lexemes. -/
def Division.plain (d : Division) : ProcedureSource.Division :=
  ⟨d.header.map (·.lexeme), d.body.map (·.lexeme), d.others.map source⟩

/-- What is said of a division: its body goes on at a line, and every other body at the line of the
word that opens its procedure. -/
structure Division.Numbered (line : Int) (d : Division) : Prop where
  body : HighAsm.Numbered line (d.body ++ [d.next])
  others : ∀ p ∈ d.others, HighAsm.Numbered p.opening.line (p.body ++ [p.next])

theorem Division.Numbered.opens (numbered : d.Numbered line) (same : t.line = line) :
    Division.Numbered line { next := t, others := ⟨t, d.header, d.body, d.next⟩ :: d.others } where
  body := ⟨same, trivial⟩
  others := forall_mem_cons.mpr ⟨same.symm ▸ numbered.body, numbered.others⟩

theorem Division.Numbered.ends {line' : Int} (numbered : d.Numbered line') (same : t.line = line) :
    Division.Numbered line { next := t, others := d.others } where
  body := ⟨same, trivial⟩
  others := numbered.others

theorem Division.Numbered.goesOn (numbered : d.Numbered (t.lexeme.lineAfter line))
    (same : t.line = line) :
    Division.Numbered line { d with body := t :: d.body } where
  body := ⟨same, numbered.body⟩
  others := numbered.others

/-- The lines that are counted while a module is divided are those of its tokens. -/
theorem divide_plain {last : Token} {part : ProcedureSource.Part} {tokens : List Token}
    (numbered : HighAsm.Numbered line (tokens ++ [last])) :
    ProcedureSource.divide part line (tokens.map (·.lexeme)) = (divide last part tokens).plain ∧
      (divide last part tokens).Numbered line := by
  -- Before a header, and behind the end of the file, nothing belongs to a procedure.
  have before (line : Int) (lexemes : List Lexeme) :
      ProcedureSource.divide .before line lexemes =
        { others := (ProcedureSource.divide .before line lexemes).others } := by
    generalize isBefore : ProcedureSource.Part.before = part
    fun_induction ProcedureSource.divide part line lexemes with
    | case3 line rest ih => exact ih isBefore
    | case4 line l rest ends other ih => exact ih isBefore
    | _ => first | rfl | cases isBefore
  fun_induction divide last part tokens generalizing line with
  | case1 part => exact ⟨by cases part <;> rfl, numbered, forall_mem_nil _⟩
  | case2 t rest opens d | case8 t rest opens d =>
    rename_i ih
    obtain ⟨same, later⟩ := numbered
    rw [opens, Lexeme.lineAfter_of_ne (by simp)] at later
    obtain ⟨divided, inner⟩ := ih later
    refine ⟨?_, inner.opens same⟩
    rw [map_cons, opens, ProcedureSource.divide, divided, ← opens, ← same]
    rfl
  | case3 t rest other ih =>
    obtain ⟨same, later⟩ := numbered
    obtain ⟨divided, inner⟩ := ih later
    refine ⟨?_, inner.ends same⟩
    have skipped : ProcedureSource.divide .before line ((t :: rest).map (·.lexeme)) =
        ProcedureSource.divide .before (t.lexeme.lineAfter line) (rest.map (·.lexeme)) := by
      by_cases newline : t.lexeme = .endOfLine
      · rw [map_cons, newline]
        rfl
      · rw [map_cons, ProcedureSource.divide, Lexeme.lineAfter_of_ne newline]
        · exact other
        · exact newline
    rw [skipped, before, divided]
    rfl
  | case4 t rest closes d =>
    rename_i ih
    obtain ⟨same, later⟩ := numbered
    rw [closes, Lexeme.lineAfter_of_ne (by simp)] at later
    obtain ⟨divided, inner⟩ := ih later
    refine ⟨?_, inner.body, inner.others⟩
    rw [map_cons, closes, ProcedureSource.divide, divided, ← closes]
    rfl
  | case5 t rest newline d =>
    rename_i ih
    obtain ⟨same, later⟩ := numbered
    obtain ⟨divided, inner⟩ := ih later
    refine ⟨?_, inner.goesOn same⟩
    rw [newline, Lexeme.lineAfter, if_pos rfl] at divided
    rw [map_cons, newline, ProcedureSource.divide, divided, ← newline]
    rfl
  | case6 t rest ended ih | case9 t rest ended ih =>
    obtain ⟨same, later⟩ := numbered
    rw [ended, Lexeme.lineAfter_of_ne (by simp)] at later
    obtain ⟨divided, inner⟩ := ih later
    refine ⟨?_, inner.ends same⟩
    rw [map_cons, ended, ProcedureSource.divide, before, divided]
    rfl
  | case7 t rest d notClosing notLine notEnd =>
    rename_i ih
    obtain ⟨same, later⟩ := numbered
    rw [Lexeme.lineAfter_of_ne notLine] at later
    obtain ⟨divided, inner⟩ := ih later
    refine ⟨?_, inner.body, inner.others⟩
    rw [map_cons, ProcedureSource.divide, divided]
    · rfl
    · exact notClosing
    · exact notLine
    · exact notEnd
  | case10 t rest d notOpening notEnd =>
    rename_i ih
    obtain ⟨same, later⟩ := numbered
    obtain ⟨divided, inner⟩ := ih later
    refine ⟨?_, inner.goesOn same⟩
    by_cases newline : t.lexeme = .endOfLine
    · rw [newline, Lexeme.lineAfter, if_pos rfl] at divided
      rw [map_cons, newline, ProcedureSource.divide, divided, ← newline]
      rfl
    · rw [Lexeme.lineAfter_of_ne newline] at divided
      rw [map_cons, ProcedureSource.divide, divided]
      · rfl
      · exact notOpening
      · exact newline
      · exact notEnd

/-- Every procedure has the line of the word that opens it, and its body is numbered from there. -/
theorem all_source {last : Token} {tokens : List Token}
    (numbered : HighAsm.Numbered 1 (tokens ++ [last])) :
    ProcedureSource.all (tokens.map (·.lexeme)) = (all last tokens).map source ∧
      ∀ p ∈ all last tokens, HighAsm.Numbered p.opening.line (p.body ++ [p.next]) := by
  have ⟨divided, inner⟩ : ProcedureSource.divide .before 1 (tokens.map (·.lexeme)) =
      (divide last .before tokens).plain ∧ (divide last .before tokens).Numbered 1 :=
    divide_plain numbered
  exact ⟨congrArg ProcedureSource.Division.others divided, inner.others⟩

end Passage

end HighAsm
