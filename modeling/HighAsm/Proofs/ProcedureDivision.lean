import HighAsm.ProcedureSource

/-!
# The procedures of a module

The lexemes of a module end with a mark of their own. Dividing them into procedures loses nothing:
what stands before the first `proc`, the headers and bodies in order, and the mark are the module
(`ProcedureSource.all_partition`). The induction follows `divide` through the parts of a module, and
`Division.Cuts` says what a division takes from the lexemes in each of them.
-/

namespace HighAsm

open List

/-- How many lines end among lexemes. -/
def lineEnds (lexemes : List Lexeme) : Int := lexemes.count .endOfLine

theorem lineEnds_append (first second : List Lexeme) :
    lineEnds (first ++ second) = lineEnds first + lineEnds second := by
  simp [lineEnds]

theorem lineEnds_cons {l : Lexeme} (inside : l ≠ .endOfLine) (rest : List Lexeme) :
    lineEnds (l :: rest) = lineEnds rest := by
  simp [lineEnds, inside]

namespace ProcedureSource

/-- The lexemes of a procedure. -/
def text (p : ProcedureSource) : List Lexeme := p.header ++ p.body

/-- What follows the word `proc` in a header ends with the first parenthesis that closes. Without
one it is everything up to the end of the line or of the module. -/
def Closes (inner behind : List Lexeme) : Prop :=
  ∃ front, (∀ l ∈ front, l ≠ .mark .rparen ∧ l ≠ .endOfLine ∧ l ≠ .endOfFile) ∧
    (inner = front ++ [.mark .rparen] ∨
      inner = front ∧ (behind.head? = some .endOfLine ∨ behind.head? = some .endOfFile))

/-- Procedures one after the other from a line on, up to the end of the module. -/
inductive Row : Int → List Lexeme → List ProcedureSource → Prop
  | nil (line : Int) : Row line [] []
  | cons {line : Int} {inner body rest : List Lexeme} {others : List ProcedureSource}
      (closes : Closes inner (body ++ rest ++ [.endOfFile])) (plain : .keyword .proc ∉ body)
      (later : Row (line + lineEnds (inner ++ body)) rest others) :
      Row line (.keyword .proc :: (inner ++ body ++ rest))
        (⟨.keyword .proc :: inner, body, line⟩ :: others)

/-- What a division from a part on takes from lexemes, the first of which is on a line. -/
def Division.Cuts (d : Division) : Part → Int → List Lexeme → Prop
  | .before, line, lexemes =>
    Row (line + lineEnds (lexemes.takeWhile (· ≠ .keyword .proc)))
      (lexemes.dropWhile (· ≠ .keyword .proc)) d.others
  | .header, line, lexemes => ∃ rest, lexemes = d.header ++ d.body ++ rest ∧
    Closes d.header (d.body ++ rest ++ [.endOfFile]) ∧ .keyword .proc ∉ d.body ∧
    Row (line + lineEnds (d.header ++ d.body)) rest d.others
  | .body, line, lexemes => d.header = [] ∧ ∃ rest, lexemes = d.body ++ rest ∧
    .keyword .proc ∉ d.body ∧ Row (line + lineEnds d.body) rest d.others

section Steps

variable {d : Division} {line : Int} {l : Lexeme} {rest : List Lexeme}

theorem Division.Cuts.opens (cuts : d.Cuts .header line rest) :
    Row line (.keyword .proc :: rest) (⟨.keyword .proc :: d.header, d.body, line⟩ :: d.others) := by
  obtain ⟨rest, rfl, closes, plain, row⟩ := cuts
  exact .cons closes plain row

theorem Division.Cuts.skips (cuts : d.Cuts .before (line + lineEnds [l]) rest)
    (other : l ≠ .keyword .proc) : d.Cuts .before line (l :: rest) := by
  simp only [Cuts, Int.add_assoc, ← lineEnds_append, singleton_append] at cuts
  simpa [Cuts, other] using cuts

theorem Division.Cuts.inBody (cuts : d.Cuts .body (line + lineEnds [l]) rest)
    (other : l ≠ .keyword .proc) :
    Division.Cuts { d with body := l :: d.body } .body line (l :: rest) := by
  obtain ⟨none_, rest, rfl, plain, row⟩ := cuts
  rw [Int.add_assoc, ← lineEnds_append] at row
  exact ⟨none_, rest, rfl, by simp [plain, other.symm], row⟩

end Steps

theorem divide_cuts {part : Part} {line : Int} {lexemes : List Lexeme}
    (once : .endOfFile ∉ lexemes) : (divide part line lexemes).Cuts part line lexemes := by
  fun_induction divide part line lexemes with
  | case1 part line =>
    cases part with
    | before => exact .nil _
    | header => exact ⟨[], rfl, ⟨[], forall_mem_nil _, .inr ⟨rfl, .inr rfl⟩⟩, not_mem_nil, .nil _⟩
    | body => exact ⟨rfl, [], rfl, not_mem_nil, .nil _⟩
  | case2 line rest d ih =>
    simpa [Division.Cuts, lineEnds] using (ih (not_mem_of_not_mem_cons once)).opens
  | case3 line rest ih => exact (ih (not_mem_of_not_mem_cons once)).skips (by simp)
  | case4 line l rest notProc notLine ih =>
    refine Division.Cuts.skips ?_ notProc
    rw [lineEnds_cons notLine]
    simpa [lineEnds] using ih (not_mem_of_not_mem_cons once)
  | case5 line rest d ih =>
    obtain ⟨-, rest, split, plain, row⟩ := ih (not_mem_of_not_mem_cons once)
    exact ⟨rest, congrArg (_ :: ·) split, ⟨[], forall_mem_nil _, .inl rfl⟩, plain, row⟩
  | case6 line rest d ih =>
    have body : Division.Cuts { d with body := .endOfLine :: d.body } .body line _ :=
      (ih (not_mem_of_not_mem_cons once)).inBody (by simp)
    obtain ⟨none_, rest, split, plain, row⟩ := body
    refine ⟨rest, by rw [none_, split]; rfl, ?_, plain, by rw [none_]; exact row⟩
    exact ⟨[], forall_mem_nil _, .inr ⟨none_, .inl rfl⟩⟩
  | case7 line rest ih => simp at once
  | case8 line l rest d notClosing notLine notEnd ih =>
    obtain ⟨rest, split, ⟨front, inside, ends⟩, plain, row⟩ := ih (not_mem_of_not_mem_cons once)
    refine ⟨rest, congrArg (l :: ·) split, ⟨l :: front, ?_, ?_⟩, plain, ?_⟩
    · exact forall_mem_cons.mpr ⟨⟨notClosing, notLine, notEnd⟩, inside⟩
    · exact ends.imp (congrArg (l :: ·)) (And.imp_left (congrArg (l :: ·)))
    · rw [cons_append, lineEnds_cons notLine]
      exact row
  | case9 line rest d ih =>
    refine ⟨rfl, _, rfl, not_mem_nil, ?_⟩
    simpa [lineEnds] using (ih (not_mem_of_not_mem_cons once)).opens
  | case10 line rest d ih => exact (ih (not_mem_of_not_mem_cons once)).inBody (by simp)
  | case11 line rest ih => simp at once
  | case12 line l rest d notProc notLine notEnd ih =>
    refine Division.Cuts.inBody ?_ notProc
    rw [lineEnds_cons notLine]
    simpa [lineEnds] using ih (not_mem_of_not_mem_cons once)

/-- The mark at the end of a module belongs to no procedure. -/
theorem divide_endOfFile (part : Part) (line : Int) (lexemes : List Lexeme) :
    divide part line (lexemes ++ [.endOfFile]) = divide part line lexemes := by
  fun_induction divide part line lexemes with
  | case1 part line => cases part <;> rfl
  | _ => simp_all +zetaDelta [divide]

/-- The procedures of a module are a row that begins with the first `proc`. -/
theorem all_row {front : List Lexeme} (once : .endOfFile ∉ front) :
    Row (1 + lineEnds (front.takeWhile (· ≠ .keyword .proc)))
      (front.dropWhile (· ≠ .keyword .proc)) (all (front ++ [.endOfFile])) := by
  have cuts : (divide .before 1 front).Cuts .before 1 front := divide_cuts once
  rw [all, divide_endOfFile]
  exact cuts

namespace Row

variable {line : Int} {lexemes : List Lexeme} {procedures before after : List ProcedureSource}
  {p : ProcedureSource}

theorem flatten (row : Row line lexemes procedures) : lexemes = procedures.flatMap text := by
  induction row with
  | nil => rfl
  | cons _ _ _ ih =>
    rw [flatMap_cons, ← ih]
    rfl

theorem head?_ne (row : Row line lexemes procedures) : lexemes.head? ≠ some (.mark .lparen) := by
  cases row <;> simp

/-- What a row says of a procedure between others. -/
theorem split (row : Row line lexemes (before ++ p :: after)) :
    (∃ inner, p.header = .keyword .proc :: inner ∧
      Closes inner (p.body ++ after.flatMap text ++ [.endOfFile])) ∧
    .keyword .proc ∉ p.body ∧ (after.flatMap text).head? ≠ some (.mark .lparen) ∧
    p.line = line + lineEnds (before.flatMap text) := by
  induction before generalizing line lexemes with
  | nil =>
    cases row with
    | cons closes plain later =>
      rw [← later.flatten]
      exact ⟨⟨_, rfl, closes⟩, plain, later.head?_ne, (Int.add_zero _).symm⟩
  | cons q before ih =>
    cases row with
    | cons _ _ later =>
      rw [flatMap_cons, lineEnds_append, ← Int.add_assoc]
      exact ih later

end Row

theorem takeWhile_append_all {front : List Lexeme} (once : .endOfFile ∉ front) :
    front.takeWhile (· ≠ .keyword .proc) ++ (all (front ++ [.endOfFile])).flatMap text = front := by
  rw [← (all_row once).flatten]
  exact takeWhile_append_dropWhile

/-- A procedure stands in its module, and what follows it does not make a call of its last name. -/
theorem all_stands {front : List Lexeme} (once : .endOfFile ∉ front) {p : ProcedureSource}
    (member : p ∈ all (front ++ [.endOfFile])) :
    ∃ before after, front = before ++ (p.header ++ p.body) ++ after ∧
      after.head? ≠ some (.mark .lparen) := by
  obtain ⟨before, after, split⟩ := append_of_mem member
  have whole := takeWhile_append_all once
  have row := all_row once
  rw [split] at whole row
  refine ⟨front.takeWhile (· ≠ .keyword .proc) ++ before.flatMap text, after.flatMap text, ?_,
    row.split.2.2.1⟩
  rw [flatMap_append, flatMap_cons, text] at whole
  simpa only [append_assoc] using whole.symm

/-- Dividing a module loses nothing. A header begins with `proc` and ends with the first parenthesis
that closes, or before the end of the line or of the module if that comes earlier. No body holds a
`proc`, and the line of a procedure counts the ends of lines before it. -/
theorem all_partition {front : List Lexeme} (once : .endOfFile ∉ front) :
    front ++ [.endOfFile] = front.takeWhile (· ≠ .keyword .proc) ++
        (all (front ++ [.endOfFile])).flatMap (fun p => p.header ++ p.body) ++ [.endOfFile] ∧
      ∀ before p after, all (front ++ [.endOfFile]) = before ++ p :: after →
        (∃ inner, p.header = .keyword .proc :: inner ∧
          Closes inner (p.body ++ after.flatMap text ++ [.endOfFile])) ∧
        .keyword .proc ∉ p.body ∧ .endOfFile ∉ p.body ∧
        p.line = 1 + lineEnds (front.takeWhile (· ≠ .keyword .proc) ++ before.flatMap text) := by
  refine ⟨congrArg (· ++ [Lexeme.endOfFile]) (takeWhile_append_all once).symm, ?_⟩
  intro before p after split
  have row := all_row once
  rw [split] at row
  obtain ⟨header, plain, -, line⟩ := row.split
  obtain ⟨start, rest, whole, -⟩ := all_stands once (split ▸ mem_append_right _ mem_cons_self)
  refine ⟨header, plain, fun member => once ?_, ?_⟩
  · simp [whole, member]
  · rw [line, lineEnds_append, Int.add_assoc]

/-- Two headers on one line, the first of which is not closed, behind an empty line. -/
def unclosedHeader : List Lexeme :=
  [.endOfLine, .mark .colon, .keyword .proc, .ident "a", .endOfLine, .keyword .proc, .keyword .proc,
    .ident "b", .mark .lparen, .mark .rparen, .number 1]

theorem all_partition_unclosedHeader :
    .endOfFile ∉ unclosedHeader ∧
      all (unclosedHeader ++ [.endOfFile]) =
        [⟨[.keyword .proc, .ident "a"], [.endOfLine], 2⟩,
          ⟨[.keyword .proc, .keyword .proc, .ident "b", .mark .lparen, .mark .rparen],
            [.number 1], 3⟩] ∧
      unclosedHeader ++ [.endOfFile] = unclosedHeader.takeWhile (· ≠ .keyword .proc) ++
        (all (unclosedHeader ++ [.endOfFile])).flatMap (fun p => p.header ++ p.body) ++
          [.endOfFile] :=
  ⟨by decide, by decide, (all_partition (by decide)).1⟩

end ProcedureSource

end HighAsm
