import HighAsm.Caution
import HighAsm.Fault

/-!
# Scanning a line

The scanner reads one lexeme after the other from the characters of a line. Only spaces separate
lexemes. A name or a number takes as many name characters as it can get, and a number has to be a
numeral as a whole: `12ab` is a bad number and not a number followed by a name.
-/

namespace HighAsm

def isNameStart (c : Char) : Bool := c == '$' || c == '_' || ('a' ≤ c && c ≤ 'z')

def isNamePart (c : Char) : Bool :=
  c == '_' || c == '.' || ('a' ≤ c && c ≤ 'z') || ('0' ≤ c && c ≤ '9')

namespace Scanner

def digit? (c : Char) : Option Nat :=
  if '0' ≤ c ∧ c ≤ '9' then some (c.toNat - 48)
  else if 'a' ≤ c ∧ c ≤ 'f' then some (c.toNat - 87)
  else none

def valueFrom? (base value : Nat) : List Char → Option Nat
  | [] => some value
  | c :: cs =>
    match digit? c with
    | some d => if d < base then valueFrom? base (value * base + d) cs else none
    | none => none

def value? (base : Nat) (cs : List Char) : Option Nat :=
  if cs = [] then none
  else
    match valueFrom? base 0 cs with
    | some n => if n < 0x8000000000000000 then some n else none
    | none => none

/-- One attempt to read a lexeme: what was read, or why nothing could be read, the number of
characters that were used up, and whether the lexeme is a number larger than any word. -/
structure Reading where
  result : Except Failure Lexeme
  length : Nat
  overflow : Bool := false

def readName (line : Int) (c : Char) (cs : List Char) : Reading :=
  let tail := cs.takeWhile isNamePart
  let word := String.ofList (c :: tail)
  let result : Except Failure Lexeme :=
    if c = '$' ∧ (tail.head?.any isNameStart) = false then
      .error (.fault line (.badIdentifier word))
    else
      match Keyword.ofWord? word with
      | some k => .ok (.keyword k)
      | none => .ok (.ident word)
  ⟨result, tail.length + 1, false⟩

def baseOf (settings : Settings) (cs : List Char) : Nat × Nat :=
  match cs with
  | '0' :: 'x' :: _ => if settings.features .hexLiterals then (16, 2) else (10, 0)
  | _ => (10, 0)

def readNumber (settings : Settings) (line : Int) (cs : List Char) : Reading :=
  let (base, marked) := baseOf settings cs
  let digits := (cs.drop marked).takeWhile isNamePart
  let length := marked + digits.length
  match value? base digits with
  | none => ⟨.error (.fault line (.badNumber (String.ofList (cs.take length)))), length, false⟩
  | some n =>
    match settings.maxWord? with
    | none => ⟨.error (.crash .negativeWordSize), length, false⟩
    | some largest => ⟨.ok (.number n), length, decide (largest < n)⟩

def read (settings : Settings) (line : Int) (c : Char) (cs : List Char) : Reading :=
  if isNameStart c then readName line c cs
  else if isDecimalDigit c then readNumber settings line (c :: cs)
  else
    match Mark.ofChar? c with
    | some m => ⟨.ok (.mark m), 1, false⟩
    | none => ⟨.error (.fault line (.unexpectedChar c)), 1, false⟩

/-- A place in a line: the characters still to be read, and the column of the first of them. -/
structure Cursor where
  rest : List Char
  column : Nat := 1

def Cursor.advance (c : Cursor) (n : Nat) : Cursor := ⟨c.rest.drop n, c.column + n⟩

def Cursor.skipSpaces (c : Cursor) : Cursor := c.advance (c.rest.takeWhile (· == ' ')).length

/-- A step of the scanner: a token or a failure, the remark on a token, and where to go on. -/
structure Step where
  result : Except Failure Token
  caution? : Option Caution
  cursor : Cursor

/-- The next token of a line. At the end of the line it is the end-of-file token, again and
again. -/
def next (settings : Settings) (line : Int) (start : Cursor) : Step :=
  let c := start.skipSpaces
  match c.rest with
  | [] => ⟨.ok ⟨.endOfFile, line, c.column, 0⟩, none, c⟩
  | first :: others =>
    let reading := read settings line first others
    let spelling := Text.ofChars (c.rest.take reading.length)
    ⟨reading.result.map fun l => ⟨l, line, c.column, reading.length⟩,
      if reading.overflow then some (.overflow line spelling) else none,
      c.advance reading.length⟩

theorem value?_nil (base : Nat) : value? base [] = none := rfl

theorem readNumber_length_pos {settings : Settings} {line : Int} {cs : List Char} {l : Lexeme}
    (success : (readNumber settings line cs).result = .ok l) :
    0 < (readNumber settings line cs).length := by
  unfold readNumber at success ⊢
  generalize baseOf settings cs = marks at success ⊢
  obtain ⟨base, marked⟩ := marks
  cases numeral : (cs.drop marked).takeWhile isNamePart with
  | nil => simp [numeral, value?_nil] at success
  | cons d ds =>
    simp only [numeral] at success ⊢
    cases value : value? base (d :: ds) with
    | none => simp [value] at success
    | some n =>
      cases largest : settings.maxWord? <;> simp only [List.length_cons] <;> omega

theorem read_length_pos {settings : Settings} {line : Int} {c : Char} {cs : List Char}
    {l : Lexeme} (success : (read settings line c cs).result = .ok l) :
    0 < (read settings line c cs).length := by
  unfold read at success ⊢
  split
  · simp [readName]
  · rename_i notName
    simp only [notName] at success
    split
    · rename_i digit
      simp only [digit, if_true] at success
      exact readNumber_length_pos success
    · split <;> simp

theorem skipSpaces_length_le (c : Cursor) : c.skipSpaces.rest.length ≤ c.rest.length := by
  simp [Cursor.skipSpaces, Cursor.advance]

/-- A token other than the end of file leaves fewer characters to be read. -/
theorem next_shorter {settings : Settings} {line : Int} {c : Cursor} {t : Token}
    (success : (next settings line c).result = .ok t) (inside : t.lexeme ≠ .endOfFile) :
    (next settings line c).cursor.rest.length < c.rest.length := by
  have bound := skipSpaces_length_le c
  unfold next at success ⊢
  cases rest : c.skipSpaces.rest with
  | nil =>
    simp only [rest, Except.ok.injEq] at success
    exact absurd (success ▸ rfl) inside
  | cons first others =>
    simp only [rest] at success ⊢
    cases result : (read settings line first others).result with
    | error failure => simp [result, Except.map] at success
    | ok l =>
      have positive := read_length_pos result
      simp only [Cursor.advance, rest, List.length_drop, List.length_cons]
      simp only [rest, List.length_cons] at bound
      omega

/-- What scanning a whole line gives: its tokens up to the first failure, the remarks on them, and
that failure. -/
structure Line where
  tokens : List Token
  cautions : List Caution
  failure? : Option Failure

def scan (settings : Settings) (line : Int) (c : Cursor) : Line :=
  match _success : (next settings line c).result with
  | .error failure => ⟨[], (next settings line c).caution?.toList, some failure⟩
  | .ok t =>
    if _inside : t.lexeme = .endOfFile then ⟨[], [], none⟩
    else
      let more := scan settings line (next settings line c).cursor
      ⟨t :: more.tokens, (next settings line c).caution?.toList ++ more.cautions, more.failure?⟩
termination_by c.rest.length
decreasing_by exact next_shorter _success _inside

end Scanner

end HighAsm
