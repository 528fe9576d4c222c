import HighAsm.Proofs.ProcedureNames

/-!
# Tokens that are spelled out are read back

What the scanner reads can be written down again: lexemes that are spelled out one after the other,
with a space between neighbours, are read as the same lexemes. The spelling of a lexeme need not be
that of the source, where a number may be hexadecimal or start with zeros. `Lexeme.Scannable` says
what the scanner can read at all; every such lexeme is read back from its spelling, wherever a space
or the end of the line follows.
-/

namespace HighAsm

open List Lexeme

namespace Lexeme

/-- Lexemes spelled out one after the other, with a space between neighbours. -/
def sentence (lexemes : List Lexeme) : List Char :=
  [' '].intercalate (lexemes.map fun l => l.spelling.toList)

/-- The lexeme of a word: a reserved word, or else a name. -/
def ofWord (word : String) : Lexeme :=
  match Keyword.ofWord? word with
  | some k => keyword k
  | none => ident word

theorem spelling_ident {name : String} (isName : IsName name) : (ident name).spelling = name := by
  obtain ⟨c, rest, spelled, -⟩ := isName
  have filled : name.isEmpty = false := by
    rw [Bool.eq_false_iff, ne_eq, String.isEmpty_iff]
    rintro rfl
    contradiction
  rw [spelling, value, filled, if_neg Bool.false_ne_true]

theorem spelling_number (n : Nat) : (number n).spelling.toList = Nat.toDigits 10 n := by
  have filled : (String.ofList (Nat.toDigits 10 n)).isEmpty = false := by
    rw [Bool.eq_false_iff, ne_eq, String.isEmpty_iff, ← String.toList_inj, String.toList_ofList]
    exact Nat.toDigits_ne_nil
  rw [spelling, value, filled, if_neg Bool.false_ne_true, String.toList_ofList]

theorem spelling_mark (m : Mark) : (mark m).spelling.toList = [m.char] := by
  cases m <;> decide

end Lexeme

namespace Scanner

variable {settings : Settings} {line : Int} {rest : List Char} {cs : List Char} {stop : Cursor}
  {ts : List Token}

/-! ## Reading a spelling back -/

/-- What follows a word or a number does not go on with it. -/
def Bounded (rest : List Char) : Prop := ∀ c ∈ rest.head?, isNamePart c = false

/-- What follows a lexeme is nothing, or starts with a space. -/
def Parted (rest : List Char) : Prop := ∀ c ∈ rest.head?, c = ' '

theorem Parted.bounded (parted : Parted rest) : Bounded rest := by
  intro c first
  rw [parted c first]
  decide

theorem takeWhile_bounded {part : List Char} (parts : ∀ d ∈ part, isNamePart d = true)
    (bounded : Bounded rest) : (part ++ rest).takeWhile isNamePart = part := by
  rw [takeWhile_append_of_pos parts]
  cases rest with
  | nil => simp
  | cons c more =>
    rw [takeWhile_cons_of_neg (by simp [bounded c rfl]), append_nil]

/-- A name or a number ends where a space or nothing follows. -/
theorem takeWhile_parted {part : List Char} (parts : ∀ d ∈ part, isNamePart d = true)
    (parted : Parted rest) : (part ++ rest).takeWhile isNamePart = part :=
  takeWhile_bounded parts parted.bounded

/-- A lexeme is read from the characters of a spelling, whatever is behind them. -/
structure ReadsFrom (settings : Settings) (line : Int) (l : Lexeme) (whole rest : List Char)
    (c : Char) (cs : List Char) : Prop where
  spelled : whole = c :: cs
  visible : c ≠ ' '
  result : (read settings line c (cs ++ rest)).result = .ok l
  length : (read settings line c (cs ++ rest)).length = whole.length

theorem read_word (settings : Settings) (line : Int) {c : Char} (start : isNameStart c = true)
    (parts : ∀ d ∈ cs, isNamePart d = true) (parted : Parted rest)
    (marked : c = '$' → cs.head?.any isNameStart = true) :
    ReadsFrom settings line (ofWord (String.ofList (c :: cs))) (c :: cs) rest c cs := by
  have proper : ¬ (c = '$' ∧ cs.head?.any isNameStart = false) := by
    rintro ⟨dollar, bare⟩
    rw [marked dollar] at bare
    contradiction
  refine ⟨rfl, ?_, ?_, ?_⟩
  · rintro rfl
    contradiction
  · simp only [read, if_pos start, readName, takeWhile_parted parts parted, if_neg proper,
      ofWord]
    cases Keyword.ofWord? (String.ofList (c :: cs)) <;> rfl
  · simp only [read, if_pos start, readName, takeWhile_parted parts parted, length_cons]

theorem ident_readsFrom {name : String} (scannable : (ident name).Scannable settings)
    (parted : Parted rest) (line : Int) :
    ∃ c cs, ReadsFrom settings line (.ident name) (ident name).spelling.toList rest c cs := by
  obtain ⟨isName, unreserved, marked⟩ := scannable
  rw [spelling_ident isName]
  obtain ⟨c, cs, spelled, start, parts⟩ := isName
  have same : ofWord (String.ofList (c :: cs)) = .ident name := by
    rw [← spelled, String.ofList_toList, ofWord, unreserved]
  have reads := read_word settings line start parts parted fun dollar =>
    marked cs (by rw [spelled, dollar])
  rw [same, ← spelled] at reads
  exact ⟨c, cs, reads⟩

/-- A reserved word is spelled like a name, and is not mistaken for one. -/
theorem keyword_spelled (k : Keyword) : Keyword.ofWord? k.word = some k ∧
    ∃ c cs, k.word.toList = c :: cs ∧ isNameStart c = true ∧ c ≠ '$' ∧
      ∀ d ∈ cs, isNamePart d = true := by
  have all : ∀ k ∈ Keyword.all, Keyword.ofWord? k.word = some k ∧
      k.word.toList.head?.any (fun c => isNameStart c && c != '$') = true ∧
      k.word.toList.tail.all isNamePart = true := by
    decide +kernel
  have member : k ∈ Keyword.all := by
    cases k with
    | proc | endproc => decide
    | opens b | closes b => cases b <;> decide
  obtain ⟨known, start, parts⟩ := all k member
  refine ⟨known, ?_⟩
  cases spelled : k.word.toList with
  | nil =>
    rw [spelled] at start
    contradiction
  | cons c cs =>
    rw [spelled] at start parts
    simp only [head?_cons, Option.any_some, Bool.and_eq_true, bne_iff_ne] at start
    exact ⟨c, cs, rfl, start.1, start.2, all_eq_true.mp parts⟩

theorem keyword_readsFrom (settings : Settings) (k : Keyword) (parted : Parted rest) (line : Int) :
    ∃ c cs, ReadsFrom settings line (.keyword k) (keyword k).spelling.toList rest c cs := by
  obtain ⟨known, c, cs, spelled, start, plain, parts⟩ := keyword_spelled k
  have same : ofWord (String.ofList (c :: cs)) = .keyword k := by
    rw [← spelled, String.ofList_toList, ofWord, known]
  have reads := read_word settings line start parts parted fun dollar => absurd dollar plain
  rw [same, ← spelled] at reads
  exact ⟨c, cs, reads⟩

theorem mark_readsFrom (settings : Settings) (m : Mark) (rest : List Char) (line : Int) :
    ∃ c cs, ReadsFrom settings line (.mark m) (mark m).spelling.toList rest c cs := by
  have known : isNameStart m.char = false ∧ isDecimalDigit m.char = false ∧
      Mark.ofChar? m.char = some m ∧ m.char ≠ ' ' := by
    cases m <;> decide
  obtain ⟨noName, noDigit, same, visible⟩ := known
  refine ⟨m.char, [], spelling_mark m, visible, ?_, ?_⟩
  · simp [read, noName, noDigit, same]
  · simp [read, noName, noDigit, same, spelling_mark]

/-! ## Numbers -/

/-- A decimal digit may go on a name, but does not start one, and marks no base. -/
structure IsDigit (c : Char) (d : Nat) : Prop where
  value : digit? c = some d
  part : isNamePart c = true
  noName : isNameStart c = false
  decimal : isDecimalDigit c = true
  visible : c ≠ ' '
  unmarked : c ≠ 'x'

theorem digitChar_isDigit {d : Nat} (small : d < 10) : IsDigit d.digitChar d := by
  have all : ∀ d < 10, digit? d.digitChar = some d ∧ isNamePart d.digitChar = true ∧
      isNameStart d.digitChar = false ∧ isDecimalDigit d.digitChar = true ∧
      d.digitChar ≠ ' ' ∧ d.digitChar ≠ 'x' := by
    decide
  obtain ⟨value, part, noName, decimal, visible, unmarked⟩ := all d small
  exact ⟨value, part, noName, decimal, visible, unmarked⟩

theorem toDigits_isDigit (n : Nat) : ∀ c ∈ Nat.toDigits 10 n, ∃ d, IsDigit c d := by
  induction n using Nat.strongRecOn with
  | ind n ih =>
    rw [Nat.toDigits_eq_if (by decide)]
    split
    · next small => exact forall_mem_singleton.mpr ⟨n, digitChar_isDigit small⟩
    · next large =>
      refine forall_mem_append.mpr ⟨ih (n / 10) (by omega), ?_⟩
      exact forall_mem_singleton.mpr ⟨n % 10, digitChar_isDigit (by omega)⟩

theorem valueFrom?_append (base value : Nat) (first second : List Char) :
    valueFrom? base value (first ++ second) =
      (valueFrom? base value first).bind (valueFrom? base · second) := by
  induction first generalizing value with
  | nil => rfl
  | cons c cs ih =>
    rw [cons_append, valueFrom?, valueFrom?]
    split
    · split
      · exact ih _
      · rfl
    · rfl

theorem valueFrom?_digitChar (value : Nat) {d : Nat} (small : d < 10) :
    valueFrom? 10 value [d.digitChar] = some (value * 10 + d) := by
  simp only [valueFrom?, (digitChar_isDigit small).value, if_pos small]

/-- The digits of a number have its value. -/
theorem valueFrom?_toDigits (n : Nat) : valueFrom? 10 0 (Nat.toDigits 10 n) = some n := by
  induction n using Nat.strongRecOn with
  | ind n ih =>
    rw [Nat.toDigits_eq_if (by decide)]
    split
    · next small => rw [valueFrom?_digitChar 0 small, Nat.zero_mul, Nat.zero_add]
    · next large =>
      rw [valueFrom?_append, ih (n / 10) (by omega), Option.bind_some,
        valueFrom?_digitChar _ (by omega), Nat.mul_comm, Nat.div_add_mod]

theorem value?_toDigits {n : Nat} (small : n < 0x8000000000000000) :
    value? 10 (Nat.toDigits 10 n) = some n := by
  simp only [value?, if_neg Nat.toDigits_ne_nil, valueFrom?_toDigits, if_pos small]

/-- Digits are in base ten, whether or not a mark of another base is known. -/
theorem baseOf_digits {c : Char} (digits : ∀ d ∈ cs, ∃ n, IsDigit d n) (parted : Parted rest) :
    baseOf settings (c :: cs ++ rest) = (10, 0) := by
  unfold baseOf
  split
  · next more whole =>
    obtain ⟨-, whole⟩ := List.cons.inj whole
    cases cs with
    | nil =>
      have whole : rest = 'x' :: more := whole
      exact absurd (parted 'x' (by rw [whole]; rfl)) (by decide)
    | cons d ds =>
      cases whole
      obtain ⟨n, digit⟩ := digits 'x' mem_cons_self
      exact absurd rfl digit.unmarked
  · rfl

theorem number_readsFrom {n : Nat} (scannable : (number n).Scannable settings)
    (parted : Parted rest) (line : Int) :
    ∃ c cs, ReadsFrom settings line (.number n) (number n).spelling.toList rest c cs := by
  obtain ⟨small, sized⟩ := scannable
  obtain ⟨largest, known⟩ := Option.isSome_iff_exists.mp sized
  obtain ⟨c, cs, spelled⟩ : ∃ c cs, Nat.toDigits 10 n = c :: cs :=
    exists_cons_of_ne_nil Nat.toDigits_ne_nil
  have digits := toDigits_isDigit n
  rw [spelled] at digits
  obtain ⟨⟨d, first⟩, others⟩ := forall_mem_cons.mp digits
  have parts : ∀ d ∈ c :: cs, isNamePart d = true :=
    fun d member => let ⟨_, digit⟩ := digits d member; digit.part
  have value : value? 10 (c :: cs) = some n := spelled ▸ value?_toDigits small
  have reading : read settings line c (cs ++ rest) =
      ⟨.ok (.number n), (c :: cs).length, decide (largest < n)⟩ := by
    have taken := takeWhile_parted parts parted
    rw [cons_append] at taken
    simp only [read, first.noName, first.decimal, if_true, Bool.false_eq_true, if_false, readNumber,
      ← cons_append, baseOf_digits others parted, drop_zero, Nat.zero_add]
    simp only [cons_append, taken, value, known]
  rw [spelling_number]
  exact ⟨c, cs, spelled, first.visible, by rw [reading], by rw [reading, spelled]⟩

/-- A lexeme that the scanner can read is read from its spelling. -/
theorem scannable_readsFrom {l : Lexeme} (scannable : l.Scannable settings)
    (parted : Parted rest) (line : Int) :
    ∃ c cs, ReadsFrom settings line l l.spelling.toList rest c cs := by
  cases l with
  | endOfFile | endOfLine => exact scannable.elim
  | ident name => exact ident_readsFrom scannable parted line
  | number n => exact number_readsFrom scannable parted line
  | keyword k => exact keyword_readsFrom settings k parted line
  | mark m => exact mark_readsFrom settings m rest line

/-! ## Rows of tokens -/

/-- Step by step the scanner yields tokens before the end of the file, and comes to a cursor. -/
inductive Yields (settings : Settings) (line : Int) : Cursor → List Token → Cursor → Prop
  | stay (c : Cursor) : Yields settings line c [] c
  | step {c stop : Cursor} {t : Token} {ts : List Token}
      (read : (next settings line c).result = .ok t) (inside : t.lexeme ≠ .endOfFile)
      (later : Yields settings line (next settings line c).cursor ts stop) :
      Yields settings line c (t :: ts) stop

/-- Scanning a line takes such steps as long as they go. -/
theorem scan_yields (settings : Settings) (line : Int) (c : Cursor) :
    ∃ stop, Yields settings line c (scan settings line c).tokens stop := by
  fun_induction scan settings line c with
  | case1 c | case2 c => exact ⟨c, .stay c⟩
  | case3 c t read inside more ih =>
    obtain ⟨stop, later⟩ := ih
    exact ⟨stop, .step read inside later⟩

/-- Steps that lead to the end of the file are the scan of the line. -/
theorem Yields.scan_eq {c : Cursor} (yields : Yields settings line c ts stop) {t : Token}
    (ended : (next settings line stop).result = .ok t) (last : t.lexeme = .endOfFile) :
    (scan settings line c).tokens = ts ∧ (scan settings line c).failure? = none := by
  induction yields with
  | stay c =>
    rw [scan_of_ok ended, if_pos last]
    exact ⟨rfl, rfl⟩
  | step read inside _ ih =>
    obtain ⟨tokens, failure⟩ := ih ended
    rw [scan_of_ok read, if_neg inside]
    exact ⟨congrArg (_ :: ·) tokens, failure⟩

theorem Yields.scannable {c : Cursor} (yields : Yields settings line c ts stop) :
    ∀ t ∈ ts, t.lexeme.Scannable settings := by
  induction yields with
  | stay => exact forall_mem_nil _
  | step read inside _ ih => exact forall_mem_cons.mpr ⟨(next_read read inside).2, ih⟩

theorem next_space (settings : Settings) (line : Int) (cs : List Char) (column : Nat) :
    next settings line ⟨' ' :: cs, column⟩ = next settings line ⟨cs, column + 1⟩ := by
  have skipped : Cursor.skipSpaces ⟨' ' :: cs, column⟩ = Cursor.skipSpaces ⟨cs, column + 1⟩ := by
    have taken : ((' ' :: cs).takeWhile (· == ' ')) = ' ' :: cs.takeWhile (· == ' ') :=
      takeWhile_cons_of_pos (by decide)
    simp only [Cursor.skipSpaces, Cursor.advance, taken, length_cons, drop_succ_cons]
    congr 1
    omega
  rw [next, next, skipped]

/-- A space is passed over with the token behind it. -/
theorem Yields.behind_space {column : Nat} {t : Token}
    (yields : Yields settings line ⟨cs, column + 1⟩ (t :: ts) stop) :
    Yields settings line ⟨' ' :: cs, column⟩ (t :: ts) stop := by
  cases yields with
  | step read inside later =>
    rw [← next_space] at read later
    exact .step read inside later

/-- The next token at a spelling is the lexeme, and the scanner goes on behind it. -/
theorem next_spelled {l : Lexeme} (scannable : l.Scannable settings) (rest : List Char)
    (parted : Parted rest) (line : Int) (column : Nat) :
    (next settings line ⟨l.spelling.toList ++ rest, column⟩).result =
        .ok ⟨l, line, column, l.spelling.toList.length⟩ ∧
      (next settings line ⟨l.spelling.toList ++ rest, column⟩).cursor =
        ⟨rest, column + l.spelling.toList.length⟩ := by
  obtain ⟨c, cs, spelled, visible, result, length⟩ := scannable_readsFrom scannable parted line
  have whole : l.spelling.toList ++ rest = c :: (cs ++ rest) := by rw [spelled]; rfl
  have stays : Cursor.skipSpaces ⟨c :: (cs ++ rest), column⟩ = ⟨c :: (cs ++ rest), column⟩ := by
    simp [Cursor.skipSpaces, Cursor.advance, visible]
  have behind : (c :: (cs ++ rest)).drop l.spelling.toList.length = rest := by
    rw [← whole, drop_left]
  rw [whole]
  simp only [next, stays, result, length, Except.map, Cursor.advance, behind, and_self]

/-- Lexemes that can be read are read back from a sentence, up to its end. -/
theorem sentence_yields {ls : List Lexeme} (scannable : ∀ l ∈ ls, l.Scannable settings)
    (line : Int) (column : Nat) :
    ∃ again stop, Yields settings line ⟨sentence ls, column⟩ again ⟨[], stop⟩ ∧
      again.map (·.lexeme) = ls := by
  induction ls generalizing column with
  | nil => exact ⟨[], column, .stay _, rfl⟩
  | cons l others ih =>
    obtain ⟨own, later⟩ := forall_mem_cons.mp scannable
    have inside : l ≠ .endOfFile := by
      rintro rfl
      exact own
    cases others with
    | nil =>
      have alone : sentence [l] = l.spelling.toList ++ [] := by
        simp [sentence, List.intercalate]
      obtain ⟨read, goes⟩ := next_spelled own [] (by simp [Parted]) line column
      refine ⟨[⟨l, line, column, l.spelling.toList.length⟩],
        column + l.spelling.toList.length, ?_, rfl⟩
      exact .step read inside (goes ▸ .stay _)
    | cons l' more =>
      have split : sentence (l :: l' :: more) =
          l.spelling.toList ++ ' ' :: sentence (l' :: more) := by
        simp [sentence, List.intercalate]
      obtain ⟨read, goes⟩ := next_spelled own (' ' :: sentence (l' :: more))
        (by simp [Parted]) line column
      obtain ⟨again, stop, yields, same⟩ := ih later (column + l.spelling.toList.length + 1)
      obtain ⟨t, ts, rfl, -, -⟩ := map_eq_cons_iff.mp same
      refine ⟨⟨l, line, column, l.spelling.toList.length⟩ :: t :: ts, stop, ?_,
        congrArg (l :: ·) same⟩
      exact .step read inside (goes ▸ yields.behind_space)

/-- Tokens that the scanner yields step by step, spelled out with single spaces between them, are
read back: the scanner yields tokens with the same lexemes, so with the same kinds and values, in
the same order, and then the end of the file. Scanning the sentence as a line gives these tokens
without failure. -/
theorem yields_read_back {start stop : Cursor} {ts : List Token}
    (yields : Yields settings line start ts stop) (line' : Int) :
    ∃ again stop', Yields settings line' ⟨Lexeme.sentence (ts.map (·.lexeme)), 1⟩ again stop' ∧
      again.map (·.lexeme) = ts.map (·.lexeme) ∧
      (next settings line' stop').result = .ok ⟨.endOfFile, line', stop'.column, 0⟩ ∧
      (scan settings line' ⟨Lexeme.sentence (ts.map (·.lexeme)), 1⟩).tokens = again ∧
      (scan settings line' ⟨Lexeme.sentence (ts.map (·.lexeme)), 1⟩).failure? = none := by
  have scannable : ∀ l ∈ ts.map (·.lexeme), l.Scannable settings :=
    List.forall_mem_map.mpr yields.scannable
  obtain ⟨again, column, back, same⟩ := sentence_yields scannable line' 1
  have ended : (next settings line' ⟨[], column⟩).result = .ok ⟨.endOfFile, line', column, 0⟩ := rfl
  exact ⟨again, _, back, same, ended, back.scan_eq ended rfl⟩

/-- A line with hexadecimal and padded numbers, and with words that only start like reserved
ones. -/
def paddedLine : List Char := "  if($a.b+0x1f#007)endiffy>_x?y ifs endif".toList

theorem yields_read_back_paddedLine :
    ∃ stop, Yields {} 3 ⟨paddedLine, 1⟩ (scan {} 3 ⟨paddedLine, 1⟩).tokens stop ∧
      Lexeme.sentence ((scan {} 3 ⟨paddedLine, 1⟩).tokens.map (·.lexeme)) =
        "if ( $a.b + 31 # 7 ) endiffy > _x ? y ifs endif".toList ∧
      ∃ again stop', Yields {} 1
          ⟨Lexeme.sentence ((scan {} 3 ⟨paddedLine, 1⟩).tokens.map (·.lexeme)), 1⟩ again stop' ∧
        again.map (·.lexeme) = (scan {} 3 ⟨paddedLine, 1⟩).tokens.map (·.lexeme) := by
  obtain ⟨stop, yields⟩ := scan_yields {} 3 ⟨paddedLine, 1⟩
  obtain ⟨again, stop', back, same, -⟩ := yields_read_back yields 1
  exact ⟨stop, yields, by decide +kernel, again, stop', back, same⟩

end Scanner

end HighAsm
