import Mathlib.Order.Basic
import Mathlib.Tactic.SplitIfs
import HighAsm.Proofs.Respelling

/-!
# Spaces between lexemes

How many spaces stand between lexemes does not matter, as long as there are some where there were
some before. Characters are compared in the form where every run of spaces is one space (`squeeze`):
lines that agree in this form have the same tokens up to their columns, the same remarks, and the
same failure (`Scanner.scan_squeezed`).
-/

namespace HighAsm

open List

variable {drop : Char → Bool}

/-! ## Runs of spaces -/

/-- The characters with one space for every run of spaces. -/
def squeeze : List Char → List Char
  | [] => []
  | c :: cs => if c = ' ' ∧ cs.head? = some ' ' then squeeze cs else c :: squeeze cs

theorem squeeze_cons_of_ne {c : Char} (visible : c ≠ ' ') (cs : List Char) :
    squeeze (c :: cs) = c :: squeeze cs := by
  rw [squeeze, if_neg fun both => visible both.1]

theorem head?_squeeze (cs : List Char) : (squeeze cs).head? = cs.head? := by
  induction cs with
  | nil => rfl
  | cons c cs ih =>
    rw [squeeze]
    split_ifs with both
    · rw [ih, both.1, both.2, head?_cons]
    · rfl

/-- What agrees up to spaces still does behind the same characters. -/
theorem squeeze_append_congr {cs cs' : List Char} (same : squeeze cs = squeeze cs')
    (front : List Char) : squeeze (front ++ cs) = squeeze (front ++ cs') := by
  induction front with
  | nil => exact same
  | cons c front ih =>
    have head : (front ++ cs).head? = (front ++ cs').head? := by
      rw [← head?_squeeze, ih, head?_squeeze]
    rw [cons_append, cons_append, squeeze, squeeze, head, ih]

theorem squeeze_spaces (n : Nat) (rest : List Char) :
    squeeze (List.replicate (n + 1) ' ' ++ rest) = squeeze (' ' :: rest) := by
  induction n with
  | zero => rfl
  | succ n ih =>
    rw [replicate_succ, cons_append, squeeze, if_pos, ih]
    exact ⟨rfl, rfl⟩

/-- Spaces that are dropped in front can be dropped before or after. -/
theorem dropWhile_squeeze (space : drop ' ' = true) (cs : List Char) :
    (squeeze cs).dropWhile drop = squeeze (cs.dropWhile drop) := by
  induction cs with
  | nil => rfl
  | cons c cs ih =>
    by_cases dropped : drop c = true
    · rw [dropWhile_cons_of_pos dropped, ← ih, squeeze]
      split_ifs
      · rfl
      · rw [dropWhile_cons_of_pos dropped]
    · have visible : c ≠ ' ' := fun same => dropped (same ▸ space)
      rw [dropWhile_cons_of_neg dropped, squeeze_cons_of_ne visible,
        dropWhile_cons_of_neg dropped]

theorem squeeze_concat (cs : List Char) (c : Char) :
    squeeze (cs ++ [c]) =
      if c = ' ' ∧ cs.getLast? = some ' ' then squeeze cs else squeeze cs ++ [c] := by
  induction cs with
  | nil => simp [squeeze]
  | cons d cs ih =>
    rw [cons_append, squeeze, ih]
    cases cs with
    | nil =>
      by_cases first : d = ' ' <;> by_cases second : c = ' ' <;> simp [squeeze, first, second]
    | cons e cs =>
      have whole : squeeze (d :: e :: cs) =
          if d = ' ' ∧ some e = some ' ' then squeeze (e :: cs) else d :: squeeze (e :: cs) := rfl
      rw [whole, getLast?_cons_cons, cons_append, head?_cons]
      split_ifs <;> rfl

theorem squeeze_reverse (cs : List Char) : squeeze cs.reverse = (squeeze cs).reverse := by
  induction cs with
  | nil => rfl
  | cons c cs ih =>
    rw [reverse_cons, squeeze_concat, getLast?_reverse, ih, squeeze]
    split_ifs
    · rfl
    · rw [reverse_cons]

theorem trimList_squeeze (space : drop ' ' = true) (cs : List Char) :
    Text.trimList drop (squeeze cs) = squeeze (Text.trimList drop cs) := by
  rw [Text.trimList, Text.trimList, dropWhile_squeeze space, ← squeeze_reverse,
    dropWhile_squeeze space, ← squeeze_reverse]

theorem map_squeeze {f : Char → Char} (space : ∀ c, f c = ' ' ↔ c = ' ') (cs : List Char) :
    (squeeze cs).map f = squeeze (cs.map f) := by
  induction cs with
  | nil => rfl
  | cons c cs ih =>
    have next : (cs.map f).head? = some ' ' ↔ cs.head? = some ' ' := by
      cases cs with
      | nil => simp
      | cons d cs => simp [space]
    rw [map_cons, squeeze, squeeze]
    simp only [space, next]
    split_ifs
    · exact ih
    · rw [map_cons, ih]

/-! ## Scanning -/

/-- What a token says, and on which line. -/
def Token.said (t : Token) : Lexeme × Int := (t.lexeme, t.line)

namespace Scanner

variable {settings : Settings} {line : Int} {rest word : List Char} {c : Cursor}

/-- A part without spaces in front of a space or of nothing. -/
theorem takeWhile_visible (space : drop ' ' = false) (parted : Parted rest) :
    (word ++ rest).takeWhile drop = word.takeWhile drop := by
  induction word with
  | nil =>
    cases rest with
    | nil => rfl
    | cons c rest =>
      obtain rfl : c = ' ' := parted c rfl
      rw [nil_append, takeWhile_cons_of_neg (by simp [space]), takeWhile_nil]
  | cons c word ih =>
    rw [cons_append, takeWhile_cons, takeWhile_cons, ih]

theorem baseOf_cons_cons (settings : Settings) (c d : Char) (cs : List Char) :
    baseOf settings (c :: d :: cs) =
      if (c = '0' ∧ d = 'x') ∧ settings.features .hexLiterals = true then (16, 2) else (10, 0) := by
  unfold baseOf
  split
  · next same =>
    obtain ⟨rfl, rest⟩ := List.cons.inj same
    cases rest
    simp
  · next other =>
    rw [if_neg]
    rintro ⟨⟨rfl, rfl⟩, -⟩
    exact other cs rfl

/-- The mark of a base is not split by a space. -/
theorem baseOf_parted (settings : Settings) (c : Char) (parted : Parted rest) :
    baseOf settings (c :: (word ++ rest)) = baseOf settings (c :: word) ∧
      (baseOf settings (c :: word)).2 ≤ word.length + 1 := by
  cases word with
  | nil =>
    have alone : baseOf settings [c] = (10, 0) := by simp [baseOf]
    rw [alone]
    refine ⟨?_, Nat.zero_le _⟩
    cases rest with
    | nil => exact alone
    | cons d rest =>
      obtain rfl : d = ' ' := parted d rfl
      simp [baseOf]
  | cons d word =>
    rw [cons_append, baseOf_cons_cons, baseOf_cons_cons, length_cons]
    refine ⟨rfl, ?_⟩
    split_ifs
    · exact Nat.le_add_left 2 _
    · exact Nat.zero_le _

/-- The digits of a number, behind the mark of its base. -/
def numeral (settings : Settings) (cs : List Char) : List Char :=
  (cs.drop (baseOf settings cs).2).takeWhile isNamePart

section

variable (settings : Settings)

theorem readNumber_length (line : Int) (cs : List Char) :
    (readNumber settings line cs).length =
      (baseOf settings cs).2 + (numeral settings cs).length := by
  unfold readNumber numeral
  dsimp only
  split
  · rfl
  · split <;> rfl

theorem numeral_parted (c : Char) (parted : Parted rest) :
    numeral settings (c :: (word ++ rest)) = numeral settings (c :: word) ∧
      (baseOf settings (c :: word)).2 + (numeral settings (c :: word)).length ≤
        (c :: word).length := by
  obtain ⟨base, marked⟩ := baseOf_parted settings c parted
  unfold numeral
  rw [base, ← cons_append, drop_append_of_le_length marked,
    takeWhile_visible (by decide) parted]
  refine ⟨rfl, ?_⟩
  have taken := (((c :: word).drop (baseOf settings (c :: word)).2).takeWhile_sublist
    isNamePart).length_le
  rw [length_drop] at taken
  rw [length_cons] at taken ⊢
  omega

theorem readNumber_parted (line : Int) (c : Char) (parted : Parted rest) :
    readNumber settings line (c :: (word ++ rest)) = readNumber settings line (c :: word) ∧
      (readNumber settings line (c :: word)).length ≤ word.length + 1 := by
  have base : baseOf settings (c :: (word ++ rest)) = baseOf settings (c :: word) :=
    (baseOf_parted settings c parted).1
  obtain ⟨same, fits⟩ := numeral_parted settings c parted
  refine ⟨?_, (readNumber_length settings line _).trans_le fits⟩
  have spelled : (c :: (word ++ rest)).take
      ((baseOf settings (c :: word)).2 + (numeral settings (c :: word)).length) =
        (c :: word).take
          ((baseOf settings (c :: word)).2 + (numeral settings (c :: word)).length) := by
    rw [← cons_append, take_append_of_le_length fits]
  unfold numeral at same spelled
  rw [base] at same
  unfold readNumber
  dsimp only
  rw [base, same, spelled]

/-- What is read of a word does not depend on what follows behind a space, and is not longer than
the word. -/
theorem read_parted (line : Int) (c : Char) (word : List Char) (parted : Parted rest) :
    read settings line c (word ++ rest) = read settings line c word ∧
      (read settings line c word).length ≤ word.length + 1 := by
  have part : isNamePart ' ' = false := by decide
  unfold read
  split_ifs
  · simp only [readName, takeWhile_visible part parted, true_and]
    exact Nat.succ_le_succ (takeWhile_sublist _).length_le
  · exact readNumber_parted settings line c parted
  · cases Mark.ofChar? c <;> simp

end

theorem drop_takeWhile (part : Char → Bool) (cs : List Char) :
    cs.drop (cs.takeWhile part).length = cs.dropWhile part := by
  have whole := congrArg (List.drop (cs.takeWhile part).length)
    (takeWhile_append_dropWhile (p := part) (l := cs))
  rw [drop_left] at whole
  exact whole.symm

theorem skipSpaces_rest (c : Cursor) : c.skipSpaces.rest = c.rest.dropWhile (· == ' ') :=
  drop_takeWhile _ c.rest

/-- Characters that agree up to spaces start with the same word. -/
theorem same_word {cs cs' : List Char} (same : squeeze cs = squeeze cs') :
    ∃ word rest rest', cs = word ++ rest ∧ cs' = word ++ rest' ∧ Parted rest ∧ Parted rest' ∧
      squeeze rest = squeeze rest' := by
  have head : cs.head? = cs'.head? := by rw [← head?_squeeze, same, head?_squeeze]
  induction cs generalizing cs' with
  | nil =>
    obtain rfl : cs' = [] := head?_eq_none_iff.mp head.symm
    exact ⟨[], [], [], rfl, rfl, by simp [Parted], by simp [Parted], rfl⟩
  | cons c cs ih =>
    by_cases space : c = ' '
    · have parted : Parted (c :: cs) := fun d first => Option.some.inj first ▸ space
      exact ⟨[], c :: cs, cs', rfl, rfl, parted, fun d first => parted d (head ▸ first), same⟩
    · obtain ⟨others, rfl⟩ := head?_eq_some_iff.mp head.symm
      rw [squeeze_cons_of_ne space, squeeze_cons_of_ne space] at same
      have behind := (List.cons.inj same).2
      obtain ⟨word, rest, rest', rfl, rfl, parts⟩ :=
        ih behind (by rw [← head?_squeeze, behind, head?_squeeze])
      exact ⟨c :: word, rest, rest', rfl, rfl, parts⟩

variable {c' : Cursor} (settings : Settings) (line : Int) (same : squeeze c.rest = squeeze c'.rest)
include same

/-- The next token, up to its column, and the remark on it do not depend on the number of spaces,
and neither does what is left up to spaces. -/
theorem next_squeezed :
    (next settings line c).result.map Token.said = (next settings line c').result.map Token.said ∧
      (next settings line c).caution? = (next settings line c').caution? ∧
      squeeze (next settings line c).cursor.rest = squeeze (next settings line c').cursor.rest := by
  have skipped : squeeze c.skipSpaces.rest = squeeze c'.skipSpaces.rest := by
    rw [skipSpaces_rest, skipSpaces_rest, ← dropWhile_squeeze rfl, same, dropWhile_squeeze rfl]
  have head : c.skipSpaces.rest.head? = c'.skipSpaces.rest.head? := by
    rw [← head?_squeeze, skipped, head?_squeeze]
  have visible := head?_dropWhile_not (· == ' ') c.rest
  rw [← skipSpaces_rest] at visible
  unfold next
  generalize c.skipSpaces = d at *
  generalize c'.skipSpaces = d' at *
  obtain ⟨cs, column⟩ := d
  obtain ⟨cs', column'⟩ := d'
  cases cs with
  | nil =>
    obtain rfl : cs' = [] := head?_eq_none_iff.mp head.symm
    exact ⟨rfl, rfl, rfl⟩
  | cons first others =>
    obtain ⟨others', rfl⟩ := head?_eq_some_iff.mp head.symm
    have dark : first ≠ ' ' := by simpa using visible
    rw [squeeze_cons_of_ne dark, squeeze_cons_of_ne dark] at skipped
    obtain ⟨word, rest, rest', rfl, rfl, parted, parted', behind⟩ :=
      same_word (List.cons.inj skipped).2
    obtain ⟨reads, fits⟩ := read_parted settings line first word parted
    obtain ⟨reads', -⟩ := read_parted settings line first word parted'
    dsimp only
    rw [reads, reads']
    generalize read settings line first word = reading at *
    obtain ⟨result, length, overflow⟩ := reading
    have taken (rest : List Char) :
        (first :: (word ++ rest)).take length = (first :: word).take length := by
      rw [← cons_append, take_append_of_le_length fits]
    have left (rest : List Char) :
        (first :: (word ++ rest)).drop length = (first :: word).drop length ++ rest := by
      rw [← cons_append, drop_append_of_le_length fits]
    refine ⟨?_, ?_, ?_⟩
    · cases result <;> rfl
    · rw [taken, taken]
    · rw [Cursor.advance, Cursor.advance, left, left]
      exact squeeze_append_congr behind _

/-- Lines that agree up to spaces have the same tokens up to their columns, the same remarks and the
same failure. -/
theorem scan_squeezed :
    (scan settings line c).tokens.map Token.said = (scan settings line c').tokens.map Token.said ∧
      (scan settings line c).cautions = (scan settings line c').cautions ∧
      (scan settings line c).failure? = (scan settings line c').failure? := by
  fun_induction scan settings line c generalizing c' with
  | case1 c failure failed =>
    obtain ⟨result, caution, -⟩ := next_squeezed settings line same
    rw [failed] at result
    cases read' : (next settings line c').result with
    | error failure' =>
      rw [read'] at result
      obtain rfl : failure = failure' := Except.error.inj result
      rw [scan_of_error read', caution]
      exact ⟨rfl, rfl, rfl⟩
    | ok t' =>
      rw [read'] at result
      contradiction
  | case2 c t read ended =>
    obtain ⟨result, -, -⟩ := next_squeezed settings line same
    rw [read] at result
    obtain ⟨t', read', said⟩ := map_ok_iff.mp result.symm
    have ended' : t'.lexeme = .endOfFile := (congrArg Prod.fst said).trans ended
    rw [scan_of_ok read', if_pos ended']
    exact ⟨rfl, rfl, rfl⟩
  | case3 c t read inside more =>
    rename_i ih
    obtain ⟨result, caution, rest⟩ := next_squeezed settings line same
    rw [read] at result
    obtain ⟨t', read', said⟩ := map_ok_iff.mp result.symm
    have inside' : t'.lexeme ≠ .endOfFile := fun ends =>
      inside ((congrArg Prod.fst said).symm.trans ends)
    obtain ⟨tokens, cautions, failure⟩ := ih rest
    rw [scan_of_ok read', if_neg inside']
    refine ⟨?_, ?_, failure⟩
    · exact congrArg₂ List.cons said.symm tokens
    · exact congrArg₂ (·.toList ++ ·) caution cautions

end Scanner

end HighAsm
