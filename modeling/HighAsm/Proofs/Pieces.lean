import Mathlib.Data.List.TakeWhile
import HighAsm.Proofs.Literals
import HighAsm.Proofs.Numerals
import HighAsm.Proofs.Robustness
import HighAsm.Proofs.ScannedText

/-!
# Literals and the pieces between them

The code of a line ends before the first comment sign outside literals. It is cut at its quotes into
a first piece and literals with the pieces behind them (`Source.Cut`), which can be done if and only
if the number of quotes is even. The literals are stored in order as they stand. What is spelled
instead has spaces around every address, so that a piece and an address are scanned as if each were
alone (`Scanner.scan_append`): the line has the tokens of its pieces, with one number for every
literal.
-/

namespace HighAsm

open List

namespace Source

/-! ## Comments -/

/-- There is no comment sign outside literals before the end of the code. -/
theorem code_length_le {quoted : Bool} {t before comment : Text}
    (split : t = before ++ slash :: slash :: comment)
    (outside : literalAfter quoted before = false) : (code quoted t).length ≤ before.length := by
  subst split
  induction before generalizing quoted with
  | nil =>
    have sign : quoted = false ∧ slash = slash ∧ (slash :: comment).head? = some slash :=
      ⟨outside, rfl, rfl⟩
    refine Nat.le_of_eq (congrArg length ?_)
    rw [nil_append, code, if_neg (by decide), if_pos sign]
  | cons b before ih =>
    rw [literalAfter] at outside
    rw [cons_append, code]
    split_ifs with quotes sign
    · rw [if_pos quotes] at outside
      exact Nat.succ_le_succ (ih outside)
    · exact Nat.zero_le _
    · rw [if_neg quotes] at outside
      exact Nat.succ_le_succ (ih outside)

/-- The code of a line has no comment any more. -/
theorem code_code (quoted : Bool) (t : Text) : code quoted (code quoted t) = code quoted t := by
  rcases code_cases quoted (code quoted t) with whole | ⟨comment, split, outside⟩
  · exact whole
  · -- A comment sign in the code would be one of the line, before the end of the code.
    obtain ⟨rest, line⟩ : ∃ rest, t = code quoted t ++ rest := by
      rcases code_cases quoted t with whole | ⟨comment, line, -⟩
      · exact ⟨[], by rw [whole, append_nil]⟩
      · exact ⟨_, line⟩
    have earlier : t = code quoted (code quoted t) ++ slash :: slash :: (comment ++ rest) := by
      calc t = code quoted t ++ rest := line
        _ = code quoted (code quoted t) ++ slash :: slash :: comment ++ rest := by rw [← split]
        _ = _ := by simp
    have least := code_length_le earlier outside
    have length := congrArg length split
    rw [length_append, length_cons, length_cons] at length
    omega

/-! ## Cutting at quotes -/

/-- A literal of a line, and the piece behind it up to the next one or to the end. -/
structure Quoted where
  literal : Text
  behind : Text

/-- A text is cut at all of its quotes into a first piece and literals with the pieces behind
them. -/
structure Cut (t first : Text) (rest : List Quoted) : Prop where
  whole : t = first ++ rest.flatMap fun q => quote :: q.literal ++ quote :: q.behind
  plain : quote ∉ first
  closed : ∀ q ∈ rest, quote ∉ q.literal ∧ quote ∉ q.behind

namespace Cut

variable {t first : Text} {rest : List Quoted}

theorem cons {outside literal : Text} (plain : quote ∉ outside) (closed : quote ∉ literal)
    (cut : Cut t first rest) :
    Cut (outside ++ quote :: literal ++ quote :: t) outside (⟨literal, first⟩ :: rest) where
  whole := by simp [cut.whole]
  plain := plain
  closed := forall_mem_cons.mpr ⟨⟨closed, cut.plain⟩, cut.closed⟩

theorem tail {q : Quoted} (cut : Cut t first (q :: rest)) :
    ∃ t', t = first ++ quote :: q.literal ++ quote :: t' ∧ Cut t' q.behind rest := by
  obtain ⟨own, others⟩ := forall_mem_cons.mp cut.closed
  exact ⟨_, by simp [cut.whole], rfl, own.2, others⟩

theorem count_eq (cut : Cut t first rest) : t.count quote = 2 * rest.length := by
  induction rest generalizing t first with
  | nil =>
    have alone : t = first := by simpa using cut.whole
    rw [alone, count_eq_zero_of_not_mem cut.plain]
    rfl
  | cons q rest ih =>
    obtain ⟨t', rfl, later⟩ := cut.tail
    have own := (cut.closed q mem_cons_self).1
    simp only [append_assoc, count_append, count_cons_self, cons_append,
      ih later, count_eq_zero_of_not_mem cut.plain, count_eq_zero_of_not_mem own,
      length_cons]
    omega

theorem exists_of_even {t : Text} (even : t.count quote % 2 = 0) :
    ∃ first rest, Cut t first rest := by
  induction size : t.length using Nat.strongRecOn generalizing t with
  | ind n ih =>
    by_cases present : quote ∈ t
    · obtain ⟨outside, t', rfl, plain⟩ := eq_append_cons_of_mem present
      rw [count_append, count_cons_self, count_eq_zero_of_not_mem plain] at even
      have closing : quote ∈ t' := count_pos_iff.mp (by omega)
      obtain ⟨literal, t'', rfl, closed⟩ := eq_append_cons_of_mem closing
      rw [count_append, count_cons_self, count_eq_zero_of_not_mem closed] at even
      simp only [length_append, length_cons] at size
      obtain ⟨first, rest, cut⟩ := ih t''.length (by omega) (by omega) rfl
      refine ⟨outside, ⟨literal, first⟩ :: rest, ?_⟩
      simpa using cut.cons plain closed
    · exact ⟨t, [], by simp, present, forall_mem_nil _⟩

theorem splitAt_eq (cut : Cut t first rest) :
    Text.splitAt quote t = first :: rest.flatMap fun q => [q.literal, q.behind] := by
  have step {piece : Text} (plain : quote ∉ piece) (more : Text) :
      Text.splitAt quote (piece ++ quote :: more) = piece :: Text.splitAt quote more := by
    have known : Text.splitAt quote (quote :: more) = [] :: Text.splitAt quote more := by
      rw [Text.splitAt, if_pos rfl]
    rw [splitAt_append_of_not_mem plain known, append_nil]
  induction rest generalizing t first with
  | nil =>
    have known : Text.splitAt quote [] = [[]] := rfl
    have alone := splitAt_append_of_not_mem cut.plain known
    rw [cut.whole]
    simpa using alone
  | cons q rest ih =>
    obtain ⟨t', rfl, later⟩ := cut.tail
    rw [append_assoc, cons_append, step cut.plain,
      step (cut.closed q mem_cons_self).1, ih later]
    rfl

end Cut

/-! ## Storing literals -/

/-- What is spelled for a line that was cut, when the places of its literals are known: every
literal is replaced by its place, with a space on each side. -/
def respelled (first : Text) (rest : List Quoted) (places : List Int) : Text :=
  match rest, places with
  | q :: rest, place :: places =>
    first ++ 32 :: (Text.ofInt place ++ 32 :: respelled q.behind rest places)
  | _, _ => first

section Storing

open StringAllocator

variable {γ : Type} [StringAllocator γ]

/-- The places that are answered for texts stored in order, and the allocator behind them. -/
def storeAll (g : γ) : List Text → List Int × γ
  | [] => ([], g)
  | text :: rest =>
    let others := storeAll (store g text).2 rest
    ((store g text).1 :: others.1, others.2)

theorem length_storeAll (g : γ) (texts : List Text) :
    (storeAll g texts).1.length = texts.length := by
  induction texts generalizing g with
  | nil => rfl
  | cons text rest ih => exact congrArg Nat.succ (ih _)

theorem intern_log (b : Builder) (text : Text) :
    (b.intern text).2.log.toList = b.log.toList ++ [(.string text, some (b.intern text).1)] := by
  unfold Builder.intern
  split <;> simp [Builder.enter]

/-- Where the allocator is a builder, it was asked for these texts and nothing else. -/
theorem storeAll_log (b : Builder) (texts : List Text) :
    (storeAll b texts).2.log.toList = b.log.toList ++
      zipWith (fun text place => (.string text, some place)) texts (storeAll b texts).1 := by
  induction texts generalizing b with
  | nil => exact (append_nil _).symm
  | cons text rest ih =>
    have first : (store b text).2.log.toList = _ := intern_log b text
    rw [storeAll, ih, first, append_assoc]
    rfl

/-- Literals are stored in order as they stand, and replaced by the answers. -/
theorem spell_cut (line : Int) (first : Text) (rest : List Quoted) (o : Output γ) :
    spell line (first :: rest.flatMap fun q => [q.literal, q.behind]) o =
      .ok (respelled first rest (storeAll o.builder (rest.map (·.literal))).1)
        { o with builder := (storeAll o.builder (rest.map (·.literal))).2 } := by
  induction rest generalizing first o with
  | nil => rfl
  | cons q rest ih =>
    change spell line (first :: q.literal :: q.behind ::
      rest.flatMap fun q => [q.literal, q.behind]) o = _
    have later := ih q.behind { o with builder := (store o.builder q.literal).2 }
    rw [spell_cons_cons line first q.literal (cons_ne_nil _ _), step_bind_eq_of_ok later]
    have space : Text.ofString " " = [32] := rfl
    simp [respelled, storeAll, Text.join, space, pure, EStateM.pure]

end Storing

end Source

/-! ## Scanning piece by piece -/

namespace Scanner

variable {settings : Settings} {line : Int} {rest : List Char} {c : Cursor}

theorem scan_congr {c' : Cursor} (same : next settings line c = next settings line c') :
    scan settings line c = scan settings line c' := by
  cases result : (next settings line c').result with
  | error failure => rw [scan_of_error result, scan_of_error (same ▸ result), same]
  | ok t => rw [scan_of_ok result, scan_of_ok (same ▸ result), same]

/-- The end of the file is where only spaces are left. -/
theorem next_ended_iff {t : Token} (read : (next settings line c).result = .ok t) :
    t.lexeme = .endOfFile ↔ c.skipSpaces.rest = [] := by
  rw [next] at read
  split at read
  · next blank =>
    cases read
    exact iff_of_true rfl blank
  · next ahead =>
    obtain ⟨l, ok, rfl⟩ := map_ok_iff.mp read
    refine iff_of_false ?_ (ahead ▸ cons_ne_nil _ _)
    rintro rfl
    exact (read_scannable ok).elim

/-- What follows behind a space makes no difference to a token in front of it. -/
theorem next_append (settings : Settings) (line : Int) (parted : Parted rest)
    (visible : c.skipSpaces.rest ≠ []) :
    next settings line ⟨c.rest ++ rest, c.column⟩ =
      { next settings line c with
        cursor :=
          ⟨(next settings line c).cursor.rest ++ rest, (next settings line c).cursor.column⟩ } := by
  obtain ⟨first, word, ahead⟩ := exists_cons_of_ne_nil visible
  have ahead' : c.rest.drop (c.rest.takeWhile (· == ' ')).length = first :: word := ahead
  have short : (c.rest.takeWhile (· == ' ')).length < c.rest.length := by
    rw [← Nat.not_le, ← drop_eq_nil_iff, ahead']
    exact cons_ne_nil _ _
  have skipped : Cursor.skipSpaces ⟨c.rest ++ rest, c.column⟩ =
      ⟨first :: (word ++ rest), c.skipSpaces.column⟩ := by
    simp only [Cursor.skipSpaces, Cursor.advance, takeWhile_append, if_neg (Nat.ne_of_lt short),
      drop_append_of_le_length (Nat.le_of_lt short), ahead', cons_append]
  obtain ⟨reads, fits⟩ := read_parted settings line first word parted
  rw [next, next, skipped, ahead]
  dsimp only
  rw [reads]
  generalize read settings line first word = reading at *
  obtain ⟨result, length, overflow⟩ := reading
  have taken : (first :: (word ++ rest)).take length = (first :: word).take length := by
    rw [← cons_append, take_append_of_le_length fits]
  have left : (first :: (word ++ rest)).drop length = (first :: word).drop length ++ rest := by
    rw [← cons_append, drop_append_of_le_length fits]
  simp only [Cursor.advance, ahead, taken, left]

/-- Where only spaces are left, what follows is scanned on its own. -/
theorem next_append_blank (blank : c.skipSpaces.rest = []) :
    next settings line ⟨c.rest ++ rest, c.column⟩ =
      next settings line ⟨rest, c.column + c.rest.length⟩ := by
  have all : c.rest.drop (c.rest.takeWhile (· == ' ')).length = [] := blank
  have whole : (c.rest.takeWhile (· == ' ')).length = c.rest.length :=
    Nat.le_antisymm (takeWhile_sublist _).length_le (drop_eq_nil_iff.mp all)
  have skipped : Cursor.skipSpaces ⟨c.rest ++ rest, c.column⟩ =
      Cursor.skipSpaces ⟨rest, c.column + c.rest.length⟩ := by
    simp only [Cursor.skipSpaces, Cursor.advance, takeWhile_append, if_pos whole,
      length_append, drop_append, Nat.add_assoc, Nat.add_sub_cancel_left,
      drop_eq_nil_of_le (Nat.le_add_right _ _), nil_append]
  rw [next, next, skipped]

/-- A line is scanned as its two parts if the second one begins with a space: it ends where the
first part fails, or goes on with the second. -/
theorem scan_append (settings : Settings) (line : Int) (parted : Parted rest) (c : Cursor) :
    (scan settings line c).failure?.isSome = true ∧
      scan settings line ⟨c.rest ++ rest, c.column⟩ = scan settings line c ∨
    (scan settings line c).failure? = none ∧ ∃ column,
      (scan settings line ⟨c.rest ++ rest, c.column⟩).tokens =
        (scan settings line c).tokens ++ (scan settings line ⟨rest, column⟩).tokens ∧
      (scan settings line ⟨c.rest ++ rest, c.column⟩).failure? =
        (scan settings line ⟨rest, column⟩).failure? := by
  fun_induction scan settings line c with
  | case1 c failure failed =>
    have visible : c.skipSpaces.rest ≠ [] := fun blank => by
      rw [next, blank] at failed
      contradiction
    have same := next_append settings line parted visible
    have result : (next settings line ⟨c.rest ++ rest, c.column⟩).result = .error failure := by
      rw [same]
      exact failed
    rw [scan_of_error result, same]
    exact .inl ⟨rfl, rfl⟩
  | case2 c t read ended =>
    rw [scan_congr (next_append_blank ((next_ended_iff read).mp ended))]
    exact .inr ⟨rfl, _, rfl, rfl⟩
  | case3 c t read inside more =>
    rename_i ih
    have same := next_append settings line parted ((next_ended_iff read).not.mp inside)
    have result : (next settings line ⟨c.rest ++ rest, c.column⟩).result = .ok t := by
      rw [same]
      exact read
    rw [scan_of_ok result, if_neg inside, same]
    rcases ih with ⟨failed, later⟩ | ⟨fine, column, tokens, failure⟩
    · rw [later]
      exact .inl ⟨failed, rfl⟩
    · exact .inr ⟨fine, column, congrArg (t :: ·) tokens, failure⟩

/-- Characters are scanned without failure, and tell some lexemes. -/
structure Tells (settings : Settings) (line : Int) (cs : List Char) (ls : List Lexeme) : Prop where
  lexemes : (scan settings line ⟨cs, 1⟩).tokens.map (·.lexeme) = ls
  fine : (scan settings line ⟨cs, 1⟩).failure? = none

namespace Tells

variable {cs : List Char} {ls more : List Lexeme}

theorem iff_at (settings : Settings) (line : Int) (cs : List Char) (ls : List Lexeme)
    (column : Nat) :
    Tells settings line cs ls ↔
      (scan settings line ⟨cs, column⟩).tokens.map (·.lexeme) = ls ∧
        (scan settings line ⟨cs, column⟩).failure? = none := by
  have same : squeeze (Cursor.rest ⟨cs, 1⟩) = squeeze (Cursor.rest ⟨cs, column⟩) := rfl
  obtain ⟨said, -, failure⟩ := scan_squeezed settings line same
  have lexemes := congrArg (map Prod.fst) said
  rw [map_map, map_map] at lexemes
  have lexemes : (scan settings line ⟨cs, 1⟩).tokens.map (·.lexeme) =
      (scan settings line ⟨cs, column⟩).tokens.map (·.lexeme) := lexemes
  rw [← lexemes, ← failure]
  exact ⟨fun tells => ⟨tells.lexemes, tells.fine⟩, fun both => ⟨both.1, both.2⟩⟩

theorem space_iff : Tells settings line (' ' :: cs) ls ↔ Tells settings line cs ls := by
  rw [iff_at settings line cs ls 2]
  have same := scan_congr (next_space settings line cs 1)
  constructor
  · rintro ⟨lexemes, fine⟩
    rw [same] at lexemes fine
    exact ⟨lexemes, fine⟩
  · rintro ⟨lexemes, fine⟩
    rw [← same] at lexemes fine
    exact ⟨lexemes, fine⟩

theorem spaces_iff (n : Nat) :
    Tells settings line (replicate n ' ' ++ cs) ls ↔ Tells settings line cs ls := by
  induction n with
  | zero => rfl
  | succ n ih => rw [replicate_succ, cons_append, space_iff, ih]

/-- Parts with a space between them tell what each of them tells. -/
theorem append (first : Tells settings line cs ls) (second : Tells settings line rest more)
    (parted : Parted rest) : Tells settings line (cs ++ rest) (ls ++ more) := by
  rcases scan_append settings line parted ⟨cs, 1⟩ with
    ⟨failed, -⟩ | ⟨-, column, tokens, failure⟩
  · rw [first.fine] at failed
    contradiction
  · obtain ⟨lexemes, fine⟩ := (iff_at settings line rest more column).mp second
    refine ⟨?_, failure.trans fine⟩
    rw [tokens, map_append, first.lexemes, lexemes]

theorem nil (settings : Settings) (line : Int) : Tells settings line [] [] := by
  have ended : (next settings line ⟨[], 1⟩).result = .ok ⟨.endOfFile, line, 1, 0⟩ := rfl
  obtain ⟨tokens, fine⟩ := Yields.scan_eq (.stay _) ended rfl
  exact ⟨by rw [tokens, map_nil], fine⟩

theorem concat_spaces_iff (n : Nat) :
    Tells settings line (cs ++ replicate n ' ') ls ↔ Tells settings line cs ls := by
  have parted : Parted (replicate n ' ') := fun c first =>
    eq_of_mem_replicate (mem_of_mem_head? first)
  have blank : Tells settings line (replicate n ' ') [] := by
    simpa using (spaces_iff n).mpr (nil settings line)
  constructor
  · intro whole
    rcases scan_append settings line parted ⟨cs, 1⟩ with ⟨failed, same⟩ | ⟨fine, -⟩
    · have fine := whole.fine
      rw [same] at fine
      rw [fine] at failed
      contradiction
    · have tells : Tells settings line cs _ := ⟨rfl, fine⟩
      have lexemes := (tells.append blank parted).lexemes
      rw [whole.lexemes, append_nil] at lexemes
      exact ⟨lexemes.symm, fine⟩
  · intro tells
    simpa using tells.append blank parted

/-- The digits of a number that fits are that number. -/
theorem number {n : Nat} (scannable : (Lexeme.number n).Scannable settings) (line : Int) :
    Tells settings line (Nat.toDigits 10 n) [.number n] := by
  obtain ⟨again, column, yields, lexemes⟩ :=
    sentence_yields (forall_mem_singleton.mpr scannable) line 1
  have alone : Lexeme.sentence [.number n] = Nat.toDigits 10 n := by
    simp [Lexeme.sentence, intercalate, Lexeme.spelling_number]
  have ended : (next settings line ⟨[], column⟩).result = .ok ⟨.endOfFile, line, column, 0⟩ := rfl
  obtain ⟨tokens, fine⟩ := yields.scan_eq ended rfl
  rw [alone] at tokens fine
  exact ⟨by rw [tokens, lexemes], fine⟩

end Tells

end Scanner

namespace Source

open Text Scanner

variable {line : Int} {settings : Settings}

/-- The characters of a text as they are scanned, with white space at the ends. -/
def letters (t : Text) : List Char := (chars (untab t)).map lowerChar

/-- All white space of a text is spaces and tabs. -/
def Spaced (t : Text) : Prop := ∀ c ∈ chars (untab t), isBlank c = true → c = ' '

instance : DecidablePred Spaced := fun t =>
  decidable_of_iff ((chars (untab t)).all (fun c => !isBlank c || c == ' ') = true)
    (by simp [Spaced, or_iff_not_imp_left])

theorem chars_untab_append (front rest : Text) :
    chars (untab (front ++ 32 :: rest)) = chars (untab front) ++ ' ' :: chars (untab rest) := by
  have kept : untab (front ++ 32 :: rest) = untab front ++ 32 :: untab rest := by simp [untab]
  rw [kept, chars_append_cons (by decide)]
  rfl

theorem letters_append (front rest : Text) :
    letters (front ++ 32 :: rest) = letters front ++ ' ' :: letters rest := by
  rw [letters, chars_untab_append, map_append, map_cons, lowerChar_eq_space.mpr rfl]
  rfl

theorem Spaced.append {front rest : Text} (first : Spaced front) (second : Spaced rest) :
    Spaced (front ++ 32 :: rest) := by
  rw [Spaced, chars_untab_append]
  refine forall_mem_append.mpr ⟨first, forall_mem_cons.mpr ⟨fun _ => rfl, second⟩⟩

/-- What is trimmed away at the ends, if it can only be one thing. -/
theorem trimList_replicate {α : Type} {drop : α → Bool} {x : α} {xs : List α}
    (only : ∀ y ∈ xs, drop y = true → y = x) :
    ∃ before after, xs =
      replicate before x ++ (trimList drop xs ++ replicate after x) := by
  have same {ys : List α} (inside : ∀ y ∈ ys, y ∈ xs) :
      ys.takeWhile drop = replicate (ys.takeWhile drop).length x :=
    eq_replicate_of_mem fun y member =>
      only y (inside y ((takeWhile_sublist _).subset member)) (mem_takeWhile_imp member)
  refine ⟨(xs.takeWhile drop).length, ((xs.dropWhile drop).reverse.takeWhile drop).length, ?_⟩
  have behind : ∀ y ∈ (xs.dropWhile drop).reverse, y ∈ xs := fun y member =>
    (dropWhile_sublist _).subset (mem_reverse.mp member)
  calc xs = xs.takeWhile drop ++ (xs.dropWhile drop).reverse.reverse := by
        rw [reverse_reverse, takeWhile_append_dropWhile]
    _ = xs.takeWhile drop ++ (trimList drop xs ++
          ((xs.dropWhile drop).reverse.takeWhile drop).reverse) := by
        rw [trimList, ← reverse_append, takeWhile_append_dropWhile]
    _ = _ := by rw [← same fun _ => id, same behind, reverse_replicate, length_replicate]

/-- White space at the ends is dropped, which are spaces. -/
theorem letters_eq {t : Text} (spaced : Spaced t) :
    ∃ before after, letters t =
      replicate before ' ' ++ (scanned t ++ replicate after ' ') := by
  obtain ⟨before, after, whole⟩ := trimList_replicate spaced
  refine ⟨before, after, ?_⟩
  rw [letters, whole, map_append, map_append, map_replicate, map_replicate,
    lowerChar_eq_space.mpr rfl, scanned]

theorem tells_letters_iff {t : Text} {ls : List Lexeme} (spaced : Spaced t) :
    Tells settings line (letters t) ls ↔ Tells settings line (scanned t) ls := by
  obtain ⟨before, after, whole⟩ := letters_eq spaced
  rw [whole, Tells.spaces_iff, Tells.concat_spaces_iff]

theorem untab_ofNat (n : Nat) : untab (ofNat n) = ofNat n := by
  have digit : ∀ d < 10, untab (ofChars [d.digitChar]) = ofChars [d.digitChar] := by decide
  rw [ofNat]
  induction n using Nat.strongRecOn with
  | ind n ih =>
    rw [Nat.toDigits_eq_if (by decide)]
    split
    · next small => exact digit n small
    · next large =>
      have rest := ih (n / 10) (by omega)
      rw [untab] at rest
      rw [ofChars_append, untab, map_append, rest]
      exact congrArg _ (digit (n % 10) (by omega))

theorem chars_untab_ofNat (n : Nat) : chars (untab (ofNat n)) = Nat.toDigits 10 n := by
  rw [untab_ofNat]
  refine chars_ofChars fun c member => ?_
  obtain ⟨d, digit⟩ := toDigits_isDigit n c member
  exact toNat_lt_of_isNamePart digit.part

theorem digit_plain {n : Nat} {c : Char} (member : c ∈ Nat.toDigits 10 n) :
    lowerChar c = c ∧ isBlank c = false := by
  obtain ⟨d, digit⟩ := toDigits_isDigit n c member
  exact lowerChar_of_isNamePart (toNat_lt_of_isNamePart digit.part) (.inl digit.part)

theorem letters_ofNat (n : Nat) : letters (ofNat n) = Nat.toDigits 10 n := by
  rw [letters, chars_untab_ofNat]
  exact (map_congr_left fun c member => (digit_plain member).1).trans (map_id _)

theorem spaced_ofNat (n : Nat) : Spaced (ofNat n) := by
  intro c member blank
  rw [chars_untab_ofNat] at member
  rw [(digit_plain member).2] at blank
  contradiction

/-- What is spelled for a line that was cut tells what its pieces tell, with a number for every
literal. -/
theorem respelled_tells {first : Text} {rest : List Quoted}
    {places : List Int} (length : places.length = rest.length)
    (known : ∀ place ∈ places, ∃ n : Nat, place = n ∧ (Lexeme.number n).Scannable settings)
    (spaced : Spaced first ∧ ∀ q ∈ rest, Spaced q.behind)
    {said : Text → List Lexeme}
    (tells : Tells settings line (scanned first) (said first) ∧
      ∀ q ∈ rest, Tells settings line (scanned q.behind) (said q.behind)) :
    Spaced (respelled first rest places) ∧
      Tells settings line (letters (respelled first rest places))
        (said first ++ (zipWith
          (fun q place => Lexeme.number place.toNat :: said q.behind) rest places).flatten) := by
  induction rest generalizing first places with
  | nil =>
    refine ⟨spaced.1, ?_⟩
    rw [zipWith_nil_left, flatten_nil, append_nil]
    exact (tells_letters_iff spaced.1).mpr tells.1
  | cons q rest ih =>
    obtain ⟨place, places, rfl⟩ := exists_cons_of_length_eq_add_one length
    obtain ⟨⟨n, rfl, scannable⟩, others⟩ := forall_mem_cons.mp known
    obtain ⟨spacedBehind, spacedLater⟩ := forall_mem_cons.mp spaced.2
    obtain ⟨tellsBehind, tellsLater⟩ := forall_mem_cons.mp tells.2
    obtain ⟨spacedRest, tellsRest⟩ := ih (Nat.succ.inj length) others
      ⟨spacedBehind, spacedLater⟩ ⟨tellsBehind, tellsLater⟩
    have decimal : Text.ofInt (n : Int) = ofNat n := by
      rw [Text.ofInt, if_neg (Int.not_lt.mpr (Int.natCast_nonneg n)), Int.natAbs_natCast]
    have parted (cs : List Char) : Parted (' ' :: cs) := fun c here => (Option.some.inj here).symm
    rw [respelled, decimal]
    refine ⟨spaced.1.append ((spaced_ofNat n).append spacedRest), ?_⟩
    rw [letters_append, letters_append, letters_ofNat, zipWith_cons_cons, flatten_cons,
      Int.toNat_natCast]
    have here := (tells_letters_iff spaced.1).mpr tells.1
    have number := Tells.number scannable line
    refine here.append (Tells.space_iff.mpr ?_) (parted _)
    exact number.append (Tells.space_iff.mpr tellsRest) (parted _)

/-! ## Whole lines -/

/-- A piece of a line is scanned without failure. -/
def Scans (settings : Settings) (line : Int) (t : Text) : Prop :=
  (scan settings line ⟨scanned t, 1⟩).failure? = none

instance (settings : Settings) (line : Int) : DecidablePred (Scans settings line) := fun t =>
  inferInstanceAs (Decidable ((scan settings line ⟨scanned t, 1⟩).failure? = none))

/-- The lexemes of a piece of a line. -/
def said (settings : Settings) (line : Int) (t : Text) : List Lexeme :=
  (scan settings line ⟨scanned t, 1⟩).tokens.map (·.lexeme)

section Lines

variable {γ : Type} [StringAllocator γ]

/-- What comes of a line that can be cut: its literals are stored in any case, and what is spelled
is scanned. -/
theorem readLine_cut (settings : Settings) (line : Int) {raw first : Text} {rest : List Quoted}
    (cut : Cut (code false raw) first rest) (o : Output γ) {places : List Int} {last : γ}
    (stored : storeAll o.builder (rest.map (·.literal)) = (places, last)) :
    ∃ cautions,
      (∃ failure,
        (scan settings line ⟨scanned (respelled first rest places), 1⟩).failure? = some failure ∧
        readLine settings line raw o = .error failure ⟨last, cautions⟩) ∨
      Scans settings line (respelled first rest places) ∧
        readLine settings line raw o =
          .ok (scan settings line ⟨scanned (respelled first rest places), 1⟩).tokens
            ⟨last, cautions⟩ := by
  have spelled := spell_cut line first rest o
  rw [← cut.splitAt_eq, stored] at spelled
  refine ⟨o.cautions ++
    (scan settings line ⟨scanned (respelled first rest places), 1⟩).cautions, ?_⟩
  cases ended : (scan settings line ⟨scanned (respelled first rest places), 1⟩).failure? with
  | some failure =>
    refine .inl ⟨failure, rfl, (step_bind_eq_of_ok spelled).trans ?_⟩
    rw [ended]
    rfl
  | none =>
    refine .inr ⟨ended, (step_bind_eq_of_ok spelled).trans ?_⟩
    rw [ended]
    rfl

/-- A line with an odd number of quotes in its code has a literal without an end. -/
theorem readLine_unclosed {raw : Text} (o : Output γ) (odd : (code false raw).count quote % 2 = 1) :
    ∃ literal o', readLine settings line raw o =
      .error (.fault line (.unterminatedLiteral literal)) o' := by
  obtain ⟨pieces, last, length, joined⟩ := splitAt_append quote (code false raw)
  have split := joined (rfl : splitAt quote [] = [[]])
  rw [append_nil, append_nil] at split
  obtain ⟨o', failed⟩ := spell_unclosed line pieces (length ▸ odd) o
  have failed := failed last
  rw [← split] at failed
  exact ⟨quote :: last, o', step_bind_error_iff.mpr (.inl failed)⟩

/-- A line is code up to the first comment sign with an even number of quotes on its left, or as a
whole, and only that is read. It has a malformed literal exactly if it has an odd number of quotes.
Otherwise it can be cut at its quotes, and the literals are given to the allocator in order as they
stand, whether or not the line can be read. If the places that it answers are not negative, all
white space outside literals is spaces and tabs, and the pieces outside literals can be scanned,
then the line has the lexemes of its pieces, with the place of every literal as a number. Places are
signed 64-bit numbers, and a number can only be read while words have a largest value. -/
theorem literals_kept_apart (settings : Settings) (line : Int) (raw : Text) (o : Output γ) :
    (code false raw = raw ∨
      ∃ comment, raw = code false raw ++ slash :: slash :: comment ∧
        (code false raw).count quote % 2 = 0) ∧
    (∀ before comment, raw = before ++ slash :: slash :: comment → before.count quote % 2 = 0 →
      (code false raw).length ≤ before.length) ∧
    readLine settings line raw o = readLine settings line (code false raw) o ∧
    -- Malformed literals.
    ((∃ line' fault o', readLine settings line raw o = .error (.fault line' fault) o' ∧
        fault.kind = .malformedLiteral) ↔ (code false raw).count quote % 2 = 1) ∧
    ((∃ first rest, Cut (code false raw) first rest) ↔ (code false raw).count quote % 2 = 0) ∧
    ∀ first rest places last, Cut (code false raw) first rest →
      storeAll o.builder (rest.map (·.literal)) = (places, last) →
      -- What was stored.
      (∀ o', ((∃ tokens, readLine settings line raw o = .ok tokens o') ∨
          ∃ failure, readLine settings line raw o = .error failure o') → o'.builder = last) ∧
      -- What is read.
      (settings.maxWord?.isSome = true →
        (∀ place ∈ places, 0 ≤ place ∧ place < 0x8000000000000000) →
        (Spaced first ∧ ∀ q ∈ rest, Spaced q.behind) →
        (Scans settings line first ∧ ∀ q ∈ rest, Scans settings line q.behind) →
        ∃ tokens o', readLine settings line raw o = .ok tokens o' ∧
          tokens.map (·.lexeme) = said settings line first ++
            (List.zipWith (fun q place => .number place.toNat :: said settings line q.behind)
              rest places).flatten) := by
  have outside {t : Text} : literalAfter false t = false ↔ t.count quote % 2 = 0 := by
    simp [literalAfter_eq]
  refine ⟨?_, ?_, ?_, ?_, ?_, ?_⟩
  · refine (code_cases false raw).imp_right ?_
    rintro ⟨comment, split, even⟩
    exact ⟨comment, split, outside.mp even⟩
  · intro before comment split even
    exact code_length_le split (outside.mpr even)
  · rw [readLine, readLine, code_code]
  · constructor
    · rintro ⟨line', fault, o', failed, kind⟩
      by_contra even
      obtain ⟨first, rest, cut⟩ := Cut.exists_of_even (Nat.mod_two_ne_one.mp even)
      obtain ⟨cautions, result⟩ := readLine_cut settings line cut o rfl
      rcases result with ⟨failure, scanned, failed'⟩ | ⟨-, passed⟩
      · rw [failed] at failed'
        obtain ⟨rfl, -⟩ := EStateM.Result.error.inj failed'
        cases scan_error scanned with
        | fault malformed =>
          rw [malformed] at kind
          contradiction
      · rw [failed] at passed
        contradiction
    · intro odd
      obtain ⟨literal, o', failed⟩ := readLine_unclosed o odd
      exact ⟨line, _, o', failed, rfl⟩
  · constructor
    · rintro ⟨first, rest, cut⟩
      rw [cut.count_eq, Nat.mul_mod_right]
    · exact Cut.exists_of_even
  · intro first rest places last cut stored
    obtain ⟨cautions, result⟩ := readLine_cut settings line cut o stored
    refine ⟨?_, ?_⟩
    · intro o' ended
      rcases result with ⟨failure, -, failed⟩ | ⟨-, passed⟩
      · rw [failed] at ended
        rcases ended with ⟨tokens, ok⟩ | ⟨failure, same⟩
        · contradiction
        · rw [← (EStateM.Result.error.inj same).2]
      · rw [passed] at ended
        rcases ended with ⟨tokens, same⟩ | ⟨failure, error⟩
        · rw [← (EStateM.Result.ok.inj same).2]
        · contradiction
    · intro sized small spaced scans
      have known : ∀ place ∈ places,
          ∃ n : Nat, place = n ∧ (Lexeme.number n).Scannable settings := by
        intro place member
        obtain ⟨natural, bounded⟩ := small place member
        exact ⟨place.toNat, (Int.toNat_of_nonneg natural).symm, by omega, sized⟩
      have pieces : Tells settings line (scanned first) (said settings line first) ∧
          ∀ q ∈ rest, Tells settings line (scanned q.behind) (said settings line q.behind) :=
        ⟨⟨rfl, scans.1⟩, fun q member => ⟨rfl, scans.2 q member⟩⟩
      have length : places.length = rest.length := by
        have same := length_storeAll o.builder (rest.map (·.literal))
        rwa [stored, length_map] at same
      obtain ⟨whole, tells⟩ := respelled_tells length known spaced pieces
      obtain ⟨lexemes, fine⟩ := (tells_letters_iff whole).mp tells
      rcases result with ⟨failure, failed, -⟩ | ⟨-, passed⟩
      · rw [fine] at failed
        contradiction
      · exact ⟨_, _, passed, lexemes⟩

end Lines

/-- A line with two literals, next to a name and to a number, and a quote in its comment. -/
def quotedLine : Text := ofString "X\"A//\t\"0x7\t\"\"// \""

/-- The literals of `quotedLine`, with the pieces behind them. -/
def quotedPieces : List Quoted :=
  [⟨ofString "A//\t", ofString "0x7\t"⟩, ⟨[], []⟩]

/-- The places that are answered for the literals of `quotedLine`. -/
theorem storeAll_quotedPieces :
    (storeAll (⟨Settings.emptyProgram {}, #[]⟩ : Builder) (quotedPieces.map (·.literal))).1 =
      [0x2000, 0x2005] := by
  decide +kernel

theorem literals_kept_apart_quotedLine :
    Cut (code false quotedLine) (ofString "X") quotedPieces ∧
      ∃ tokens o',
        readLine {} 1 quotedLine ⟨(⟨Settings.emptyProgram {}, #[]⟩ : Builder), []⟩ = .ok tokens o' ∧
        tokens.map (·.lexeme) = [.ident "x", .number 0x2000, .number 7, .number 0x2005] := by
  have cut : Cut (code false quotedLine) (ofString "X") quotedPieces :=
    ⟨by decide, by decide, by simp only [quotedPieces, List.forall_mem_cons]; decide⟩
  refine ⟨cut, ?_⟩
  obtain ⟨-, -, -, -, -, pieces⟩ :=
    literals_kept_apart {} 1 quotedLine ⟨(⟨Settings.emptyProgram {}, #[]⟩ : Builder), []⟩
  obtain ⟨-, read⟩ := pieces _ _ _ _ cut (Prod.ext storeAll_quotedPieces rfl)
  have spaced : Spaced (ofString "X") ∧ ∀ q ∈ quotedPieces, Spaced q.behind := by decide +kernel
  have scans : Scans {} 1 (ofString "X") ∧ ∀ q ∈ quotedPieces, Scans {} 1 q.behind := by
    decide +kernel
  obtain ⟨tokens, o', ran, lexemes⟩ := read rfl (by decide) spaced scans
  refine ⟨tokens, o', ran, lexemes.trans ?_⟩
  decide +kernel

end Source

end HighAsm
