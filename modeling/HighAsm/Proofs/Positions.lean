import Mathlib.Data.List.TakeWhile
import Mathlib.Data.Nat.Digits.Defs
import HighAsm.Proofs.Spacing

/-!
# Where tokens stand

The tokens of a line are slices of it: each one is the spelling of its lexeme, they stand in order,
and only spaces are left out between them and behind the last one. A word or a number takes all the
name characters it can get, and a number has the value of its digits, however many there are. This
is kept by every step of the scanner (`Scanner.Tiling.step`) and so holds along every row of tokens.
-/

namespace HighAsm

open List

/-! ## Numerals -/

/-- Digits of a base, the highest first, and the number that they denote. -/
def Denotes (base : Nat) (cs : List Char) (n : Nat) : Prop :=
  ∃ digits : List Nat, cs = digits.map Nat.digitChar ∧ (∀ d ∈ digits, d < base) ∧
    n = Nat.ofDigits base digits.reverse

/-- How a number may be written: by decimal digits, or by hexadecimal ones behind their mark where
the settings know it. -/
def Numeral (settings : Settings) (cs : List Char) (n : Nat) : Prop :=
  (cs ≠ [] ∧ Denotes 10 cs n) ∨
    settings.features .hexLiterals = true ∧
      ∃ digits, cs = '0' :: 'x' :: digits ∧ digits ≠ [] ∧ Denotes 16 digits n

namespace Lexeme

/-- How a lexeme stands in a line: a name and a reserved word by their letters, a mark by its
character, and a number by digits. -/
def StandsAs (settings : Settings) : Lexeme → List Char → Prop
  | ident name, cs => cs = name.toList
  | keyword k, cs => cs = k.word.toList
  | mark m, cs => cs = [m.char]
  | number n, cs => Numeral settings cs n
  | endOfFile, _ | endOfLine, _ => False

/-- Lexemes that are made of name characters: all but marks. -/
def IsWord : Lexeme → Prop
  | ident _ | keyword _ | number _ => True
  | mark _ | endOfFile | endOfLine => False

end Lexeme

namespace Scanner

variable {settings : Settings} {line : Int} {cs source : List Char} {n base : Nat} {c : Char}
  {l : Lexeme}

theorem digit?_eq_some_iff {d : Nat} :
    digit? c = some d ↔ d < 16 ∧ c = d.digitChar := by
  have known : ∀ n < 128, ∀ d < 16,
      digit? (Char.ofNat n) = some d ↔ Char.ofNat n = d.digitChar := by
    decide +kernel
  have small : digit? c = some d → d < 16 ∧ c.toNat < 128 := by
    intro read
    unfold digit? at read
    split_ifs at read with decimal letter
    · have high : c.toNat ≤ 57 := decimal.2
      have same := Option.some.inj read
      omega
    · have high : c.toNat ≤ 102 := letter.2
      have same := Option.some.inj read
      omega
  have ascii : ∀ d < 16, d.digitChar.toNat < 128 := by decide
  constructor
  · intro read
    obtain ⟨low, high⟩ := small read
    have same := known c.toNat high d low
    rw [Char.ofNat_toNat] at same
    exact ⟨low, same.mp read⟩
  · rintro ⟨low, rfl⟩
    have same := known d.digitChar.toNat (ascii d low) d low
    rw [Char.ofNat_toNat] at same
    exact same.mpr rfl

section

variable (small : base ≤ 16)
include small

/-- The value of a numeral, by the digits one after the other. -/
theorem valueFrom?_eq_some_iff {value : Nat} :
    valueFrom? base value cs = some n ↔
      ∃ digits : List Nat, cs = digits.map Nat.digitChar ∧ (∀ d ∈ digits, d < base) ∧
        n = digits.foldl (fun v d => d + base * v) value := by
  induction cs generalizing value with
  | nil =>
    constructor
    · intro read
      exact ⟨[], rfl, by simp, (Option.some.inj read).symm⟩
    · rintro ⟨digits, empty, -, rfl⟩
      rw [map_eq_nil_iff.mp empty.symm]
      rfl
  | cons c cs ih =>
    rw [valueFrom?]
    constructor
    · intro read
      split at read
      · next d digit =>
        split_ifs at read with inBase
        obtain ⟨digits, rfl, all, rfl⟩ := ih.mp read
        refine ⟨d :: digits, ?_, forall_mem_cons.mpr ⟨inBase, all⟩, ?_⟩
        · rw [map_cons, (digit?_eq_some_iff.mp digit).2]
        · rw [foldl_cons, Nat.mul_comm base value, Nat.add_comm d]
      · contradiction
    · rintro ⟨digits, spelled, all, rfl⟩
      obtain ⟨d, digits, rfl, rfl, rfl⟩ := map_eq_cons_iff.mp spelled.symm
      obtain ⟨inBase, others⟩ := forall_mem_cons.mp all
      have digit := digit?_eq_some_iff.mpr ⟨Nat.lt_of_lt_of_le inBase small, rfl⟩
      rw [digit]
      dsimp only
      rw [if_pos inBase]
      refine ih.mpr ⟨digits, rfl, others, ?_⟩
      rw [foldl_cons, Nat.mul_comm base value, Nat.add_comm d]

theorem denotes_iff : Denotes base cs n ↔ valueFrom? base 0 cs = some n := by
  rw [valueFrom?_eq_some_iff small, Denotes]
  simp only [Nat.ofDigits_eq_foldr, foldr_reverse, Nat.cast_id]

/-- A numeral is read as the number that it denotes, if that is below 2^63. -/
theorem value?_eq_some_iff :
    value? base cs = some n ↔ cs ≠ [] ∧ Denotes base cs n ∧ n < 0x8000000000000000 := by
  rw [denotes_iff small, value?]
  cases valueFrom? base 0 cs with
  | none => simp
  | some m =>
    dsimp only
    constructor
    · intro read
      split_ifs at read with empty fits
      cases read
      exact ⟨empty, rfl, fits⟩
    · rintro ⟨filled, same, fits⟩
      cases same
      rw [if_neg filled, if_pos fits]

theorem denotes_parts (denotes : Denotes base cs n) : ∀ c ∈ cs, isNamePart c = true := by
  obtain ⟨digits, rfl, all, -⟩ := denotes
  have part : ∀ d < 16, isNamePart d.digitChar = true := by decide
  intro c member
  obtain ⟨d, inside, rfl⟩ := mem_map.mp member
  exact part d (Nat.lt_of_lt_of_le (all d inside) small)

end

/-! ## Words and numbers -/

theorem bounded_dropWhile (cs : List Char) : Bounded (cs.dropWhile isNamePart) := by
  intro c first
  have stops := head?_dropWhile_not isNamePart cs
  rwa [Option.mem_def.mp first] at stops

theorem take_takeWhile (part : Char → Bool) (cs : List Char) :
    cs.take (cs.takeWhile part).length = cs.takeWhile part :=
  (prefix_iff_eq_take.mp (List.takeWhile_prefix part)).symm

/-- What is read is a part of the characters at hand: the spelling of the lexeme, up to where it
could not go on. -/
structure Fits (settings : Settings) (cs : List Char) (l : Lexeme) (length : Nat) : Prop where
  filled : 1 ≤ length
  inside : length ≤ cs.length
  spelled : l.StandsAs settings (cs.take length)
  maximal : l.IsWord → Bounded (cs.drop length)
  small : ∀ n, l = .number n → n < 0x8000000000000000

theorem readName_fits (ok : (readName line c cs).result = .ok l) :
    Fits settings (c :: cs) l (readName line c cs).length := by
  have split : (c :: cs).take ((cs.takeWhile isNamePart).length + 1) =
      c :: cs.takeWhile isNamePart := by
    rw [take_succ_cons, take_takeWhile]
  have spelled : l.StandsAs settings (c :: cs.takeWhile isNamePart) ∧ ∀ n, l ≠ .number n := by
    simp only [readName] at ok
    split at ok
    · contradiction
    · split at ok
      · next k known =>
        cases ok
        have word := find?_some known
        rw [beq_iff_eq] at word
        refine ⟨?_, by simp⟩
        rw [Lexeme.StandsAs, word, String.toList_ofList]
      · cases ok
        exact ⟨String.toList_ofList.symm, by simp⟩
  refine ⟨Nat.succ_pos _, ?_, ?_, fun _ => ?_, fun n same => absurd same (spelled.2 n)⟩
  · exact Nat.succ_le_succ (takeWhile_sublist _).length_le
  · exact split ▸ spelled.1
  · rw [readName, drop_succ_cons, drop_takeWhile]
    exact bounded_dropWhile cs

/-- The base of a number and its mark: ten, or sixteen behind a mark that the settings know. -/
theorem baseOf_cases (settings : Settings) (cs : List Char) :
    baseOf settings cs = (10, 0) ∨
      settings.features .hexLiterals = true ∧ baseOf settings cs = (16, 2) ∧
        ∃ rest, cs = '0' :: 'x' :: rest := by
  unfold baseOf
  split
  · split_ifs with known
    · exact .inr ⟨known, rfl, _, rfl⟩
    · exact .inl rfl
  · exact .inl rfl

theorem readNumber_fits (ok : (readNumber settings line cs).result = .ok l) :
    Fits settings cs l (readNumber settings line cs).length := by
  have positive := readNumber_length_pos ok
  rw [readNumber_length] at positive ⊢
  obtain ⟨n, rfl, read⟩ : ∃ n, l = .number n ∧
      value? (baseOf settings cs).1 (numeral settings cs) = some n := by
    unfold readNumber at ok
    dsimp only at ok
    split at ok
    · contradiction
    · next n read =>
      split at ok
      · contradiction
      · exact ⟨n, (Except.ok.inj ok).symm, read⟩
  have taken : cs.take ((baseOf settings cs).2 + (numeral settings cs).length) =
      cs.take (baseOf settings cs).2 ++ numeral settings cs := by
    rw [take_add, numeral, take_takeWhile]
  have dropped : cs.drop ((baseOf settings cs).2 + (numeral settings cs).length) =
      (cs.drop (baseOf settings cs).2).dropWhile isNamePart := by
    rw [← drop_drop, numeral, drop_takeWhile]
  have count : (numeral settings cs).length ≤ cs.length - (baseOf settings cs).2 :=
    length_drop ▸ (takeWhile_sublist _).length_le
  rcases baseOf_cases settings cs with base | ⟨known, base, rest, rfl⟩
  · rw [base] at positive taken dropped read count ⊢
    obtain ⟨filled, denotes, small⟩ := (value?_eq_some_iff (by decide)).mp read
    refine ⟨positive, by omega, ?_, fun _ => dropped ▸ bounded_dropWhile _, ?_⟩
    · rw [taken]
      exact .inl ⟨filled, denotes⟩
    · rintro _ ⟨⟩
      exact small
  · rw [base] at positive taken dropped read count ⊢
    obtain ⟨filled, denotes, small⟩ := (value?_eq_some_iff (by decide)).mp read
    refine ⟨positive, ?_, ?_, fun _ => dropped ▸ bounded_dropWhile _, ?_⟩
    · simp only [length_cons] at count ⊢
      omega
    · rw [taken]
      exact .inr ⟨known, _, rfl, filled, denotes⟩
    · rintro _ ⟨⟩
      exact small

theorem read_fits (ok : (read settings line c cs).result = .ok l) :
    Fits settings (c :: cs) l (read settings line c cs).length := by
  unfold read at ok ⊢
  split_ifs at ok ⊢ with start digit
  · exact readName_fits ok
  · exact readNumber_fits ok
  · cases found : Mark.ofChar? c with
    | none =>
      rw [found] at ok
      contradiction
    | some m =>
      rw [found] at ok
      cases ok
      have same : m.char = c := by simpa using find?_some found
      refine ⟨Nat.le_refl 1, by simp, ?_, False.elim, by simp⟩
      rw [Lexeme.StandsAs, same]
      rfl

section

variable {rest : List Char} {spelled : List Char} (known : Numeral settings spelled n)
  (bounded : Bounded rest)
include known bounded

/-- A numeral is taken apart into the mark of its base and its digits. -/
theorem baseOf_numeral :
    ∃ base marked digits, baseOf settings (spelled ++ rest) = (base, marked) ∧ base ≤ 16 ∧
      ((spelled ++ rest).drop marked).takeWhile isNamePart = digits ∧
      marked + digits.length = spelled.length ∧ Denotes base digits n := by
  rcases known with ⟨filled, denotes⟩ | ⟨hex, digits, rfl, filled, denotes⟩
  · refine ⟨10, 0, spelled, ?_, by decide,
      takeWhile_bounded (denotes_parts (by decide) denotes) bounded, Nat.zero_add _, denotes⟩
    obtain ⟨digits, rfl, inBase, -⟩ := denotes
    rcases baseOf_cases settings (digits.map Nat.digitChar ++ rest) with
      base | ⟨-, -, more, marked⟩
    · exact base
    · -- The mark of a base is no digit, and what follows a numeral does not begin with it.
      match digits with
      | [] => exact absurd rfl filled
      | [d] =>
        have marked : rest = 'x' :: more := (List.cons.inj marked).2
        exact absurd (bounded 'x' (by rw [marked]; rfl)) (by decide)
      | d :: e :: digits =>
        have digit := digitChar_isDigit (inBase e (by simp))
        exact absurd (List.cons.inj (List.cons.inj marked).2).1 digit.unmarked
  · refine ⟨16, 2, digits, by simp [baseOf, hex], by decide,
      takeWhile_bounded (denotes_parts (by decide) denotes) bounded, ?_, denotes⟩
    simp only [length_cons]
    omega

/-- A numeral that is too large is refused as a whole. -/
theorem read_too_large (large : 0x8000000000000000 ≤ n) (whole : spelled ++ rest = c :: cs) :
    (read settings line c cs).result =
      .error (.fault line (.badNumber (String.ofList spelled))) := by
  have first : isNameStart c = false ∧ isDecimalDigit c = true := by
    rcases known with ⟨filled, digits, rfl, all, -⟩ | ⟨-, digits, rfl, -, -⟩
    · obtain ⟨d, digits, rfl⟩ := exists_cons_of_ne_nil (map_eq_nil_iff.not.mp filled)
      obtain rfl := (List.cons.inj whole).1
      have digit := digitChar_isDigit (all d mem_cons_self)
      exact ⟨digit.noName, digit.decimal⟩
    · obtain rfl := (List.cons.inj whole).1
      decide
  obtain ⟨base, marked, digits, based, small, taken, length, denotes⟩ :=
    baseOf_numeral known bounded
  have named : (spelled ++ rest).take (marked + digits.length) = spelled := by
    rw [length, take_left]
  rw [whole] at based taken named
  have unread : value? base digits = none := by
    rw [Option.eq_none_iff_forall_ne_some]
    intro m read
    obtain ⟨-, other, fits⟩ := (value?_eq_some_iff small).mp read
    have same := (denotes_iff small).mp denotes
    rw [(denotes_iff small).mp other] at same
    cases same
    omega
  unfold read
  rw [if_neg (by simp [first.1]), if_pos first.2, readNumber]
  simp only [based, taken, unread, named]

end

/-! ## Slices -/

/-- A cursor in a line is behind as many characters as its column says. -/
def Cursor.In (c : Cursor) (source : List Char) : Prop :=
  ∃ front, source = front ++ c.rest ∧ c.column = front.length + 1

namespace Cursor.In

variable {source : List Char} {c : Cursor}

theorem start (source : List Char) : Cursor.In ⟨source, 1⟩ source := ⟨[], rfl, rfl⟩

variable (place : c.In source)
include place

theorem rest_eq : source.drop (c.column - 1) = c.rest := by
  obtain ⟨front, rfl, column⟩ := place
  rw [column, Nat.add_sub_cancel, drop_left]

theorem end_eq : c.column + c.rest.length = source.length + 1 := by
  obtain ⟨front, rfl, column⟩ := place
  rw [column, length_append]
  omega

theorem advance {n : Nat} (within : n ≤ c.rest.length) : (c.advance n).In source := by
  obtain ⟨front, rfl, column⟩ := place
  refine ⟨front ++ c.rest.take n, ?_, ?_⟩
  · rw [append_assoc, Cursor.advance, take_append_drop]
  · rw [length_append, length_take, Nat.min_eq_left within]
    change c.column + n = front.length + n + 1
    omega

theorem skipSpaces : c.skipSpaces.In source :=
  place.advance (takeWhile_sublist _).length_le

theorem spaces_skipped {i : Nat} (least : c.column ≤ i + 1) (most : i + 1 < c.skipSpaces.column) :
    source[i]? = some ' ' := by
  obtain ⟨front, rfl, column⟩ := place
  rw [Cursor.skipSpaces, Cursor.advance] at most
  have within : i - front.length < (c.rest.takeWhile (· == ' ')).length := by
    dsimp only at most
    omega
  rw [getElem?_append_right (by omega),
    ← takeWhile_append_dropWhile (p := (· == ' ')) (l := c.rest),
    getElem?_append_left within, getElem?_eq_getElem within]
  have space := mem_takeWhile_imp (getElem_mem within)
  rw [beq_iff_eq] at space
  rw [space]

end Cursor.In

/-- The characters of a line that a token takes. -/
def slice (source : List Char) (t : Token) : List Char :=
  (source.drop (t.column - 1)).take t.length

/-- Whether a token takes the character of a position. Positions count from zero and columns from
one. -/
def Covers (t : Token) (position : Nat) : Prop :=
  t.column ≤ position + 1 ∧ position + 1 < t.column + t.length

/-- Tokens tile a line from one column up to another. -/
structure Tiling (settings : Settings) (source : List Char) (start : Nat) (ts : List Token)
    (stop : Nat) : Prop where
  ordered : ts.Pairwise fun t later => t.column + t.length ≤ later.column
  filled : ∀ t ∈ ts, 1 ≤ t.length
  inside : ∀ t ∈ ts, start ≤ t.column ∧ t.column + t.length ≤ stop
  reached : start ≤ stop ∧ stop ≤ source.length + 1
  /-- A slice is the spelling of its lexeme. -/
  spelled : ∀ t ∈ ts, t.lexeme.StandsAs settings (slice source t)
  maximal : ∀ t ∈ ts, t.lexeme.IsWord → Bounded (source.drop (t.column - 1 + t.length))
  /-- A number is said in decimal form. -/
  decimal : ∀ t ∈ ts, ∀ n, t.lexeme = .number n →
    n < 0x8000000000000000 ∧ t.lexeme.value = toString n
  spaces : ∀ i, start ≤ i + 1 → i + 1 < stop → (∀ t ∈ ts, ¬ Covers t i) → source[i]? = some ' '

namespace Tiling

variable {source : List Char} {c stop : Cursor} {t : Token} {ts : List Token}

theorem nil {column : Nat} (reached : column ≤ source.length + 1) :
    Tiling settings source column [] column where
  ordered := .nil
  filled := forall_mem_nil _
  inside := forall_mem_nil _
  reached := ⟨Nat.le_refl _, reached⟩
  spelled := forall_mem_nil _
  maximal := forall_mem_nil _
  decimal := forall_mem_nil _
  spaces i least most _ := by omega

end Tiling

/-- A token is found behind the spaces at a cursor, and the scanner goes on behind it. -/
structure Found (settings : Settings) (source : List Char) (c c' : Cursor) (t : Token) : Prop where
  later : c.column ≤ t.column
  spaces : ∀ i, c.column ≤ i + 1 → i + 1 < t.column → source[i]? = some ' '
  fits : Fits settings (source.drop (t.column - 1)) t.lexeme t.length
  place : c'.In source
  column : c'.column = t.column + t.length

theorem Found.forward {c c' : Cursor} {t : Token} (found : Found settings source c c' t) :
    c.column ≤ c'.column :=
  found.column ▸ Nat.le_add_right_of_le found.later

theorem next_found {c : Cursor} {t : Token} (place : c.In source)
    (read : (next settings line c).result = .ok t) (inside : t.lexeme ≠ .endOfFile) :
    Found settings source c (next settings line c).cursor t := by
  have skipped := place.skipSpaces
  revert read
  rw [next]
  dsimp only
  split
  · intro read
    exact absurd (congrArg Token.lexeme (Except.ok.inj read)).symm inside
  · next first others whole =>
    intro read
    obtain ⟨l, ok, rfl⟩ := map_ok_iff.mp read
    have fits := read_fits ok
    rw [← whole] at fits
    exact {
      later := Nat.le_add_right _ _
      spaces := fun i => place.spaces_skipped
      fits := skipped.rest_eq ▸ fits
      place := skipped.advance fits.inside
      column := rfl }

namespace Tiling

variable {source : List Char} {c c' : Cursor} {t : Token} {ts : List Token} {start stop : Nat}

theorem step (found : Found settings source c c' t)
    (tiling : Tiling settings source c'.column ts stop) :
    Tiling settings source c.column (t :: ts) stop where
  ordered := pairwise_cons.mpr
    ⟨fun u member => found.column ▸ (tiling.inside u member).1, tiling.ordered⟩
  filled := forall_mem_cons.mpr ⟨found.fits.filled, tiling.filled⟩
  inside := by
    refine forall_mem_cons.mpr
      ⟨⟨found.later, found.column ▸ tiling.reached.1⟩, fun u member => ?_⟩
    obtain ⟨least, most⟩ := tiling.inside u member
    exact ⟨found.forward.trans least, most⟩
  reached := ⟨found.forward.trans tiling.reached.1, tiling.reached.2⟩
  spelled := forall_mem_cons.mpr ⟨found.fits.spelled, tiling.spelled⟩
  maximal := forall_mem_cons.mpr
    ⟨fun word => drop_drop ▸ found.fits.maximal word, tiling.maximal⟩
  decimal := forall_mem_cons.mpr
    ⟨fun n same => ⟨found.fits.small n same, by rw [same]; rfl⟩, tiling.decimal⟩
  spaces i least most free := by
    obtain ⟨own, others⟩ := forall_mem_cons.mp free
    by_cases early : i + 1 < t.column
    · exact found.spaces i least early
    · refine tiling.spaces i ?_ most others
      rw [found.column]
      by_contra before
      exact own ⟨Nat.le_of_not_lt early, Nat.lt_of_not_le before⟩

theorem extend (tiling : Tiling settings source start ts stop) {further : Nat}
    (later : stop ≤ further) (reached : further ≤ source.length + 1)
    (spaces : ∀ i, stop ≤ i + 1 → i + 1 < further → source[i]? = some ' ') :
    Tiling settings source start ts further :=
  { tiling with
    inside := fun t member =>
      ⟨(tiling.inside t member).1, (tiling.inside t member).2.trans later⟩
    reached := ⟨tiling.reached.1.trans later, reached⟩
    spaces := fun i least most free => by
      by_cases early : i + 1 < stop
      · exact tiling.spaces i least early free
      · exact spaces i (Nat.le_of_not_lt early) most }

end Tiling

/-- What is found step by step tiles the line. -/
theorem Yields.tiling {c stop : Cursor} {ts : List Token} (yields : Yields settings line c ts stop)
    (place : c.In source) :
    stop.In source ∧ Tiling settings source c.column ts stop.column := by
  induction yields with
  | stay c =>
    have ends := place.end_eq
    exact ⟨place, .nil (by omega)⟩
  | step read inside later ih =>
    have found := next_found place read inside
    obtain ⟨last, tiling⟩ := ih found.place
    exact ⟨last, .step found tiling⟩

/-- The tokens that the scanner yields step by step, before it fails, tile the line in order: each
is the slice at its column of its length, which is the spelling of its lexeme, with nothing but
spaces in between. Words and numbers end where no name character follows, and a number is the
decimal form of what its digits denote. The end of the file is a token without length behind the
last character, and then the whole line is tiled. A numeral of 2^63 or more is a bad number. -/
theorem yielded_tokens_tile {source : List Char} {ts : List Token} {stop : Cursor}
    (yields : Yields settings line ⟨source, 1⟩ ts stop) :
    Tiling settings source 1 ts stop.column ∧
    (∀ t, (next settings line stop).result = .ok t → t.lexeme = .endOfFile →
      t = ⟨.endOfFile, line, source.length + 1, 0⟩ ∧
        Tiling settings source 1 ts (source.length + 1)) ∧
    ∀ spelled rest n, stop.rest.dropWhile (· == ' ') = spelled ++ rest → Bounded rest →
      Numeral settings spelled n → 0x8000000000000000 ≤ n →
      (next settings line stop).result =
        .error (.fault line (.badNumber (String.ofList spelled))) := by
  obtain ⟨place, tiling⟩ := yields.tiling (.start source)
  refine ⟨tiling, fun t read ended => ?_, fun spelled rest n ahead bounded known large => ?_⟩
  · have skipped := place.skipSpaces.end_eq
    rw [next] at read
    dsimp only at read
    split at read
    · next empty =>
      rw [empty, List.length_nil, Nat.add_zero] at skipped
      rw [skipped] at read
      refine ⟨(Except.ok.inj read).symm, tiling.extend ?_ (Nat.le_refl _) fun i least most => ?_⟩
      · exact skipped ▸ Nat.le_add_right _ _
      · exact place.spaces_skipped least (skipped ▸ most)
    · obtain ⟨l, ok, rfl⟩ := map_ok_iff.mp read
      obtain rfl : l = .endOfFile := ended
      exact (read_fits ok).spelled.elim
  · rw [← skipSpaces_rest] at ahead
    rw [next]
    dsimp only
    split
    · next empty =>
      obtain ⟨rfl, -⟩ := List.append_eq_nil_iff.mp (ahead.symm.trans empty)
      rcases known with ⟨filled, -⟩ | ⟨-, digits, spelt, -⟩
      · exact absurd rfl filled
      · contradiction
    · next first others whole =>
      rw [read_too_large known bounded large (ahead.symm.trans whole)]
      rfl

/-- A line with a hexadecimal number, gaps of several spaces, and a number that is too large. -/
def gappedLine : List Char := "  0x1f+ $a.b   endif9 0x8000000000000000]".toList

/-- The tokens of `gappedLine` in front of the number that is too large. -/
def gappedTokens : List Token :=
  [⟨.number 31, 7, 3, 4⟩, ⟨.mark .plus, 7, 7, 1⟩, ⟨.ident "$a.b", 7, 9, 4⟩,
    ⟨.ident "endif9", 7, 16, 6⟩]

theorem yielded_tokens_tile_gappedLine :
    Yields {} 7 ⟨gappedLine, 1⟩ gappedTokens ⟨" 0x8000000000000000]".toList, 22⟩ ∧
      Tiling {} gappedLine 1 gappedTokens 22 ∧
      (next {} 7 ⟨" 0x8000000000000000]".toList, 22⟩).result =
        .error (.fault 7 (.badNumber "0x8000000000000000")) := by
  have yields : Yields {} 7 ⟨gappedLine, 1⟩ gappedTokens ⟨" 0x8000000000000000]".toList, 22⟩ :=
    .step rfl (by decide) (.step rfl (by decide) (.step rfl (by decide)
      (.step rfl (by decide) (.stay _))))
  have denotes : Denotes 16 "8000000000000000".toList 0x8000000000000000 :=
    (denotes_iff (by decide)).mpr (by decide)
  have bounded : Bounded "]".toList := by
    rintro c ⟨⟩
    decide
  obtain ⟨tiling, -, refused⟩ := yielded_tokens_tile yields
  exact ⟨yields, tiling, refused _ _ _ rfl bounded (.inr ⟨rfl, _, rfl, by decide, denotes⟩)
    (Nat.le_refl _)⟩

end Scanner

end HighAsm
