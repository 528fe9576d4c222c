import HighAsm.Proofs.Spacing

/-!
# The characters of a line

Characters of ASCII stand for themselves wherever they are in a text: what is around them, be it
whole characters or stray bytes, is read as if they ended it and began it anew. So the characters
that are scanned change in one place only when bytes of ASCII do (`Source.scanned_letter`,
`Source.scanned_spaces`).
-/

namespace HighAsm

open List

namespace Text

variable {b a : UInt8} {n : Nat} {rest : Text}

/-! ## Bytes of ASCII -/

theorem isTail_of_ascii (ascii : b < 0x80) : isTail b = false := by
  have small : ¬ 0x80 ≤ b := UInt8.not_le.mpr ascii
  simp [isTail, small]

theorem isSecond_of_ascii (a : UInt8) (ascii : b < 0x80) : isSecond a b = false := by
  have low : 0x80 ≤ (secondRange a).1 := by
    unfold secondRange
    split_ifs <;> decide
  have small : ¬ (secondRange a).1 ≤ b := UInt8.not_le.mpr (UInt8.lt_of_lt_of_le ascii low)
  simp [isSecond, small]

/-- No character goes on with a byte of ASCII. -/
theorem leading?_append (ascii : b < 0x80) (a : UInt8) (front rest : Text) :
    leading? a (front ++ b :: rest) = leading? a front := by
  have noTail := isTail_of_ascii ascii
  have noSecond := isSecond_of_ascii a ascii
  unfold leading?
  split_ifs
  · rfl
  · match front with
    | [] => simp [noTail]
    | _ :: _ => rfl
  · match front with
    | [] => cases rest <;> simp [noSecond]
    | [c] => simp [noTail]
    | _ :: _ :: _ => rfl
  · match front with
    | [] => rcases rest with _ | ⟨c, _ | ⟨d, rest⟩⟩ <;> simp [noSecond]
    | [c] => cases rest <;> simp [noTail]
    | [c, d] => simp [noTail]
    | _ :: _ :: _ :: _ => rfl
  · rfl

/-- A character ends within its text. -/
theorem leading?_length {c : Char} (lead : leading? a rest = some (c, n)) : n ≤ rest.length := by
  unfold leading? at lead
  split_ifs at lead
  · cases lead
    exact Nat.zero_le _
  all_goals
    split at lead
    · split_ifs at lead
      cases lead
      simp
    · contradiction

theorem chars_nil : chars [] = [] := by rw [chars, runes, map_nil]

theorem chars_of_some {c : Char} (lead : leading? a rest = some (c, n)) :
    chars (a :: rest) = c :: chars (rest.drop n) := by
  rw [chars, runes, lead]
  rfl

theorem chars_of_none (lead : leading? a rest = none) :
    chars (a :: rest) = replacement :: chars rest := by
  rw [chars, runes, lead]
  rfl

/-- What is in front of a byte of ASCII is read as if it ended there. -/
theorem chars_append_cons (ascii : b < 0x80) (front rest : Text) :
    chars (front ++ b :: rest) = chars front ++ Char.ofNat b.toNat :: chars rest := by
  fun_induction runes front with
  | case1 =>
    rw [nil_append, chars_cons ascii, chars_nil, nil_append]
  | case2 a front c n lead ih =>
    have lead' := (leading?_append ascii a front rest).trans lead
    rw [cons_append, chars_of_some lead', chars_of_some lead,
      drop_append_of_le_length (leading?_length lead), ih, cons_append]
  | case3 a front lead ih =>
    have lead' := (leading?_append ascii a front rest).trans lead
    rw [cons_append, chars_of_none lead', chars_of_none lead, ih, cons_append]

theorem chars_append_ascii {inside : Text} (ascii : ∀ b ∈ inside, b < 0x80) (filled : inside ≠ [])
    (front rest : Text) :
    chars (front ++ inside ++ rest) =
      chars front ++ inside.map (fun b => Char.ofNat b.toNat) ++ chars rest := by
  have begun {inside : Text} (ascii : ∀ b ∈ inside, b < 0x80) :
      chars (inside ++ rest) = inside.map (fun b => Char.ofNat b.toNat) ++ chars rest := by
    induction inside with
    | nil => rfl
    | cons b inside ih =>
      obtain ⟨first, others⟩ := forall_mem_cons.mp ascii
      rw [cons_append, chars_cons first, ih others, map_cons, cons_append]
  cases inside with
  | nil => exact absurd rfl filled
  | cons b inside =>
    obtain ⟨first, others⟩ := forall_mem_cons.mp ascii
    rw [append_assoc, cons_append, chars_append_cons first, begun others,
      append_assoc, map_cons, cons_append]

/-! ## Trimming -/

section Trimming

variable {α : Type} {drop : α → Bool} {x : α}

theorem dropWhile_append_cons (kept : drop x = false) (front rest : List α) :
    (front ++ x :: rest).dropWhile drop = front.dropWhile drop ++ x :: rest := by
  induction front with
  | nil => rw [nil_append, dropWhile_cons_of_neg (by simp [kept])]; rfl
  | cons y front ih =>
    rw [cons_append, dropWhile_cons, dropWhile_cons, ih]
    split_ifs <;> rfl

/-- The two sides of what is kept are trimmed apart. -/
theorem trimList_append_cons (kept : drop x = false) (front rest : List α) :
    trimList drop (front ++ x :: rest) =
      front.dropWhile drop ++ x :: (rest.reverse.dropWhile drop).reverse := by
  rw [trimList, dropWhile_append_cons kept, reverse_append, reverse_cons,
    append_assoc, singleton_append, dropWhile_append_cons kept, reverse_append,
    reverse_cons, reverse_reverse, append_assoc, singleton_append]

theorem trimList_concat (dropped : drop x = true) (xs : List α) :
    trimList drop (xs ++ [x]) = trimList drop xs := by
  rw [trimList, trimList, dropWhile_append]
  split_ifs with empty
  · rw [isEmpty_iff.mp empty, dropWhile_cons_of_pos dropped]
    rfl
  · rw [reverse_append, reverse_singleton, singleton_append,
      dropWhile_cons_of_pos dropped]

end Trimming

/-! ## Letters -/

/-- The codes of the capital and the small form of a letter, by its place in the alphabet. -/
def letterForms (n : Nat) : List Nat := [65 + n, 97 + n]

/-- Two bytes that differ in the case of a letter at most. -/
def SameLetter (b b' : UInt8) : Prop :=
  ∃ n < 26, b.toNat ∈ letterForms n ∧ b'.toNat ∈ letterForms n

instance (b b' : UInt8) : Decidable (SameLetter b b') :=
  inferInstanceAs (Decidable (∃ n, n < 26 ∧ _))

/-- What a letter is for the reader of a line. -/
structure IsLetter (b : UInt8) (small : Char) : Prop where
  ascii : b < 0x80
  noTab : b ≠ 9
  noQuote : b ≠ Source.quote
  noSlash : b ≠ Source.slash
  visible : isBlank (Char.ofNat b.toNat) = false
  lower : lowerChar (Char.ofNat b.toNat) = small

theorem isLetter_of_form (small : n < 26) (form : b.toNat ∈ letterForms n) :
    IsLetter b (Char.ofNat (97 + n)) := by
  have all : ∀ n < 26, ∀ code ∈ letterForms n, code < 128 ∧ code ≠ 9 ∧ code ≠ 34 ∧ code ≠ 47 ∧
      isBlank (Char.ofNat code) = false ∧
      lowerChar (Char.ofNat code) = Char.ofNat (97 + n) := by
    decide +kernel
  obtain ⟨ascii, noTab, noQuote, noSlash, visible, lower⟩ := all n small b.toNat form
  refine ⟨ascii, ?_, ?_, ?_, visible, lower⟩
  · exact fun same => noTab (congrArg UInt8.toNat same)
  · exact fun same => noQuote (congrArg UInt8.toNat same)
  · exact fun same => noSlash (congrArg UInt8.toNat same)

end Text

/-- Only the space has the space for its lower case. -/
theorem lowerChar_eq_space {c : Char} : lowerChar c = ' ' ↔ c = ' ' := by
  by_cases ascii : c.toNat < 128
  · have all : ∀ n < 128, lowerChar (Char.ofNat n) = ' ' ↔ Char.ofNat n = ' ' := by decide +kernel
    simpa only [Char.ofNat_toNat] using all c.toNat ascii
  · have other : c ≠ ' ' := by
      rintro rfl
      exact ascii (by decide)
    refine iff_of_false ?_ other
    rw [lowerChar, if_neg ascii]
    cases found : CaseRun.all.find? (·.holds c.toNat) with
    | none => exact other
    | some run =>
      -- The first letter of every run is far enough up.
      have above : ∀ run ∈ CaseRun.all, 32 < (run.first : Int) + run.shift := by decide +kernel
      have high := above run (mem_of_find?_eq_some found)
      have inside := find?_some found
      simp only [CaseRun.holds, Bool.and_eq_true, decide_eq_true_eq] at inside
      intro same
      have same : Char.ofNat (c.toNat + run.shift).toNat = ' ' := same
      by_cases valid : (c.toNat + run.shift).toNat.isValidChar
      · rw [Char.ofNat, dif_pos valid] at same
        have space : (c.toNat + run.shift).toNat = 32 := congrArg Char.toNat same
        omega
      · rw [Char.ofNat, dif_neg valid] at same
        exact absurd (congrArg Char.toNat same) (by decide)

namespace Source

open Text

/-! ## What is scanned -/

theorem squeeze_scanned (t : Text) :
    squeeze (scanned t) = (trimList isBlank (squeeze (chars (untab t)))).map lowerChar := by
  rw [trimList_squeeze (by decide), map_squeeze fun _ => lowerChar_eq_space, scanned]

/-- Letters are scanned without regard to their case. -/
theorem scanned_letter {b b' : UInt8} (same : SameLetter b b') (front rest : Text) :
    scanned (front ++ b :: rest) = scanned (front ++ b' :: rest) := by
  obtain ⟨n, small, form, form'⟩ := same
  have spelled {b : UInt8} (letter : IsLetter b (Char.ofNat (97 + n))) :
      scanned (front ++ b :: rest) =
        ((chars (untab front)).dropWhile isBlank).map lowerChar ++ Char.ofNat (97 + n) ::
          (((chars (untab rest)).reverse.dropWhile isBlank).reverse).map lowerChar := by
    have kept : untab (front ++ b :: rest) = untab front ++ b :: untab rest := by
      simp [untab, letter.noTab]
    rw [scanned, kept, chars_append_cons letter.ascii, trimList_append_cons letter.visible,
      map_append, map_cons, letter.lower]
  rw [spelled (isLetter_of_form small form), spelled (isLetter_of_form small form')]

/-- Bytes that are spaces and tabs. -/
def Blank (t : Text) : Prop := ∀ b ∈ t, b = 32 ∨ b = 9

instance (t : Text) : Decidable (Blank t) := inferInstanceAs (Decidable (∀ b ∈ t, _))

/-- Any number of spaces and tabs is scanned like any other, as long as there are some. -/
theorem scanned_blank {gap gap' : Text} (blank : Blank gap) (blank' : Blank gap')
    (filled : gap ≠ []) (filled' : gap' ≠ []) (front rest : Text) :
    squeeze (scanned (front ++ gap ++ rest)) = squeeze (scanned (front ++ gap' ++ rest)) := by
  have single {gap : Text} (blank : Blank gap) (filled : gap ≠ []) :
      squeeze (chars (untab (front ++ gap ++ rest))) =
        squeeze (chars (untab front) ++ ' ' :: chars (untab rest)) := by
    have spaces : untab gap = List.replicate gap.length 32 := by
      refine eq_replicate_iff.mpr ⟨length_map _, fun b member => ?_⟩
      obtain ⟨b', inside, rfl⟩ := mem_map.mp member
      rcases blank b' inside with rfl | rfl <;> rfl
    have split : untab (front ++ gap ++ rest) = untab front ++ untab gap ++ untab rest := by
      simp [untab]
    obtain ⟨n, length⟩ := Nat.exists_eq_succ_of_ne_zero fun empty =>
      filled (eq_nil_of_length_eq_zero empty)
    rw [split, spaces, length, chars_append_ascii ?_ (by simp), map_replicate,
      append_assoc]
    · exact squeeze_append_congr (squeeze_spaces n _) _
    · intro b member
      rw [eq_of_mem_replicate member]
      decide
  rw [squeeze_scanned, squeeze_scanned, single blank filled, single blank' filled']

theorem scanned_space (t : Text) : scanned (t ++ [32]) = scanned t := by
  have kept : untab (t ++ [32]) = untab t ++ [32] := by simp [untab]
  have last : chars (untab t ++ [32]) = chars (untab t) ++ [' '] := by
    rw [chars_append_cons (by decide), chars_nil]
    rfl
  rw [scanned, kept, last, trimList_concat (by decide)]
  rfl

end Source

end HighAsm
