import Mathlib.Data.List.Chain
import HighAsm.Proofs.Literals
import HighAsm.Proofs.ScannedText
import HighAsm.Text.Wrap

/-!
# Wrapped texts

The lines of a wrapped text are its words, in order and with single spaces between them. A line ends
only where the next word would have made it too long, and only a word by itself makes a line too
long (`Text.wrap_greedy_lossless`). The line that `fill` has begun is read back as words, so that
the induction is over the words that are still to come.
-/

namespace HighAsm.Text

open List

/-! ## Words -/

/-- Words are the pieces of a text that is cut at white space, without the empty ones. -/
theorem wordsOf_eq (rs : List Rune) :
    wordsOf rs = ((rs.splitOnP fun r => isBlank r.char).filter (!·.isEmpty)).map ofRunes := by
  induction rs with
  | nil => rfl
  | cons r rest ih =>
    rw [splitOnP_cons_eq_if_modifyHead, wordsOf.eq_def]
    by_cases blank : isBlank r.char = true
    · simpa [blank] using ih
    cases rest with
    | nil => simp [wordsOf, ofRunes, blank]
    | cons next others =>
      rw [splitOnP_cons_eq_if_modifyHead] at ih ⊢
      obtain ⟨piece, pieces, cut⟩ :=
        exists_cons_of_ne_nil (splitOnP_ne_nil (fun r : Rune => isBlank r.char) others)
      simp only [blank, ih, cut]
      by_cases gap : isBlank next.char = true
      · cases words : (piece :: pieces).filter (!·.isEmpty) <;> simp [gap, words, ofRunes]
      · simp [gap, ofRunes]

/-- Bytes of a word: there are some, and none of them is a space. -/
def IsWord (t : Text) : Prop := t ≠ [] ∧ (32 : UInt8) ∉ t

/-- A rune that is not white space is part of a word. -/
theorem runes_isWord (t : Text) : ∀ r ∈ runes t, ¬ isBlank r.char → IsWord r.bytes := by
  fun_induction runes t with
  | case1 => exact forall_mem_nil _
  | case2 b rest c n lead ih =>
    refine forall_mem_cons.mpr ⟨fun visible => ⟨cons_ne_nil _ _, fun member => ?_⟩, ih⟩
    rcases mem_cons.mp member with rfl | later
    · unfold leading? at lead
      rw [if_pos (by decide)] at lead
      cases lead
      exact absurd rfl visible
    · -- A character would end before the space.
      obtain ⟨front, back, cut⟩ := append_of_mem later
      have short := congrArg length cut
      have whole : rest = front ++ 32 :: (back ++ rest.drop n) := by
        rw [← cons_append, ← append_assoc, ← cut, take_append_drop]
      rw [whole, leading?_append (by decide)] at lead
      have long := leading?_length lead
      simp only [length_take, length_append, length_cons] at short
      omega
  | case3 b rest lead ih =>
    refine forall_mem_cons.mpr ⟨fun _ => ⟨cons_ne_nil _ _, fun member => ?_⟩, ih⟩
    obtain rfl := mem_singleton.mp member
    unfold leading? at lead
    rw [if_pos (by decide)] at lead
    contradiction

theorem words_isWord (t : Text) : ∀ word ∈ words t, IsWord word := by
  have each {rs : List Rune} (proper : ∀ r ∈ rs, ¬ isBlank r.char → IsWord r.bytes) :
      ∀ word ∈ wordsOf rs, IsWord word := by
    induction rs with
    | nil => exact forall_mem_nil _
    | cons r rest ih =>
      obtain ⟨own, later⟩ := forall_mem_cons.mp proper
      have inner := ih later
      rw [wordsOf.eq_def]
      dsimp only
      split_ifs with blank
      · exact inner
      · split
        · next same =>
          rw [same] at inner
          obtain ⟨first, others⟩ := forall_mem_cons.mp inner
          split_ifs
          · exact forall_mem_cons.mpr ⟨own blank, inner⟩
          · refine forall_mem_cons.mpr ⟨⟨?_, ?_⟩, others⟩
            · simp [(own blank).1]
            · simp [(own blank).2, first.2]
        · exact forall_mem_cons.mpr ⟨own blank, inner⟩
  exact each (runes_isWord t)

/-! ## Lines -/

theorem splitAt_word {word : Text} (isWord : IsWord word) : splitAt 32 word = [word] := by
  have alone := Source.splitAt_append_of_not_mem isWord.2 (rfl : splitAt 32 [] = [[]])
  simpa using alone

theorem splitAt_append_word {word : Text} (isWord : IsWord word) (line : Text) :
    splitAt 32 (line ++ 32 :: word) = splitAt 32 line ++ [word] := by
  obtain ⟨pieces, last, -, goes⟩ := Source.splitAt_append 32 line
  have ends := goes (rfl : splitAt 32 [] = [[]])
  rw [append_nil, append_nil] at ends
  have next : splitAt 32 (32 :: word) = [] :: [word] := congrArg ([] :: ·) (splitAt_word isWord)
  rw [ends, goes next, append_nil, append_assoc, singleton_append]

/-- The first word of a line would not have fitted on the line before it. -/
def Overflows (width : Int) (line next : Text) : Prop :=
  ∀ word ∈ (splitAt 32 next).head?, width < line.length + 1 + word.length

section Filling

variable {width : Nat} {words : List Text} (proper : ∀ word ∈ words, IsWord word)

include proper

theorem flatMap_fill (line : Text) :
    (fill width line words).flatMap (splitAt 32) = splitAt 32 line ++ words := by
  induction words generalizing line with
  | nil => simp [fill]
  | cons word rest ih =>
    obtain ⟨isWord, others⟩ := forall_mem_cons.mp proper
    rw [fill]
    split
    · rw [ih others, splitAt_append_word isWord, append_assoc, singleton_append]
    · rw [flatMap_cons, ih others, splitAt_word isWord, singleton_append]

theorem fill_fits {line : Text} (filled : line ≠ [])
    (fits : 1 < (splitAt 32 line).length → line.length ≤ width) :
    ∀ l ∈ fill width line words,
      l ≠ [] ∧ (1 < (splitAt 32 l).length → (l.length : Int) ≤ width) := by
  induction words generalizing line with
  | nil => exact forall_mem_singleton.mpr ⟨filled, fun several => by exact_mod_cast fits several⟩
  | cons word rest ih =>
    obtain ⟨isWord, others⟩ := forall_mem_cons.mp proper
    rw [fill]
    split
    · next room =>
      refine ih others (by simp) fun _ => ?_
      rw [length_append, length_cons]
      omega
    · refine forall_mem_cons.mpr ⟨⟨filled, fun several => by exact_mod_cast fits several⟩,
        ih others isWord.1 fun several => ?_⟩
      rw [splitAt_word isWord] at several
      contradiction

/-- Every line but the last is full, and the first one goes on with the line that was begun. -/
theorem fill_overflows (line : Text) :
    (fill width line words).IsChain (Overflows width) ∧
      ∀ first ∈ (fill width line words).head?,
        (splitAt 32 first).head? = (splitAt 32 line).head? := by
  induction words generalizing line with
  | nil => exact ⟨.singleton _, by simp [fill]⟩
  | cons word rest ih =>
    obtain ⟨isWord, others⟩ := forall_mem_cons.mp proper
    rw [fill]
    split
    · obtain ⟨chain, begins⟩ := ih others (line ++ 32 :: word)
      refine ⟨chain, fun first member => (begins first member).trans ?_⟩
      obtain ⟨start, tail, cut⟩ := Source.splitAt_eq_cons 32 line
      rw [splitAt_append_word isWord, cut]
      rfl
    · next full =>
      obtain ⟨chain, begins⟩ := ih others word
      refine ⟨chain.cons fun next member start starts => ?_, by simp⟩
      rw [begins next member, splitAt_word isWord] at starts
      cases starts
      omega

end Filling

/-- Wrapping loses no word and ends no line too early. The words of the lines are those of the text,
no line is empty, a line of several words keeps to the width, and every other line begins with a
word that would have made the line before it too long. -/
theorem wrap_greedy_lossless {width : Int} (positive : 0 < width) (t : Text) :
    (wrap width t).flatMap (splitAt 32) =
        (((runes t).splitOnP fun r => isBlank r.char).filter (!·.isEmpty)).map ofRunes ∧
      (∀ line ∈ wrap width t,
        line ≠ [] ∧ (1 < (splitAt 32 line).length → line.length ≤ width)) ∧
      (wrap width t).IsChain (Overflows width) := by
  have proper := words_isWord t
  obtain ⟨n, rfl⟩ := Int.eq_ofNat_of_zero_le (Int.le_of_lt positive)
  rw [← wordsOf_eq, wrap, if_neg (Int.not_le.mpr positive), Int.toNat_natCast]
  change _ = words t ∧ _
  cases listed : words t with
  | nil => exact ⟨rfl, forall_mem_nil _, .nil⟩
  | cons word rest =>
    rw [listed] at proper
    obtain ⟨isWord, others⟩ := forall_mem_cons.mp proper
    refine ⟨?_, ?_, (fill_overflows others word).1⟩
    · rw [flatMap_fill others, splitAt_word isWord, singleton_append]
    · refine fill_fits others isWord.1 fun several => ?_
      rw [splitAt_word isWord] at several
      contradiction

theorem wrap_greedy_lossless_narrow :
    wrap 5 "  to be, unquestionably\ta  bee" =
        ["to", "be,", "unquestionably", "a bee"].map ofString ∧
      (wrap 5 "  to be, unquestionably\ta  bee").IsChain (Overflows 5) :=
  ⟨by decide +kernel, (wrap_greedy_lossless (by decide) _).2.2⟩

end HighAsm.Text
