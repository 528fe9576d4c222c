import Mathlib.Tactic.SplitIfs
import Mathlib.Logic.Basic
import HighAsm.Proofs.Success
import HighAsm.Source

/-!
# Places outside literals

A line is code up to a comment, and its code is cut at quotes into pieces of which every other one
is a literal. What stands at a place outside literals, and has neither a quote nor a slash, comes
through as it is: the literals that are stored do not depend on it, nor what is spelled around it
(`Source.spell_place`).
-/

namespace HighAsm

open List

namespace Source

/-! ## Comments -/

/-- Bytes that neither begin or end a literal nor take part in a comment sign. -/
def Inert (t : Text) : Prop := ∀ b ∈ t, b ≠ quote ∧ b ≠ slash

theorem Inert.quote_not_mem {t : Text} (inert : Inert t) : quote ∉ t :=
  fun member => (inert quote member).1 rfl

/-- A slash in front of such a text does not begin a comment with it. -/
theorem Inert.head_ne_slash {t : Text} (inert : Inert t) (filled : t ≠ []) (rest : Text) :
    (t ++ rest).head? ≠ some slash := by
  obtain ⟨b, more, rfl⟩ := exists_cons_of_ne_nil filled
  exact fun same => (inert b mem_cons_self).2 (Option.some.inj same)

/-- Whether a text that starts inside or outside a literal ends inside one. -/
def literalAfter (quoted : Bool) : Text → Bool
  | [] => quoted
  | b :: rest => literalAfter (if b = quote then !quoted else quoted) rest

theorem literalAfter_eq (quoted : Bool) (t : Text) :
    literalAfter quoted t = (quoted ^^ decide (t.count quote % 2 = 1)) := by
  induction t generalizing quoted with
  | nil => simp [literalAfter]
  | cons b rest ih =>
    rw [literalAfter, ih, count_cons]
    by_cases same : b = quote
    · have flips : (b == quote) = true := by simp [same]
      rw [if_pos same, flips, if_pos rfl]
      rcases Nat.mod_two_eq_zero_or_one (rest.count quote) with even | odd
      · have odd : (rest.count quote + 1) % 2 = 1 := by omega
        simp [even, odd]
      · have even : (rest.count quote + 1) % 2 = 0 := by omega
        simp [even, odd]
    · simp [same]

/-- A comment begins in the front part, whatever follows, or the front part is code as a whole and
the rest goes on from there. A comment sign must not be split between the two. -/
theorem code_append (quoted : Bool) (front : Text) :
    (∀ rest : Text, rest.head? ≠ some slash → code quoted (front ++ rest) = code quoted front) ∨
      code quoted front = front ∧
        ∀ rest : Text, rest.head? ≠ some slash →
          code quoted (front ++ rest) = front ++ code (literalAfter quoted front) rest := by
  induction front generalizing quoted with
  | nil => exact .inr ⟨rfl, fun rest _ => rfl⟩
  | cons b front ih =>
    by_cases quotes : b = quote
    · rcases ih (!quoted) with comment | ⟨whole, goes⟩
      · refine .inl fun rest apart => ?_
        rw [cons_append, code, code, if_pos quotes, if_pos quotes, comment rest apart]
      · refine .inr ⟨?_, fun rest apart => ?_⟩
        · rw [code, if_pos quotes, whole]
        · rw [cons_append, code, if_pos quotes, goes rest apart, literalAfter, if_pos quotes,
            cons_append]
    · have signs {rest : Text} (apart : rest.head? ≠ some slash) :
          (quoted = false ∧ b = slash ∧ (front ++ rest).head? = some slash) ↔
            quoted = false ∧ b = slash ∧ front.head? = some slash := by
        cases front with
        | nil => simp [apart]
        | cons => rfl
      by_cases sign : quoted = false ∧ b = slash ∧ front.head? = some slash
      · refine .inl fun rest apart => ?_
        rw [cons_append, code, code, if_neg quotes, if_neg quotes, if_pos sign,
          if_pos ((signs apart).mpr sign)]
      · rcases ih quoted with comment | ⟨whole, goes⟩
        · refine .inl fun rest apart => ?_
          rw [cons_append, code, code, if_neg quotes, if_neg quotes, if_neg sign,
            if_neg ((signs apart).not.mpr sign), comment rest apart]
        · refine .inr ⟨?_, fun rest apart => ?_⟩
          · rw [code, if_neg quotes, if_neg sign, whole]
          · rw [cons_append, code, if_neg quotes, if_neg ((signs apart).not.mpr sign),
              goes rest apart, literalAfter, if_neg quotes, cons_append]

theorem code_inert {inside : Text} (inert : Inert inside) (quoted : Bool) (rest : Text) :
    code quoted (inside ++ rest) = inside ++ code quoted rest := by
  induction inside with
  | nil => rfl
  | cons b inside ih =>
    obtain ⟨⟨noQuote, noSlash⟩, others⟩ := forall_mem_cons.mp inert
    rw [cons_append, code, if_neg noQuote, if_neg fun sign => noSlash sign.2.1, ih others,
      cons_append]

/-- There are no comments in a literal. -/
theorem code_literal {t : Text} (unclosed : quote ∉ t) : code true t = t := by
  induction t with
  | nil => rfl
  | cons b rest ih =>
    obtain ⟨here, later⟩ := not_or.mp (mem_cons.not.mp unclosed)
    rw [code, if_neg (Ne.symm here), if_neg fun sign => Bool.noConfusion sign.1, ih later]

/-- A line is code as a whole, or up to a comment sign outside literals. -/
theorem code_cases (quoted : Bool) (t : Text) :
    code quoted t = t ∨
      ∃ comment, t = code quoted t ++ slash :: slash :: comment ∧
        literalAfter quoted (code quoted t) = false := by
  induction t generalizing quoted with
  | nil => exact .inl rfl
  | cons b rest ih =>
    rw [code]
    split_ifs with quotes sign
    · refine (ih (!quoted)).imp (congrArg (b :: ·)) ?_
      rintro ⟨comment, whole, outside⟩
      exact ⟨comment, congrArg (b :: ·) whole, by rwa [literalAfter, if_pos quotes]⟩
    · obtain ⟨comment, rfl⟩ := head?_eq_some_iff.mp sign.2.2
      exact .inr ⟨comment, by rw [sign.2.1]; rfl, sign.1⟩
    · refine (ih quoted).imp (congrArg (b :: ·)) ?_
      rintro ⟨comment, whole, outside⟩
      exact ⟨comment, congrArg (b :: ·) whole, by rwa [literalAfter, if_neg quotes]⟩

/-- The literals of a line are closed if there is an even number of quotes in it. -/
theorem closed_of_even {t : Text} (even : t.count quote % 2 = 0) :
    (code false t).count quote % 2 = 0 := by
  rcases code_cases false t with whole | ⟨-, -, outside⟩
  · rwa [whole]
  · rw [literalAfter_eq] at outside
    simpa using outside

/-! ## Pieces between quotes -/

theorem splitAt_eq_cons (separator : UInt8) (t : Text) :
    ∃ first others, Text.splitAt separator t = first :: others := by
  cases t with
  | nil => exact ⟨[], [], rfl⟩
  | cons b rest =>
    rw [Text.splitAt]
    split_ifs
    · exact ⟨_, _, rfl⟩
    · split <;> exact ⟨_, _, rfl⟩

/-- There is one piece more than there are separators, and what follows goes on with the last. -/
theorem splitAt_append (separator : UInt8) (front : Text) :
    ∃ pieces last, pieces.length = front.count separator ∧
      ∀ {rest first others}, Text.splitAt separator rest = first :: others →
        Text.splitAt separator (front ++ rest) = pieces ++ (last ++ first) :: others := by
  induction front with
  | nil => exact ⟨[], [], rfl, fun known => known⟩
  | cons b front ih =>
    obtain ⟨pieces, last, length, goes⟩ := ih
    by_cases cut : b = separator
    · refine ⟨[] :: pieces, last, ?_, fun known => ?_⟩
      · simp [cut, length]
      · rw [cons_append, Text.splitAt, if_pos cut, goes known, cons_append]
    · have length' : (b :: front).count separator = front.count separator :=
        count_cons_of_ne cut
      cases pieces with
      | nil =>
        refine ⟨[], b :: last, length' ▸ length, fun known => ?_⟩
        rw [cons_append, Text.splitAt, if_neg cut, goes known]
        rfl
      | cons piece pieces =>
        refine ⟨(b :: piece) :: pieces, last, length' ▸ length, fun known => ?_⟩
        rw [cons_append, Text.splitAt, if_neg cut, goes known]
        rfl

/-- A part without separators lengthens the first piece. -/
theorem splitAt_append_of_not_mem {separator : UInt8} {front : Text} (plain : separator ∉ front)
    {rest first : Text} {others : List Text}
    (known : Text.splitAt separator rest = first :: others) :
    Text.splitAt separator (front ++ rest) = (front ++ first) :: others := by
  induction front with
  | nil => exact known
  | cons b front ih =>
    obtain ⟨here, later⟩ := not_or.mp (mem_cons.not.mp plain)
    rw [cons_append, Text.splitAt, if_neg (Ne.symm here), ih later]
    rfl

/-! ## Literals -/

section Storing

open StringAllocator

variable {γ : Type} [StringAllocator γ]

/-- A piece outside literals and the literal behind it, in front of other pieces. -/
theorem spell_cons_cons (line : Int) (outside literal : Text) {pieces : List Text}
    (more : pieces ≠ []) (o : Output γ) :
    spell line (outside :: literal :: pieces) o =
      (spell line pieces >>= fun rest => pure
        (Text.join [outside, " ", Text.ofInt (store o.builder literal).1, " ", rest]))
          { o with builder := (store o.builder literal).2 } := by
  rw [spell]
  · rw [step_bind_eq_of_ok (rfl : (get : Reader γ (Output γ)) o = .ok o o)]
    exact step_bind_eq_of_ok rfl
  · exact more

/-- A piece outside literals stands in what is spelled as it is, and makes no other difference. -/
theorem spell_outside (line : Int) (pieces others : List Text) (even : pieces.length % 2 = 0)
    (o : Output γ) :
    (∃ front rest o', (others = [] → rest = []) ∧
      ∀ piece, spell line (pieces ++ piece :: others) o = .ok (front ++ piece ++ rest) o') ∨
    ∃ failure o', ∀ piece, spell line (pieces ++ piece :: others) o = .error failure o' := by
  match pieces, even with
  | [], _ =>
    match others with
    | [] => exact .inl ⟨[], [], o, fun _ => rfl, fun piece => by simp [spell, pure, EStateM.pure]⟩
    | [literal] => exact .inr ⟨_, o, fun piece => rfl⟩
    | literal :: next :: others =>
      cases later : spell line (next :: others)
          { o with builder := (store o.builder literal).2 } with
      | error failure o' =>
        refine .inr ⟨failure, o', fun piece => ?_⟩
        rw [nil_append, spell_cons_cons line piece literal (cons_ne_nil _ _)]
        exact step_bind_error_iff.mpr (.inl later)
      | ok rest o' =>
        refine .inl ⟨[], " " ++ Text.ofInt (store o.builder literal).1 ++ " " ++ rest, o',
          by simp, fun piece => ?_⟩
        rw [nil_append, spell_cons_cons line piece literal (cons_ne_nil _ _),
          step_bind_eq_of_ok later]
        simp [Text.join, pure, EStateM.pure]
  | outside :: literal :: pieces, even =>
    have even : pieces.length % 2 = 0 := by
      simp only [length_cons] at even
      omega
    have more (piece : Text) : pieces ++ piece :: others ≠ [] := by simp
    rcases spell_outside line pieces others even
        { o with builder := (store o.builder literal).2 } with
      ⟨front, rest, o', ends, spelled⟩ | ⟨failure, o', failed⟩
    · refine .inl ⟨outside ++ " " ++ Text.ofInt (store o.builder literal).1 ++ " " ++ front, rest,
        o', ends, fun piece => ?_⟩
      rw [cons_append, cons_append, spell_cons_cons line outside literal (more piece),
        step_bind_eq_of_ok (spelled piece)]
      simp [Text.join, pure, EStateM.pure]
    · refine .inr ⟨failure, o', fun piece => ?_⟩
      rw [cons_append, cons_append, spell_cons_cons line outside literal (more piece)]
      exact step_bind_error_iff.mpr (.inl (failed piece))

/-- A last piece that is a literal without an end is told, and makes no other difference. -/
theorem spell_unclosed (line : Int) (pieces : List Text) (odd : pieces.length % 2 = 1)
    (o : Output γ) :
    ∃ o', ∀ piece, spell line (pieces ++ [piece]) o =
      .error (.fault line (.unterminatedLiteral (quote :: piece))) o' := by
  match pieces, odd with
  | [outside], _ => exact ⟨o, fun piece => rfl⟩
  | outside :: literal :: pieces, odd =>
    have odd : pieces.length % 2 = 1 := by
      simp only [length_cons] at odd
      omega
    have more (piece : Text) : pieces ++ [piece] ≠ [] := by simp
    obtain ⟨o', failed⟩ := spell_unclosed line pieces odd
      { o with builder := (store o.builder literal).2 }
    refine ⟨o', fun piece => ?_⟩
    rw [cons_append, cons_append, spell_cons_cons line outside literal (more piece)]
    exact step_bind_error_iff.mpr (.inl (failed piece))

/-! ## Places -/

/-- A place in a line, with what is before and after it, that no literal encloses: there is none
open at this place, or one that does not end. -/
def Outside (before after : Text) : Prop :=
  (code false before).count quote % 2 = 0 ∨ quote ∉ after

instance (before after : Text) : Decidable (Outside before after) :=
  inferInstanceAs (Decidable (_ ∨ _))

/-- What is spelled of a line with some bytes at a place outside literals: these bytes between
others, or a failure that does not depend on them but for its text. -/
theorem spell_place {before after : Text} (place : Outside before after) (line : Int)
    (o : Output γ) :
    (∃ front rest o', ∀ inside, Inert inside → inside ≠ [] →
      spell line (Text.splitAt quote (code false (before ++ inside ++ after))) o =
        .ok (front ++ inside ++ rest) o') ∨
    (∃ result, ∀ inside, Inert inside → inside ≠ [] →
      spell line (Text.splitAt quote (code false (before ++ inside ++ after))) o = result) ∨
    ∃ o', ∀ inside, Inert inside → inside ≠ [] → ∃ literal,
      spell line (Text.splitAt quote (code false (before ++ inside ++ after))) o =
        .error (.fault line (.unterminatedLiteral literal)) o' := by
  rcases code_append false before with comment | ⟨whole, goes⟩
  · refine .inr (.inl ⟨spell line (Text.splitAt quote (code false before)) o,
      fun inside inert filled => ?_⟩)
    rw [append_assoc, comment _ (inert.head_ne_slash filled after)]
  have cut {inside : Text} (inert : Inert inside) (filled : inside ≠ []) :
      code false (before ++ inside ++ after) =
        before ++ (inside ++ code (literalAfter false before) after) := by
    rw [append_assoc, goes _ (inert.head_ne_slash filled after), code_inert inert]
  obtain ⟨pieces, last, length, joined⟩ := splitAt_append quote before
  rcases Nat.mod_two_eq_zero_or_one (before.count quote) with even | odd
  · obtain ⟨first, others, known⟩ := splitAt_eq_cons quote (code (literalAfter false before) after)
    have split {inside : Text} (inert : Inert inside) (filled : inside ≠ []) :
        Text.splitAt quote (code false (before ++ inside ++ after)) =
          pieces ++ (last ++ (inside ++ first)) :: others := by
      rw [cut inert filled, joined (splitAt_append_of_not_mem inert.quote_not_mem known)]
    rcases spell_outside line pieces others (length ▸ even) o with
      ⟨front, rest, o', -, spelled⟩ | ⟨failure, o', failed⟩
    · refine .inl ⟨front ++ last, first ++ rest, o', fun inside inert filled => ?_⟩
      rw [split inert filled, spelled]
      simp
    · refine .inr (.inl ⟨.error failure o', fun inside inert filled => ?_⟩)
      rw [split inert filled, failed]
  · have unclosed : quote ∉ after := by
      refine place.resolve_left fun even => ?_
      rw [whole] at even
      omega
    have literal : literalAfter false before = true := by simp [literalAfter_eq, odd]
    obtain ⟨o', failed⟩ := spell_unclosed line pieces (length ▸ odd) o
    refine .inr (.inr ⟨o', fun inside inert filled => ⟨quote :: (last ++ (inside ++ after)), ?_⟩⟩)
    have rest := splitAt_append_of_not_mem
      (not_mem_append inert.quote_not_mem unclosed) (rfl : Text.splitAt quote [] = [[]])
    rw [append_nil] at rest
    rw [cut inert filled, literal, code_literal unclosed, joined rest, failed]

end Storing

end Source

end HighAsm
