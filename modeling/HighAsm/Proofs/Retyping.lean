import Mathlib.Data.List.Forall2
import Mathlib.Logic.Relation
import HighAsm.Proofs.Coupling
import HighAsm.Proofs.Literals
import HighAsm.Proofs.Robustness
import HighAsm.Proofs.ScannedText

/-!
# Layout and letter case

Outside string literals the case of letters does not matter, nor how many spaces and tabs stand
where there are some, nor a comment at the end of a line. Lines that were edited in these ways are
read as the same tokens, store the same literals and fail alike (`Source.read_retyped`), so that
modules made of them assemble to the same program.
-/

namespace HighAsm

open List

/-! ## Edits -/

/-- What a failure says: its line and kind, or the crash. -/
def Failure.essence : Failure → Except Crash (Int × ErrorKind)
  | fault line why => .ok (line, why.kind)
  | crash why => .error why

/-- Two failures of one kind on one line, in the same state. -/
def SameFailure {σ : Type} (f f' : Failure) (s s' : σ) : Prop := f.essence = f'.essence ∧ s = s'

/-- Tokens that say the same on the same lines. -/
def SameTokens (ts ts' : List Token) : Prop := ts.map Token.said = ts'.map Token.said

/-- Two computations that start in the same state end in the same state, with results that go
together or with failures of one kind on one line. -/
abbrev Alike {σ α : Type} (V : α → α → Prop) (x y : EStateM Failure σ α) : Prop :=
  Parallel Eq SameFailure V x y

namespace Alike

variable {σ α : Type} {V : α → α → Prop} {x y z : EStateM Failure σ α}

theorem of_states (alike : ∀ s, Coincide Eq SameFailure V (x s) (y s)) : Alike V x y := by
  rintro s _ rfl
  exact alike s

theorem refl (same : ∀ a, V a a) (x : EStateM Failure σ α) : Alike V x x := by
  refine of_states fun s => ?_
  cases x s with
  | ok a t => exact .ok (same a) rfl
  | error f t => exact .error ⟨rfl, rfl⟩

theorem trans (chain : ∀ a b c, V a b → V b c → V a c) (first : Alike V x y)
    (second : Alike V y z) : Alike V x z := by
  refine of_states fun s => ?_
  have here := first s s rfl
  have there := second s s rfl
  generalize x s = a at here ⊢
  generalize y s = b at here there
  generalize z s = c at there ⊢
  cases here with
  | ok results states =>
    cases there with
    | ok results' states' => exact .ok (chain _ _ _ results results') (states.trans states')
  | error failures =>
    cases there with
    | error failures' =>
      exact .error ⟨failures.1.trans failures'.1, failures.2.trans failures'.2⟩

end Alike

namespace Source

variable {γ : Type} [StringAllocator γ] {raw raw' : Text} {lines lines' : List Text}

/-- A line is changed in one place: the case of a letter or the length of a gap outside literals, or
a comment at the end of a line whose literals are closed. -/
inductive Edit : Text → Text → Prop
  | letter {before after : Text} {b b' : UInt8} (place : Outside before after)
      (same : Text.SameLetter b b') : Edit (before ++ b :: after) (before ++ b' :: after)
  | gap {before after gap gap' : Text} (place : Outside before after)
      (blank : Blank gap) (blank' : Blank gap') (filled : gap ≠ []) (filled' : gap' ≠ []) :
      Edit (before ++ gap ++ after) (before ++ gap' ++ after)
  | comment {line : Text} (closed : (code false line).count quote % 2 = 0) (text : Text) :
      Edit line (line ++ " //" ++ text)

/-- A line is changed in any number of places. -/
abbrev Retyped : Text → Text → Prop := Relation.ReflTransGen Edit

/-- Texts that are scanned alike. -/
def ScannedAlike (t t' : Text) : Prop := squeeze (scanned t) = squeeze (scanned t')

theorem Blank.inert {gap : Text} (blank : Blank gap) : Inert gap := by
  intro b member
  rcases blank b member with rfl | rfl <;> decide

/-- What is spelled of a line that was changed at a place outside literals. -/
theorem spell_changed {before after inside inside' : Text} (place : Outside before after)
    (inert : Inert inside) (inert' : Inert inside') (filled : inside ≠ []) (filled' : inside' ≠ [])
    (alike : ∀ front rest, ScannedAlike (front ++ inside ++ rest) (front ++ inside' ++ rest))
    (line : Int) :
    Alike ScannedAlike
      (spell (γ := γ) line (Text.splitAt quote (code false (before ++ inside ++ after))))
      (spell line (Text.splitAt quote (code false (before ++ inside' ++ after)))) := by
  refine .of_states fun o => ?_
  rcases spell_place place line o with
    ⟨front, rest, o', spelled⟩ | ⟨result, same⟩ | ⟨o', failed⟩
  · rw [spelled inside inert filled, spelled inside' inert' filled']
    exact .ok (alike front rest) rfl
  · rw [same inside inert filled, same inside' inert' filled']
    cases result with
    | ok t o' => exact .ok rfl rfl
    | error failure o' => exact .error ⟨rfl, rfl⟩
  · obtain ⟨literal, told⟩ := failed inside inert filled
    obtain ⟨literal', told'⟩ := failed inside' inert' filled'
    rw [told, told']
    exact .error ⟨rfl, rfl⟩

/-- What is spelled of a line with a comment. -/
theorem spell_commented (closed : (code false raw).count quote % 2 = 0) (text : Text) (line : Int) :
    Alike ScannedAlike (spell (γ := γ) line (Text.splitAt quote (code false raw)))
      (spell line (Text.splitAt quote (code false (raw ++ " //" ++ text)))) := by
  have sign : (" //" ++ text : Text) = 32 :: slash :: slash :: text := rfl
  have apart : (" //" ++ text : Text).head? ≠ some slash := by simp [sign, slash]
  rw [append_assoc]
  rcases code_append false raw with comment | ⟨whole, goes⟩
  · rw [comment _ apart]
    exact Alike.refl (fun t => (rfl : ScannedAlike t t)) _
  have even : raw.count quote % 2 = 0 := by rwa [whole] at closed
  have outside : literalAfter false raw = false := by simp [literalAfter_eq, even]
  have ended : code false (" //" ++ text) = [32] := by simp [sign, code, quote, slash]
  rw [goes _ apart, whole, outside, ended]
  obtain ⟨pieces, last, length, joined⟩ := splitAt_append quote raw
  have short := joined (rfl : Text.splitAt quote [] = [[]])
  have long := joined (rfl : Text.splitAt quote [32] = [[32]])
  rw [append_nil, append_nil] at short
  rw [short, long]
  refine .of_states fun o => ?_
  rcases spell_outside line pieces [] (length ▸ even) o with
    ⟨front, rest, o', ends, spelled⟩ | ⟨failure, o', failed⟩
  · rw [spelled, spelled, ends rfl, append_nil, append_nil, ← append_assoc]
    refine .ok ?_ rfl
    rw [ScannedAlike, scanned_space]
  · rw [failed, failed]
    exact .error ⟨rfl, rfl⟩

theorem spell_edited (edit : Edit raw raw') (line : Int) :
    Alike ScannedAlike (spell (γ := γ) line (Text.splitAt quote (code false raw)))
      (spell line (Text.splitAt quote (code false raw'))) := by
  cases edit with
  | @letter before after b b' place same =>
    have alike (front rest : Text) :
        ScannedAlike (front ++ [b] ++ rest) (front ++ [b'] ++ rest) := by
      rw [ScannedAlike, append_assoc, append_assoc]
      exact congrArg squeeze (scanned_letter same front rest)
    obtain ⟨n, small, form, form'⟩ := same
    have inert {b : UInt8} (form : b.toNat ∈ Text.letterForms n) : Inert [b] := by
      have letter := Text.isLetter_of_form small form
      exact forall_mem_singleton.mpr ⟨letter.noQuote, letter.noSlash⟩
    have changed := spell_changed (γ := γ) place (inert form) (inert form') (cons_ne_nil _ _)
      (cons_ne_nil _ _) alike line
    rwa [append_assoc, append_assoc] at changed
  | gap place blank blank' filled filled' =>
    exact spell_changed place blank.inert blank'.inert filled filled'
      (scanned_blank blank blank' filled filled') line
  | comment closed text => exact spell_commented closed text line

/-! ## Lines and modules -/

variable (settings : Settings)

/-- Lines that are spelled alike are read alike. -/
theorem readLine_alike {line : Int}
    (alike : Alike ScannedAlike (spell (γ := γ) line (Text.splitAt quote (code false raw)))
      (spell line (Text.splitAt quote (code false raw')))) :
    Alike SameTokens (readLine (γ := γ) settings line raw) (readLine settings line raw') := by
  refine alike.bind fun t t' same => ?_
  have rest : squeeze (Scanner.Cursor.mk (scanned t) 1).rest =
      squeeze (Scanner.Cursor.mk (scanned t') 1).rest := same
  obtain ⟨tokens, cautions, failure⟩ := Scanner.scan_squeezed settings line rest
  dsimp only
  rw [cautions, failure]
  refine .bind (.modify ?_) fun _ _ _ => ?_
  · rintro o _ rfl
    rfl
  · cases (Scanner.scan settings line ⟨scanned t', 1⟩).failure? with
    | none => exact .pure tokens
    | some failure => exact .throw fun o o' states => ⟨rfl, states⟩

theorem readLine_retyped (line : Int) (retyped : Retyped raw raw') :
    Alike SameTokens (readLine (γ := γ) settings line raw) (readLine settings line raw') := by
  induction retyped with
  | refl => exact Alike.refl (fun ts => (rfl : SameTokens ts ts)) _
  | tail _ edit ih =>
    have chain (a b c : List Token) (first : SameTokens a b) (second : SameTokens b c) :
        SameTokens a c := first.trans second
    exact ih.trans chain (readLine_alike settings (spell_edited edit line))

theorem readLines_retyped (before : Nat) (retyped : List.Forall₂ Retyped lines lines') :
    Alike SameTokens (readLines (γ := γ) settings before lines)
      (readLines settings before lines') := by
  induction retyped generalizing before with
  | nil => exact .pure rfl
  | @cons raw raw' others others' first later ih =>
    have here := readLine_retyped (γ := γ) settings (before + 1) first
    cases later with
    | nil => exact here
    | cons =>
      refine here.bind fun ts ts' same => (ih (before + 1)).bind fun more more' same' => .pure ?_
      simp only [SameTokens, map_append, map_cons] at same same' ⊢
      rw [same, same']

/-- Lines that were retyped are read as the same tokens, with the same literals and remarks left
behind, or reading them fails alike. -/
theorem read_retyped (retyped : List.Forall₂ Retyped lines lines') :
    Alike SameTokens (read (γ := γ) settings lines) (read settings lines') := by
  refine (readLines_retyped settings 0 retyped).bind fun ts ts' same => .pure ?_
  simp only [SameTokens, map_append, map_cons] at same ⊢
  rw [same, retyped.length_eq]

end Source

namespace Assembly

open Source

section

variable {lines' : List Text} {lines : List Text} (settings : Settings)
  (retyped : List.Forall₂ Retyped lines lines')
include retyped

theorem readSource_retyped : Alike Eq (readSource settings lines) (readSource settings lines') := by
  refine .of_states fun a => ?_
  have alike := read_retyped settings retyped ⟨a.builder, a.cautions⟩ _ rfl
  unfold readSource
  generalize Source.read settings lines ⟨a.builder, a.cautions⟩ = result at alike
  generalize Source.read settings lines' ⟨a.builder, a.cautions⟩ = result' at alike
  cases alike with
  | @ok ts ts' o o' same states =>
    obtain rfl := states
    have lexemes := congrArg (List.map Prod.fst) same
    rw [map_map, map_map] at lexemes
    exact .ok lexemes rfl
  | error failures =>
    obtain ⟨essence, rfl⟩ := failures
    exact .error ⟨essence, rfl⟩

theorem assembleModule_retyped :
    Alike Eq (assembleModule settings lines) (assembleModule settings lines') := by
  have same {α : Type} (x : Asm α) : Alike Eq x x := .refl (fun _ => rfl) x
  refine (same _).bind fun _ _ _ => (same _).bind fun a _ states => ?_
  subst states
  refine .ite Iff.rfl ((same _).bind fun _ _ _ => ?_) ?_
  all_goals
    refine (readSource_retyped settings retyped).bind fun lexemes _ lexemes' => ?_
    subst lexemes'
    exact same _

end

/-- Two modules end alike: with the same table, or with failures of one kind on one line. -/
def SameEnd (e e' : Except Failure SymbolTable) : Prop :=
  e.mapError Failure.essence = e'.mapError Failure.essence

theorem attemptModules_retyped (settings : Settings) {modules modules' : List (List Text)}
    (retyped : List.Forall₂ (List.Forall₂ Retyped) modules modules') (a : Assembly) :
    List.Forall₂ SameEnd (attemptModules settings modules a).1
        (attemptModules settings modules' a).1 ∧
      (attemptModules settings modules a).2 = (attemptModules settings modules' a).2 := by
  induction retyped generalizing a with
  | nil => exact ⟨.nil, rfl⟩
  | cons first _ ih =>
    have alike := assembleModule_retyped settings first a a rfl
    rw [attemptModules, attemptModules]
    generalize assembleModule settings _ a = result at alike
    generalize assembleModule settings _ a = result' at alike
    cases alike with
    | @ok _ _ a₁ _ _ states =>
      obtain rfl := states
      obtain ⟨ends, same⟩ := ih a₁
      exact ⟨.cons rfl ends, same⟩
    | @error _ _ a₁ _ failures =>
      obtain ⟨essence, rfl⟩ := failures
      obtain ⟨ends, same⟩ := ih a₁
      exact ⟨.cons (congrArg Except.error essence) ends, same⟩

/-- Layout and letter case do not matter outside literals. Lines that were retyped are read as
tokens that say the same on the same lines, with the same literals and remarks left behind, or
reading fails on both with one kind on one line. Modules of retyped lines end alike one after the
other, and come to the same program. -/
theorem retyping_changes_nothing (settings : Settings) :
    (∀ lines lines' : List Text, List.Forall₂ Retyped lines lines' → ∀ o : Output,
      Coincide Eq SameFailure SameTokens (Source.read settings lines o)
        (Source.read settings lines' o)) ∧
    ∀ modules modules' : List (List Text), List.Forall₂ (List.Forall₂ Retyped) modules modules' →
      ∀ a : Assembly,
        List.Forall₂ SameEnd (attemptModules settings modules a).1
          (attemptModules settings modules' a).1 ∧
        (attemptModules settings modules a).2 = (attemptModules settings modules' a).2 :=
  ⟨fun _ _ retyped o => read_retyped settings retyped o o rfl,
    fun _ _ retyped a => attemptModules_retyped settings retyped a⟩

/-- A module whose literal has capitals, two spaces and slashes. -/
def greeting : List Text := ["proc Say()", "\"Hi //  You\" > $X"]

/-- The same module with another gap, a comment that has a quote, and another letter. -/
def greetingRetyped : List Text := ["proc\t Say() // \"", "\"Hi //  You\" > $x"]

theorem greeting_retyped : List.Forall₂ Retyped greeting greetingRetyped := by
  have gap : Edit "proc Say()" "proc\t Say()" :=
    @Edit.gap "proc" "Say()" " " "\t " (by decide +kernel) (by decide +kernel) (by decide +kernel)
      (by decide +kernel) (by decide +kernel)
  have comment : Edit "proc\t Say()" "proc\t Say() // \"" :=
    .comment (closed_of_even (by decide +kernel)) " \""
  have letter : Edit "\"Hi //  You\" > $X" "\"Hi //  You\" > $x" :=
    @Edit.letter "\"Hi //  You\" > $" [] 88 120 (by decide +kernel) (by decide +kernel)
  exact .cons (.tail (.single gap) comment) (.cons (.single letter) .nil)

theorem retyping_changes_nothing_greeting :
    List.Forall₂ Retyped greeting greetingRetyped ∧
      Coincide Eq SameFailure SameTokens (Source.read {} greeting ⟨(start {}).builder, []⟩)
        (Source.read {} greetingRetyped ⟨(start {}).builder, []⟩) ∧
      (attemptModules {} [greeting] (start {})).2.builder.program.strings.map (·.2) =
        ["Hi //  You"] ∧
      (attemptModules {} [greeting] (start {})).1.map (·.isOk) = [true] ∧
      (attemptModules {} [greetingRetyped] (start {})).2 =
        (attemptModules {} [greeting] (start {})).2 := by
  obtain ⟨reading, assembling⟩ := retyping_changes_nothing {}
  refine ⟨greeting_retyped, reading _ _ greeting_retyped _, by decide +kernel, by decide +kernel,
    ?_⟩
  exact ((assembling _ _ (.cons greeting_retyped .nil) _).2).symm

end Assembly

end HighAsm
