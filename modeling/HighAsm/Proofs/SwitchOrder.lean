import Mathlib.Data.List.Basic
import HighAsm.Settings.Flags

/-!
# Which flag has the last word

Flags are applied one after the other, so of several that set one switch the last one counts.
`Wall` and `Wno-all` are applied before the rest and set every warning but `pedantic`, so they count
only for a warning that no other flag names, wherever they stand. `Settings.apply_eq` says what one
switch does, and `Settings.foldl_apply_eq` what a row of them does; which switch a flag is follows
from how it is spelled (`flagText`).
-/

namespace HighAsm

open List

/-! ## Switches -/

namespace Switch

/-- What a switch sets a warning to, if it does. -/
def warning? (w : Warning) : Switch → Option Bool
  | allWarnings on => if w = .pedantic then none else some on
  | warning v on => if w = v then some on else none
  | feature _ _ | nothing => none

/-- What a switch sets a feature to, if it does. -/
def feature? (f : Feature) : Switch → Option Bool
  | feature g on => if f = g then some on else none
  | allWarnings _ | warning _ _ | nothing => none

end Switch

namespace Settings

/-- The settings with warnings and features set anew where there is something to set them to. -/
def adjust (s : Settings) (warning? : Warning → Option Bool) (feature? : Feature → Option Bool) :
    Settings :=
  { s with
    warnings := fun w => (warning? w).getD (s.warnings w)
    features := fun f => (feature? f).getD (s.features f) }

/-- What one switch does, and that it does nothing else. -/
theorem apply_eq (s : Settings) (switch : Switch) :
    s.apply switch = s.adjust (switch.warning? ·) (switch.feature? ·) := by
  cases switch with
  | allWarnings on =>
    have every : Warning.all.filter (· ≠ .pedantic) =
        [.implicitLocal, .argCount, .unreachableCode, .missingEndproc, .overflow] := by decide
    simp only [apply, every, foldl_cons, foldl_nil, setWarning, adjust, Switch.warning?,
      Switch.feature?, Option.getD_none]
    congr
    funext w
    cases w <;> simp
  | warning v on =>
    simp only [apply, setWarning, adjust, Switch.warning?, Switch.feature?, Option.getD_none]
    congr
    funext w
    split <;> rfl
  | feature g on =>
    simp only [apply, setFeature, adjust, Switch.warning?, Switch.feature?, Option.getD_none]
    congr
    funext f
    split <;> rfl
  | nothing => rfl

theorem foldl_apply_eq (s : Settings) (switches : List Switch) :
    switches.foldl apply s =
      s.adjust (fun w => (switches.filterMap (·.warning? w)).getLast?)
        (fun f => (switches.filterMap (·.feature? f)).getLast?) := by
  induction switches generalizing s with
  | nil => rfl
  | cons switch rest ih =>
    have last {α : Type} (first : Option α) (later : List α) (default : α) :
        later.getLast?.getD (first.getD default) =
          (first.toList ++ later).getLast?.getD default := by
      cases first with
      | none => rfl
      | some a =>
        rw [Option.toList_some, singleton_append, getLast?_cons]
        rfl
    have row {α β : Type} (f : α → Option β) (a : α) (rest : List α) :
        (a :: rest).filterMap f = (f a).toList ++ rest.filterMap f := by
      cases first : f a with
      | none => rw [filterMap_cons_none first]; rfl
      | some b => rw [filterMap_cons_some first]; rfl
    rw [foldl_cons, ih, apply_eq]
    simp only [adjust, last, row]

end Settings

/-! ## Flags -/

/-- How a flag is written: a letter, `no-` when it switches off, and a name. -/
def flagText (letter : String) (name : Text) (on : Bool) : Text :=
  Text.join [letter, if on then "" else "no-", name]

def warningFlag (name : Text) : Bool → Text := flagText "W" name

def featureFlag (name : Text) : Bool → Text := flagText "F" name

/-- A flag of one of the forms `W<name>`, `Wno-<name>`, `F<name>` and `Fno-<name>`. Among them are
`Wall` and `Wno-all`. -/
def IsFlag (flag : Text) : Prop :=
  ∃ name on, flag = warningFlag name on ∨ flag = featureFlag name on

/-- Whether a flag is the one to switch something on, or the one to switch it off. -/
def chosen? (spelling : Bool → Text) (flag : Text) : Option Bool :=
  if flag = spelling true then some true else if flag = spelling false then some false else none

/-- What the last flag says of those that switch something on or off. -/
def lastChoice? (spelling : Bool → Text) (flags : List Text) : Option Bool :=
  (flags.filterMap (chosen? spelling)).getLast?

theorem Text.ofString_inj {s t : String} : Text.ofString s = Text.ofString t ↔ s = t := by
  refine ⟨fun same => ?_, congrArg _⟩
  have bytes : s.toList.utf8Encode = t.toList.utf8Encode := congrArg List.toByteArray same
  rwa [String.utf8Encode_toList, String.utf8Encode_toList, String.toByteArray_inj] at bytes

theorem Warning.ofName?_eq_some_iff {name : Text} {w : Warning} :
    Warning.ofName? name = some w ↔ name = Text.ofString w.name := by
  constructor
  · intro found
    have same : (Text.ofString w.name == name) = true := by simpa using find?_some found
    exact (eq_of_beq same).symm
  · rintro rfl
    cases w <;> decide

theorem Feature.ofName?_eq_some_iff {name : Text} {f : Feature} :
    Feature.ofName? name = some f ↔ name = Text.ofString f.name := by
  constructor
  · intro found
    have same : (Text.ofString f.name == name) = true := by simpa using find?_some found
    exact (eq_of_beq same).symm
  · rintro rfl
    cases f <;> decide

namespace Switch

theorem warning?_ofWarning (w : Warning) {name : Text} (single : name ≠ Text.ofString "all")
    (on : Bool) :
    (ofWarning name on).warning? w = if name = Text.ofString w.name then some on else none := by
  rw [ofWarning, if_neg single]
  by_cases named : name = Text.ofString w.name
  · rw [if_pos named, Warning.ofName?_eq_some_iff.mpr named]
    simp [warning?]
  · rw [if_neg named]
    cases found : Warning.ofName? name with
    | none => rfl
    | some v =>
      have other : w ≠ v := by
        rintro rfl
        exact named (Warning.ofName?_eq_some_iff.mp found)
      simp [warning?, other]

theorem feature?_ofFeature (f : Feature) (name : Text) (on : Bool) :
    (ofFeature name on).feature? f = if name = Text.ofString f.name then some on else none := by
  rw [ofFeature]
  by_cases named : name = Text.ofString f.name
  · rw [if_pos named, Feature.ofName?_eq_some_iff.mpr named]
    simp [feature?]
  · rw [if_neg named]
    cases found : Feature.ofName? name with
    | none => rfl
    | some g =>
      have other : f ≠ g := by
        rintro rfl
        exact named (Feature.ofName?_eq_some_iff.mp found)
      simp [feature?, other]

/-- The name behind the letter of a flag, and whether it is switched on. -/
def named (t : Text) : Text × Bool :=
  if (Text.ofString "no-").isPrefixOf t then (t.drop 3, false) else (t, true)

theorem ofFlag_warning (t : Text) : ofFlag (87 :: t) = ofWarning (named t).1 (named t).2 := by
  rw [ofFlag, named]
  split <;> rfl

theorem ofFlag_feature (t : Text) : ofFlag (70 :: t) = ofFeature (named t).1 (named t).2 := by
  rw [ofFlag, named]
  split <;> rfl

section Letters

variable {letter : String} {b : UInt8} (single : Text.ofString letter = [b])
include single

theorem flagText_on (name : Text) : flagText letter name true = b :: name := by
  have nothing : Text.ofString "" = [] := rfl
  simp [flagText, Text.join, single, nothing]

theorem flagText_off (name : Text) :
    flagText letter name false = b :: (Text.ofString "no-" ++ name) := by
  simp [flagText, Text.join, single]

/-- A flag chooses between the two spellings of a name as its own name tells, if the name does not
begin with `no-` itself. -/
theorem chosen?_named {name : Text} (positive : ¬ Text.ofString "no-" <+: name) (t : Text) :
    chosen? (flagText letter name) (b :: t) =
      if (named t).1 = name then some (named t).2 else none := by
  simp only [chosen?, flagText_on single, flagText_off single, List.cons.injEq, true_and]
  by_cases negative : Text.ofString "no-" <+: t
  · obtain ⟨rest, rfl⟩ := negative
    have different : Text.ofString "no-" ++ rest ≠ name := fun same =>
      positive (same ▸ prefix_append _ _)
    have read : named (Text.ofString "no-" ++ rest) = (rest, false) := by
      rfl
    simp [read, different]
  · have different : t ≠ Text.ofString "no-" ++ name := fun same =>
      negative (same ▸ prefix_append _ _)
    have read : named t = (t, true) := by
      rw [named, if_neg fun found => negative (List.isPrefixOf_iff_prefix.mp found)]
    simp [read, different]

/-- A flag with another letter is no spelling of a name. -/
theorem chosen?_other {c : UInt8} (apart : c ≠ b) (name t : Text) :
    chosen? (flagText letter name) (c :: t) = none := by
  simp [chosen?, flagText_on single, flagText_off single, apart]

end Letters

theorem warning_name_positive (w : Warning) : ¬ Text.ofString "no-" <+: Text.ofString w.name := by
  cases w <;> decide

theorem feature_name_positive (f : Feature) : ¬ Text.ofString "no-" <+: Text.ofString f.name := by
  cases f <;> decide

end Switch

/-- The flags of these forms are those that begin with one of two letters. -/
theorem isFlag_iff {flag : Text} : IsFlag flag ↔ flag.head? = some 87 ∨ flag.head? = some 70 := by
  constructor
  · rintro ⟨name, on, rfl | rfl⟩
    · exact .inl rfl
    · exact .inr rfl
  · rintro (warning | feature)
    · obtain ⟨t, rfl⟩ := head?_eq_some_iff.mp warning
      exact ⟨t, true, .inl (Switch.flagText_on rfl t).symm⟩
    · obtain ⟨t, rfl⟩ := head?_eq_some_iff.mp feature
      exact ⟨t, true, .inr (Switch.flagText_on rfl t).symm⟩

/-- A flag of these forms is a letter and a name. -/
theorem IsFlag.cases {flag : Text} (form : IsFlag flag) :
    (∃ t, flag = 87 :: t) ∨ ∃ t, flag = 70 :: t :=
  (isFlag_iff.mp form).imp head?_eq_some_iff.mp head?_eq_some_iff.mp

/-- The flags that go first are the two for all warnings. -/
theorem goesFirst_eq (flag : Text) :
    Settings.goesFirst flag = (chosen? (warningFlag (Text.ofString "all")) flag).isSome := by
  have on : warningFlag (Text.ofString "all") true = Text.ofString "Wall" := by decide
  have off : warningFlag (Text.ofString "all") false = Text.ofString "Wno-all" := by decide
  rw [Settings.goesFirst, chosen?, on, off]
  by_cases first : flag = Text.ofString "Wall"
  · simp [first]
  · rw [if_neg first]
    by_cases second : flag = Text.ofString "Wno-all" <;> simp [first, second]

namespace Switch

variable {flag : Text}

/-- A flag that is applied with the rest sets the warning that it names. -/
theorem warning?_ofFlag (form : IsFlag flag) (late : Settings.goesFirst flag = false)
    (w : Warning) :
    (ofFlag flag).warning? w = chosen? (warningFlag (Text.ofString w.name)) flag := by
  rcases form.cases with ⟨t, rfl⟩ | ⟨t, rfl⟩
  · have single : (named t).1 ≠ Text.ofString "all" := by
      intro all
      rw [goesFirst_eq, warningFlag, chosen?_named rfl (by decide), if_pos all] at late
      contradiction
    rw [ofFlag_warning, warning?_ofWarning w single, warningFlag,
      chosen?_named rfl (warning_name_positive w)]
  · have none_ : (ofFlag (70 :: t)).warning? w = none := by
      rw [ofFlag_feature, ofFeature]
      cases Feature.ofName? (named t).1 <;> rfl
    rw [none_, warningFlag, chosen?_other rfl (by decide)]

/-- A flag sets the feature that it names. -/
theorem feature?_ofFlag (form : IsFlag flag) (f : Feature) :
    (ofFlag flag).feature? f = chosen? (featureFlag (Text.ofString f.name)) flag := by
  rcases form.cases with ⟨t, rfl⟩ | ⟨t, rfl⟩
  · have none_ : (ofFlag (87 :: t)).feature? f = none := by
      rw [ofFlag_warning, ofWarning]
      split
      · rfl
      · cases Warning.ofName? (named t).1 <;> rfl
    rw [none_, featureFlag, chosen?_other rfl (by decide)]
  · rw [ofFlag_feature, feature?_ofFeature, featureFlag,
      chosen?_named rfl (feature_name_positive f)]

/-- A flag that is applied before the rest sets all warnings but one. -/
theorem warning?_ofFlag_first (first : Settings.goesFirst flag = true) (w : Warning) :
    (ofFlag flag).warning? w =
      if w = .pedantic then none else chosen? (warningFlag (Text.ofString "all")) flag := by
  have read (on : Bool) : ofFlag (warningFlag (Text.ofString "all") on) = .allWarnings on ∧
      chosen? (warningFlag (Text.ofString "all")) (warningFlag (Text.ofString "all") on) =
        some on := by
    cases on <;> decide
  rcases Bool.or_eq_true_iff.mp first with same | same
  · obtain rfl : flag = warningFlag (Text.ofString "all") true := eq_of_beq same
    rw [(read true).1, (read true).2, warning?]
  · obtain rfl : flag = warningFlag (Text.ofString "all") false := eq_of_beq same
    rw [(read false).1, (read false).2, warning?]

/-- No warning has the name that stands for all of them, and no feature is meant by it. -/
theorem chosen?_of_goesFirst (first : Settings.goesFirst flag = true) :
    (∀ w : Warning, chosen? (warningFlag (Text.ofString w.name)) flag = none) ∧
      ∀ f : Feature, chosen? (featureFlag (Text.ofString f.name)) flag = none := by
  rcases Bool.or_eq_true_iff.mp first with same | same
  · obtain rfl := eq_of_beq same
    exact ⟨fun w => by cases w <;> decide, fun f => by cases f <;> decide⟩
  · obtain rfl := eq_of_beq same
    exact ⟨fun w => by cases w <;> decide, fun f => by cases f <;> decide⟩

end Switch

/-! ## Rows of flags -/

/-- Items that come to nothing may be left out. -/
theorem filterMap_filter_eq {α β : Type} {f : α → Option β} {keep : α → Bool}
    (idle : ∀ a, keep a = false → f a = none) (items : List α) :
    (items.filter keep).filterMap f = items.filterMap f := by
  rw [filterMap_filter]
  apply filterMap_congr
  intro a _
  cases kept : keep a with
  | true => rfl
  | false => exact (idle a kept).symm

namespace Settings

open Switch

variable {flags : List Text}

theorem filterMap_first (w : Warning) (flags : List Text) :
    ((flags.filter goesFirst).map ofFlag).filterMap (·.warning? w) =
      if w = .pedantic then []
      else flags.filterMap (chosen? (warningFlag (Text.ofString "all"))) := by
  have idle (flag : Text) (late : goesFirst flag = false) :
      chosen? (warningFlag (Text.ofString "all")) flag = none := by
    rwa [goesFirst_eq, Option.isSome_eq_false_iff, Option.isNone_iff_eq_none] at late
  rw [filterMap_map, ← filterMap_filter_eq idle]
  have each : ∀ flag ∈ flags.filter goesFirst, (ofFlag flag).warning? w =
      if w = .pedantic then none else chosen? (warningFlag (Text.ofString "all")) flag :=
    fun flag member => warning?_ofFlag_first (mem_filter.mp member).2 w
  split
  · next pedantic =>
    apply filterMap_eq_nil_iff.mpr
    intro flag member
    exact (each flag member).trans (if_pos pedantic)
  · next other =>
    apply filterMap_congr
    intro flag member
    exact (each flag member).trans (if_neg other)

theorem filterMap_rest (forms : ∀ flag ∈ flags, IsFlag flag) (w : Warning) :
    ((flags.filter fun flag => !goesFirst flag).map ofFlag).filterMap (·.warning? w) =
      flags.filterMap (chosen? (warningFlag (Text.ofString w.name))) := by
  have idle (flag : Text) (first : (!goesFirst flag) = false) :
      chosen? (warningFlag (Text.ofString w.name)) flag = none :=
    (chosen?_of_goesFirst (by simpa using first)).1 w
  rw [filterMap_map, ← filterMap_filter_eq idle]
  apply filterMap_congr
  intro flag member
  obtain ⟨given, late⟩ := mem_filter.mp member
  exact warning?_ofFlag (forms flag given) (by simpa using late) w

theorem filterMap_features (forms : ∀ flag ∈ flags, IsFlag flag) (f : Feature) :
    ((flags.filter goesFirst ++ flags.filter fun flag => !goesFirst flag).map ofFlag).filterMap
        (·.feature? f) =
      flags.filterMap (chosen? (featureFlag (Text.ofString f.name))) := by
  have first : (flags.filter goesFirst).filterMap
      (chosen? (featureFlag (Text.ofString f.name))) = [] :=
    filterMap_eq_nil_iff.mpr fun flag member =>
      (chosen?_of_goesFirst (mem_filter.mp member).2).2 f
  have idle (flag : Text) (first : (!goesFirst flag) = false) :
      chosen? (featureFlag (Text.ofString f.name)) flag = none :=
    (chosen?_of_goesFirst (by simpa using first)).2 f
  have each : ∀ flag ∈ flags.filter goesFirst ++ flags.filter fun flag => !goesFirst flag,
      (ofFlag flag).feature? f = chosen? (featureFlag (Text.ofString f.name)) flag := by
    intro flag member
    have given : flag ∈ flags := by
      rcases mem_append.mp member with first | late
      · exact (mem_filter.mp first).1
      · exact (mem_filter.mp late).1
    exact feature?_ofFlag (forms flag given) f
  rw [filterMap_map]
  refine (filterMap_congr each).trans ?_
  rw [filterMap_append, first, nil_append, filterMap_filter_eq idle]

/-- What flags make of settings: of the flags that set a switch the last one counts, and a warning
other than `pedantic` that no flag names is set by the last of the flags for all warnings. -/
def switchedBy (s : Settings) (flags : List Text) : Settings :=
  { s with
    warnings := fun w =>
      (lastChoice? (warningFlag (Text.ofString w.name)) flags).getD
        (if w = .pedantic then s.warnings w
        else (lastChoice? (warningFlag (Text.ofString "all")) flags).getD (s.warnings w))
    features := fun f =>
      (lastChoice? (featureFlag (Text.ofString f.name)) flags).getD (s.features f) }

theorem applyFlags_eq_switchedBy (s : Settings) (forms : ∀ flag ∈ flags, IsFlag flag) :
    s.applyFlags flags = s.switchedBy flags := by
  rw [applyFlags, ← foldl_map, foldl_apply_eq, adjust, switchedBy]
  congr
  · funext f
    rw [filterMap_features forms, lastChoice?]
  · funext w
    rw [map_append, filterMap_append, filterMap_first, filterMap_rest forms,
      getLast?_append, Option.getD_or, lastChoice?]
    congr 1
    split
    · rfl
    · rfl

/-- A flag that names no warning and no feature. -/
def IsUnknown (flag : Text) : Prop :=
  (∀ (w : Warning) on, flag ≠ warningFlag (Text.ofString w.name) on) ∧
    (∀ on, flag ≠ warningFlag (Text.ofString "all") on) ∧
    ∀ (f : Feature) on, flag ≠ featureFlag (Text.ofString f.name) on

theorem lastChoice?_remove {spelling : Bool → Text} {flag : Text}
    (other : ∀ on, flag ≠ spelling on) (before after : List Text) :
    lastChoice? spelling (before ++ flag :: after) = lastChoice? spelling (before ++ after) := by
  have idle : chosen? spelling flag = none := by
    rw [chosen?, if_neg (other true), if_neg (other false)]
  rw [lastChoice?, lastChoice?, filterMap_append, filterMap_cons_none idle,
    filterMap_append]

theorem switchedBy_remove (s : Settings) {flag : Text} (unknown : IsUnknown flag)
    (before after : List Text) :
    s.switchedBy (before ++ flag :: after) = s.switchedBy (before ++ after) := by
  obtain ⟨noWarning, notAll, noFeature⟩ := unknown
  simp only [switchedBy, lastChoice?_remove (noWarning _), lastChoice?_remove notAll,
    lastChoice?_remove (noFeature _)]

/-- Flags set warnings and features as `switchedBy` says, wherever the flags for all warnings stand,
and change nothing else. A flag with an unknown name could as well be left out. -/
theorem applyFlags_last_wins (s : Settings) (forms : ∀ flag ∈ flags, IsFlag flag) :
    s.applyFlags flags = s.switchedBy flags ∧
      ∀ before flag after, flags = before ++ flag :: after → IsUnknown flag →
        s.applyFlags flags = s.applyFlags (before ++ after) := by
  refine ⟨applyFlags_eq_switchedBy s forms, ?_⟩
  rintro before flag after rfl unknown
  have fewer : ∀ other ∈ before ++ after, IsFlag other := by
    intro other member
    apply forms
    simp only [mem_append, mem_cons] at member ⊢
    tauto
  rw [applyFlags_eq_switchedBy s forms, applyFlags_eq_switchedBy s fewer,
    switchedBy_remove s unknown]

/-- Flags that override each other, on both sides of the flags for all warnings, and some with
names that mean nothing. -/
def mixedFlags : List Text :=
  ["Wno-overflow", "Wno-all", "Fhex-literals", "Fall", "Wall", "Wno-no-all",
    "Fno-hex-literals"].map Text.ofString

theorem applyFlags_last_wins_mixed :
    Warning.all.map (applyFlags {} mixedFlags).warnings = [true, true, true, true, false, false] ∧
      Feature.all.map (applyFlags {} mixedFlags).features = [true, false, true, true] ∧
      applyFlags {} mixedFlags = applyFlags {} (mixedFlags.take 5 ++ mixedFlags.drop 6) := by
  have letters : ∀ flag ∈ mixedFlags, flag.head? = some 87 ∨ flag.head? = some 70 := by decide
  have forms : ∀ flag ∈ mixedFlags, IsFlag flag := fun flag member =>
    isFlag_iff.mpr (letters flag member)
  obtain ⟨switched, removed⟩ := applyFlags_last_wins {} forms
  refine ⟨by rw [switched]; decide, by rw [switched]; decide, ?_⟩
  apply removed _ (Text.ofString "Wno-no-all") _ rfl
  refine ⟨?_, ?_, ?_⟩
  · intro w on
    cases w <;> cases on <;> decide
  · intro on
    cases on <;> decide
  · intro f on
    cases f <;> cases on <;> decide

end Settings

end HighAsm
