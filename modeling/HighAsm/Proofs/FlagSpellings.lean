import Mathlib.Data.List.Nodup
import HighAsm.CommandLine
import HighAsm.Proofs.Success

/-!
# What a command line says

A command line is a row of items: arguments, and settings of flags. A setting can be written in
several ways (`Writes`), and after `--` there may be anything (`Spells`). What a parse leaves in the
flags and in the arguments is a function of the items alone (`FlagSet.result`): how they are written
does not matter, nor that a value looks like a flag. The induction goes through the items, and the
state of the parse is the result of those that were read.
-/

namespace HighAsm.CommandLine

open List

/-- One thing that a command line says. -/
inductive Item
  | argument (t : Text)
  | setting (name value : Text)
  deriving DecidableEq, Repr

namespace Item

def argument? : Item → Option Text
  | argument t => some t
  | setting _ _ => none

/-- The value that an item gives to a flag. -/
def value? (flag : Text) : Item → Option Text
  | argument _ => none
  | setting name value => if flag = name then some value else none

end Item

/-- The arguments among items. -/
def arguments (items : List Item) : List Text := items.filterMap Item.argument?

/-- The values that items give to a flag, in order. -/
def valuesOf (flag : Text) (items : List Item) : List Text := items.filterMap (·.value? flag)

/-! ## Values -/

namespace Value

/-- What a text says of a switch. Nothing at all switches it on. -/
def switchOf? (t : Text) : Option Bool :=
  if t.isEmpty || onWords.any (fun w => Text.ofString w == t) then some true
  else if offWords.any fun w => Text.ofString w == t then some false
  else none

/-- The value after a flag was given some texts: the last one counts, and a list holds them all. -/
def after (v : Value) (given : List Text) : Value :=
  match v with
  | text t => text (given.getLast?.getD t)
  | switch on => switch ((given.getLast?.bind switchOf?).getD on)
  | number n => number ((given.getLast?.bind Text.decimal?).getD n)
  | list items => list (items ++ given)

/-- A flag with this value accepts a text. -/
def Takes (v : Value) (t : Text) : Prop := ∃ w, v.accept t = .ok w

@[simp] theorem after_nil (v : Value) : v.after [] = v := by
  cases v with
  | list items => exact congrArg list (append_nil items)
  | text _ | switch _ | number _ => rfl

@[simp] theorem isSwitch_after (v : Value) (given : List Text) :
    (v.after given).isSwitch = v.isSwitch := by
  cases v <;> rfl

/-- One more text that is accepted is one more text that was given. -/
theorem accept_after {v : Value} {t : Text} (taken : v.Takes t) (given : List Text) :
    (v.after given).accept t = .ok (v.after (given ++ [t])) := by
  obtain ⟨w, ok⟩ := taken
  cases v with
  | text _ | list items => simp [after, accept]
  | number n =>
    rw [accept] at ok
    split at ok
    · next m read => simp [after, accept, read]
    · contradiction
  | switch on =>
    rw [accept] at ok
    split at ok
    · next yes => simp only [after, accept, getLast?_concat, switchOf?, Option.bind_some, yes,
        if_true, Option.getD_some]
    · next no =>
      split at ok
      · next off => simp only [after, accept, getLast?_concat, switchOf?, Option.bind_some,
          no, off, if_true, if_false, Bool.false_eq_true, Option.getD_some]
      · contradiction

end Value

/-- The flag after the items of a command line. -/
def Flag.after (f : Flag) (items : List Item) : Flag :=
  { f with value := f.value.after (valuesOf f.name items) }

/-- The flag with a new value, if it has a name. -/
def Flag.assign (f : Flag) (name : Text) (v : Value) : Flag :=
  if f.name == name then { f with value := v } else f

/-! ## Ways of writing -/

/-- A name that a flag can be written by: there is one, it does not end early, and it does not look
like another dash. -/
structure IsFlagName (name : Text) : Prop where
  filled : name ≠ []
  whole : (61 : UInt8) ∉ name
  undashed : name.head? ≠ some 45

/-- A way of writing a setting of a flag. Only a flag that is not a switch can have its value in the
next argument. -/
inductive Writes (s : FlagSet) (f : Flag) (value : Text) : List Text → Prop
  | joined {dashes : String} (some_ : dashes = "-" ∨ dashes = "--") :
      Writes s f value [Text.join [dashes, f.name, "=", value]]
  | apart {dashes : String} (some_ : dashes = "-" ∨ dashes = "--") (valued : f.isSwitch = false) :
      Writes s f value [Text.join [dashes, f.name], value]
  | short {letter : UInt8} (own : s.short? [letter] = some f) (valued : f.isSwitch = false) :
      Writes s f value [[45, letter], value]

/-- A way of writing items, with what is left after `--` if that is there. -/
inductive Spells (s : FlagSet) : List Item → List Text → List Text → Prop
  | nil : Spells s [] [] []
  | stop (left : List Text) : Spells s [] left (Text.ofString "--" :: left)
  | argument {t : Text} {items : List Item} {left args : List Text}
      (plain : t.length < 2 ∨ t.head? ≠ some 45) (rest : Spells s items left args) :
      Spells s (.argument t :: items) left (t :: args)
  | setting {f : Flag} {value : Text} {front : List Text} {items : List Item}
      {left args : List Text} (known : f ∈ s.flags) (taken : f.value.Takes value)
      (written : Writes s f value front) (rest : Spells s items left args) :
      Spells s (.setting f.name value :: items) left (front ++ args)

namespace FlagSet

/-! ## What an argument does -/

theorem splitValue_append {name : Text} (whole : (61 : UInt8) ∉ name) (rest : Text) :
    splitValue (name ++ rest) = (name ++ (splitValue rest).1, (splitValue rest).2) := by
  have cut : Text.cut? (Text.ofString "=") (name ++ rest) =
      (Text.cut? (Text.ofString "=") rest).map (Prod.map (name ++ ·) id) := by
    have sign : Text.ofString "=" = [61] := rfl
    rw [sign]
    induction name with
    | nil =>
      rw [nil_append]
      cases Text.cut? [61] rest <;> rfl
    | cons b letters ih =>
      obtain ⟨here, later⟩ := not_or.mp (mt mem_cons.mpr whole)
      have other : ¬ [61] <+: b :: (letters ++ rest) := by
        rw [cons_prefix_cons]
        exact fun both => here both.1
      rw [cons_append, Text.cut?,
        if_neg fun found => other (List.isPrefixOf_iff_prefix.mp found), ih later, Option.map_map]
      rfl
  rw [splitValue, splitValue, cut]
  cases Text.cut? (Text.ofString "=") rest <;> rfl

section Effects

variable {s : FlagSet} {f : Flag} {name : Text}

theorem effect_plain {t : Text} (plain : t.length < 2 ∨ t.head? ≠ some 45) :
    s.effect t = .ok .keep := by
  unfold effect
  split
  · exact plain.elim (fun short => absurd short (by simp)) fun other => absurd rfl other
  · exact plain.elim (fun short => absurd short (by simp)) fun other => absurd rfl other
  · rfl

theorem effect_double {body : Text} (filled : body ≠ []) :
    s.effect (45 :: 45 :: body) = s.effectNamed "--" body := by
  rw [effect, if_neg (by simpa using filled)]

theorem effect_single {c : UInt8} (undashed : c ≠ 45) (rest : Text) :
    s.effect (45 :: c :: rest) =
      if (s.flag? (splitValue (c :: rest)).1).isSome then s.effectNamed "-" (c :: rest)
      else s.effectShort [c] rest := by
  rw [effect]
  exact undashed

/-- A single dash before the name of a flag is as good as two. -/
theorem effect_named (known : s.flag? name = some f) (proper : IsFlagName name) {dashes : String}
    (some_ : dashes = "-" ∨ dashes = "--") {rest : Text} {value? : Option Text}
    (split : splitValue rest = ([], value?)) :
    s.effect (Text.ofString dashes ++ (name ++ rest)) =
      .ok (value?.elim (if f.isSwitch then .give f [] else .giveNext f (dashes ++ name))
        (.give f)) := by
  have cut : splitValue (name ++ rest) = (name, value?) := by
    rw [splitValue_append proper.whole, split, append_nil]
  obtain ⟨c, letters, rfl⟩ := exists_cons_of_ne_nil proper.filled
  have undashed : c ≠ 45 := fun same => proper.undashed (congrArg some same)
  have read : s.effect (Text.ofString dashes ++ (c :: letters ++ rest)) =
      s.effectNamed dashes (c :: letters ++ rest) := by
    rcases some_ with rfl | rfl
    · have found : (s.flag? (splitValue (c :: (letters ++ rest))).1).isSome = true := by
        rw [← cons_append, cut, known]
        rfl
      exact (effect_single undashed _).trans (if_pos found)
    · exact effect_double (cons_ne_nil _ _)
  rw [read, effectNamed, cut]
  cases value? <;> simp [known]

/-- A shorthand is found when neither it nor the empty name is the name of a flag. The empty name
matters for a shorthand that is an equals sign. -/
theorem effect_short {letter : UInt8} (undashed : letter ≠ 45) (own : s.short? [letter] = some f)
    (free : s.flag? [letter] = none) (named : s.flag? [] = none) (valued : f.isSwitch = false) :
    s.effect [45, letter] = .ok (.giveNext f (Text.ofString "-" ++ [letter])) := by
  have missing : (s.flag? (splitValue [letter]).1).isSome = false := by
    by_cases equals : letter = 61
    · have cut : splitValue [letter] = ([], some []) := by
        rw [equals]
        rfl
      rw [cut, named]
      rfl
    · have cut : splitValue ([letter] ++ []) = ([letter], none) :=
        splitValue_append (by simpa using Ne.symm equals) []
      rw [append_nil] at cut
      rw [cut, free]
      rfl
  rw [effect_single undashed, missing, if_neg Bool.false_ne_true, effectShort, own]
  simp [valued]

section Reading

variable {arg t written : Text}

theorem readFrom_keep (found : s.effect arg = .ok .keep) (rest : List Text) :
    readFrom (arg :: rest) s = readFrom rest { s with args := s.args ++ [arg] } := by
  rw [readFrom, step_bind_eq_of_ok (step_get_ok_iff.mpr ⟨rfl, rfl⟩)]
  simp only [found]
  rfl

theorem readFrom_stop (found : s.effect arg = .ok .stop) (rest : List Text) :
    readFrom (arg :: rest) s = .ok () { s with args := s.args ++ rest } := by
  rw [readFrom, step_bind_eq_of_ok (step_get_ok_iff.mpr ⟨rfl, rfl⟩)]
  simp only [found]
  rfl

theorem readFrom_give (found : s.effect arg = .ok (.give f t)) (rest : List Text) :
    readFrom (arg :: rest) s = (give f t >>= fun _ => readFrom rest) s := by
  rw [readFrom, step_bind_eq_of_ok (step_get_ok_iff.mpr ⟨rfl, rfl⟩)]
  simp only [found]

theorem readFrom_giveNext (found : s.effect arg = .ok (.giveNext f written)) (t : Text)
    (rest : List Text) :
    readFrom (arg :: t :: rest) s = (give f t >>= fun _ => readFrom rest) s := by
  rw [readFrom, step_bind_eq_of_ok (step_get_ok_iff.mpr ⟨rfl, rfl⟩)]
  simp only [found]

end Reading

end Effects

/-! ## What a parse comes to -/

/-- What a command line makes of a set of flags, from its items and from what is left after them. -/
def result (s : FlagSet) (items : List Item) (left : List Text) : FlagSet :=
  { s with flags := s.flags.map (·.after items), args := arguments items ++ left }

/-- Flags can be written as they are meant: their names and shorthands do not get in each other's
way, nor in that of dashes and equals signs. -/
structure Plain (s : FlagSet) : Prop where
  /-- A flag is known by its name: no other one can be defined with it. -/
  distinct : (s.flags.map (·.name)).Nodup
  names : ∀ f ∈ s.flags, IsFlagName f.name
  shorthands : ∀ f ∈ s.flags, f.shorthand ≠ [] →
    ∃ letter, f.shorthand = [letter] ∧ letter ≠ 45 ∧ ∀ g ∈ s.flags, g.name ≠ [letter]

section Result

variable {s : FlagSet} {f : Flag} {value : Text}

theorem flag?_result (items : List Item) (left : List Text) (name : Text) :
    (s.result items left).flag? name = (s.flag? name).map (·.after items) :=
  find?_map ..

theorem short?_result (items : List Item) (left : List Text) (letter : Text) :
    (s.result items left).short? letter = (s.short? letter).map (·.after items) := by
  unfold short?
  split
  · rfl
  · exact find?_map ..

theorem result_argument (read : List Item) (t : Text) :
    { s.result read [] with args := (s.result read []).args ++ [t] } =
      s.result (read ++ [.argument t]) [] := by
  have values (flag : Text) : valuesOf flag (read ++ [.argument t]) = valuesOf flag read := by
    simp [valuesOf, Item.value?]
  simp [result, Flag.after, values, arguments, Item.argument?]

theorem Plain.flag?_eq (plain : s.Plain) (known : f ∈ s.flags) : s.flag? f.name = some f := by
  obtain ⟨g, found⟩ : ∃ g, s.flag? f.name = some g :=
    Option.isSome_iff_exists.mp (find?_isSome.mpr ⟨f, known, beq_self_eq_true _⟩)
  have same : g.name = f.name := by simpa using find?_some found
  rw [found, inj_on_of_nodup_map plain.distinct (mem_of_find?_eq_some found) known same]

/-- Giving a flag a value is reading one more item. -/
theorem give_result (plain : s.Plain) (known : f ∈ s.flags) (taken : f.value.Takes value)
    (read : List Item) :
    give (f.after read) value (s.result read []) =
      .ok () (s.result (read ++ [.setting f.name value]) []) := by
  have each : ∀ g ∈ s.flags,
      (g.after read).assign f.name (f.after (read ++ [.setting f.name value])).value =
        g.after (read ++ [.setting f.name value]) := by
    intro g member
    by_cases same : g.name = f.name
    · obtain rfl := inj_on_of_nodup_map plain.distinct member known same
      exact if_pos (beq_self_eq_true _)
    · have values : valuesOf g.name (read ++ [.setting f.name value]) = valuesOf g.name read := by
        simp [valuesOf, Item.value?, same]
      have other : ((g.after read).name == f.name) = false := beq_eq_false_iff_ne.mpr same
      rw [Flag.assign, other, if_neg Bool.false_ne_true, Flag.after, Flag.after, values]
  have args : arguments (read ++ [.setting f.name value]) = arguments read := by
    simp [arguments, Item.argument?]
  have accepted : (f.after read).value.accept value =
      .ok (f.after (read ++ [.setting f.name value])).value := by
    have values : valuesOf f.name (read ++ [.setting f.name value]) =
        valuesOf f.name read ++ [value] := by
      simp [valuesOf, Item.value?]
    simp only [Flag.after, values]
    exact Value.accept_after taken _
  have flags := map_congr_left each
  have given : { s.result read [] with
      flags := (s.result read []).flags.map
        (·.assign f.name (f.after (read ++ [.setting f.name value])).value) } =
        s.result (read ++ [.setting f.name value]) [] := by
    simp only [result, map_map, Function.comp_def, flags, args]
  simp only [give, accepted]
  exact congrArg (EStateM.Result.ok ()) given

/-- A setting that is written in some way is read as one more item. -/
theorem readFrom_writes (plain : s.Plain) (known : f ∈ s.flags)
    (taken : f.value.Takes value) {front : List Text} (written : Writes s f value front)
    (read : List Item) (rest : List Text) :
    readFrom (front ++ rest) (s.result read []) =
      readFrom rest (s.result (read ++ [.setting f.name value]) []) := by
  have found : (s.result read []).flag? f.name = some (f.after read) := by
    rw [flag?_result, plain.flag?_eq known, Option.map_some]
  have given := give_result plain known taken read
  have switch : (f.after read).isSwitch = f.isSwitch := Value.isSwitch_after ..
  cases written with
  | @joined dashes some_ =>
    have spelled : Text.join [dashes, f.name, "=", value] =
        Text.ofString dashes ++ (f.name ++ 61 :: value) := by
      simp [Text.join, Text.ofString, Text.ofChars, String.utf8EncodeChar]
    have cut : splitValue (61 :: value) = ([], some value) := by
      simp [splitValue, Text.cut?, Text.ofString, Text.ofChars, String.utf8EncodeChar]
    have effect := effect_named found (plain.names f known) some_ cut
    rw [← spelled] at effect
    exact (readFrom_give effect rest).trans (step_bind_eq_of_ok given)
  | @apart dashes some_ valued =>
    have spelled : Text.join [dashes, f.name] = Text.ofString dashes ++ (f.name ++ []) := by
      simp [Text.join]
    have cut : splitValue [] = ([], none) := rfl
    have effect := effect_named found (plain.names f known) some_ cut
    rw [← spelled, Option.elim_none, switch.trans valued, if_neg Bool.false_ne_true] at effect
    exact (readFrom_giveNext effect value rest).trans (step_bind_eq_of_ok given)
  | @short letter own valued =>
    have owner : f.shorthand = [letter] := by
      simpa using find?_some own
    obtain ⟨c, same, undashed, free⟩ := plain.shorthands f known (by simp [owner])
    obtain rfl : letter = c := by simpa [owner] using same
    have unnamed (name : Text) (other : ∀ g ∈ s.flags, g.name ≠ name) :
        (s.result read []).flag? name = none := by
      rw [flag?_result, Option.map_eq_none_iff]
      exact find?_eq_none.mpr fun g member => by simpa using other g member
    have found : (s.result read []).short? [letter] = some (f.after read) := by
      rw [short?_result, own, Option.map_some]
    exact (readFrom_giveNext (effect_short undashed found (unnamed _ free)
      (unnamed _ fun g member => (plain.names g member).filled) (switch.trans valued)) value
        rest).trans (step_bind_eq_of_ok given)

/-- Items that are written in some way are read one after the other. -/
theorem readFrom_spells (plain : s.Plain) {items : List Item}
    {left args : List Text} (spelled : Spells s items left args) (read : List Item) :
    readFrom args (s.result read []) = .ok () (s.result (read ++ items) left) := by
  induction spelled generalizing read with
  | nil =>
    rw [append_nil]
    rfl
  | stop left =>
    have stops : (s.result read []).effect (Text.ofString "--") = .ok .stop := rfl
    rw [readFrom_stop stops, append_nil]
    simp [result]
  | @argument t _ _ _ short _ ih =>
    rw [readFrom_keep (effect_plain short), result_argument, ih, append_assoc,
      singleton_append]
  | setting known taken written _ ih =>
    rw [readFrom_writes plain known taken written, ih, append_assoc,
      singleton_append]

end Result

/-- A command line is read as it is meant, in whatever way it is written: the arguments are those
among the items, in order, and everything after `--`; a flag holds the last value that it was given,
or all of them behind those it had if it is a list; and other flags are left alone. -/
theorem parse_recovers_items {s : FlagSet} (plain : s.Plain) {items : List Item}
    {left args : List Text} (spelled : Spells s items left args) :
    parse args s = .ok () (s.result items left) ∧
      ∀ other, Spells s items left other → parse other s = parse args s := by
  have read {args : List Text} (spelled : Spells s items left args) :
      parse args s = .ok () (s.result items left) := by
    have start : { s with args := [] } = s.result [] [] := by
      simp [result, Flag.after, valuesOf, arguments]
    have begun : parse args s = readFrom args { s with args := [] } := rfl
    rw [begun, start, readFrom_spells plain spelled, nil_append]
  exact ⟨read spelled, fun other respelled => (read respelled).trans (read spelled).symm⟩

def outputFlag : Flag := { name := "output", shorthand := "o", value := .text [] }

def runFlag : Flag := { name := "run", shorthand := "=", value := .list ["f()"] }

def verboseFlag : Flag := { name := "verbose", shorthand := "v", value := .switch true }

/-- The flags of a small tool. -/
def tool : FlagSet := { flags := [outputFlag, runFlag, verboseFlag] }

/-- A command line for `tool`, with values that look like flags. -/
def toolLine : List Text :=
  ["-=", "--", "x", "--output=a=b", "--verbose=f", "-run", "-v", "-output=", "--",
    "-o"].map Text.ofString

def toolItems : List Item :=
  [.setting "run" "--", .argument "x", .setting "output" "a=b", .setting "verbose" "f",
    .setting "run" "-v", .setting "output" ""]

theorem parse_recovers_items_tool :
    parse toolLine tool = .ok () (tool.result toolItems ["-o"]) ∧
      (tool.result toolItems ["-o"]).args = ["x", "-o"].map Text.ofString ∧
      (tool.result toolItems ["-o"]).flags.map (·.value) =
        [.text [], .list (["f()", "--", "-v"].map Text.ofString), .switch false] := by
  have flags : tool.flags = [outputFlag, runFlag, verboseFlag] := rfl
  have output : outputFlag ∈ tool.flags := by simp [flags]
  have run : runFlag ∈ tool.flags := by simp [flags]
  have verbose : verboseFlag ∈ tool.flags := by simp [flags]
  have plain : tool.Plain := by
    refine ⟨by decide, ?_, ?_⟩
    · intro f known
      rw [flags, mem_cons, mem_cons, mem_singleton] at known
      obtain rfl | rfl | rfl := known
      · exact ⟨by decide, by decide, by decide⟩
      · exact ⟨by decide, by decide, by decide⟩
      · exact ⟨by decide, by decide, by decide⟩
    · intro f known _
      rw [flags, mem_cons, mem_cons, mem_singleton] at known
      obtain rfl | rfl | rfl := known
      · exact ⟨111, rfl, by decide, by decide⟩
      · exact ⟨61, rfl, by decide, by decide⟩
      · exact ⟨118, rfl, by decide, by decide⟩
  have spelled : Spells tool toolItems ["-o"] toolLine :=
    .setting run ⟨_, rfl⟩ (.short rfl rfl) <|
    .argument (.inl (by decide)) <|
    .setting output ⟨_, rfl⟩ (.joined (.inr rfl)) <|
    .setting verbose ⟨_, rfl⟩ (.joined (.inr rfl)) <|
    .setting run ⟨_, rfl⟩ (.apart (.inl rfl) rfl) <|
    .setting output ⟨_, rfl⟩ (.joined (.inl rfl)) <|
    .stop _
  exact ⟨(parse_recovers_items plain spelled).1, by decide, by decide⟩

end FlagSet

end HighAsm.CommandLine
