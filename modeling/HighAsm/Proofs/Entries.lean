import HighAsm.Proofs.Layout

/-!
# Where procedures begin and stop

The machine, the listing and the other forms of output know a procedure by the address of its
entry alone. In a program made of routines the entry leads to the first routine that begins there,
and to the end of that routine. Procedures share an entry exactly when those from the one up to the
other have no code, and then all but the first of them may be taken for another.
-/

namespace HighAsm

open List

/-- A routine is one of a row, and its code begins at a position. -/
def Placed (routines : List Routine) (position : Nat) (r : Routine) : Prop :=
  ∃ before after, routines = before ++ r :: after ∧ position = Routine.extent before

namespace Placed

variable {routines : List Routine} {position : Nat} {r : Routine}

theorem mem (placed : Placed routines position r) : r ∈ routines := by
  obtain ⟨before, after, rfl, -⟩ := placed
  exact mem_append_right _ mem_cons_self

variable {p : Program} (made : p.MadeOf routines) (placed : Placed routines position r)
include made placed

theorem end_le : position + r.size ≤ p.code.size := by
  obtain ⟨before, after, rfl, rfl⟩ := placed
  rw [size_of_toList made.code, Routine.length_layout, Routine.extent_append, Routine.extent]
  omega

theorem hasCode : p.HasCode position (r.code p.codeBase position) := by
  obtain ⟨before, after, rfl, rfl⟩ := placed
  have whole := made.code
  rw [Routine.layout_append, Routine.layout, ← append_assoc, Nat.zero_add] at whole
  have stands := Program.HasCode.of_toList whole
  rwa [Routine.length_layout] at stands

end Placed

theorem Nest.size_eq_zero_iff {n : Nest} : n.size = 0 ↔ n = .nil := by
  cases n with
  | nil => simp [size]
  | step s rest =>
    have some_ : s.code ≠ [] := by
      cases s with
      | ret | call => simp [Simple.code]
      | eval e => exact e.code_ne_nil
    have positive := length_pos_iff.mpr some_
    simp only [size, reduceCtorEq, iff_false]
    omega
  | block o inner rest =>
    simp only [size, Opening.enterSize, reduceCtorEq, iff_false]
    omega

namespace Routine

variable {base : Int} {position : Nat} {routines : List Routine} {r : Routine}

section

variable (base : Int) (position : Nat) (routines : List Routine) (i : Nat)

theorem procedures_getElem? :
    (procedures base position routines)[i]? =
      routines[i]?.map (procedure base (position + extent (routines.take i))) := by
  induction routines generalizing position i with
  | nil => rfl
  | cons r rest ih =>
    cases i with
    | zero => rfl
    | succ i =>
      rw [procedures, getElem?_cons_succ, ih, getElem?_cons_succ, take_succ_cons,
        extent, Nat.add_assoc]

theorem procedures_drop :
    (procedures base position routines).drop i =
      procedures base (position + extent (routines.take i)) (routines.drop i) := by
  induction routines generalizing position i with
  | nil => simp [procedures]
  | cons r rest ih =>
    cases i with
    | zero => rfl
    | succ i =>
      rw [procedures, drop_succ_cons, ih, drop_succ_cons, take_succ_cons, extent,
        Nat.add_assoc]

end

theorem mem_procedures {proc : Procedure} (member : proc ∈ procedures base position routines) :
    ∃ q r, Placed routines q r ∧ proc = r.procedure base (position + q) := by
  obtain ⟨i, here⟩ := mem_iff_getElem?.mp member
  rw [procedures_getElem?] at here
  obtain ⟨r, found, rfl⟩ := Option.map_eq_some_iff.mp here
  obtain ⟨inside, rfl⟩ := List.getElem?_eq_some_iff.mp found
  exact ⟨_, _, ⟨routines.take i, routines.drop (i + 1), by simp, rfl⟩, rfl⟩

/-- An instruction of a layout is one of a routine in its place. -/
theorem mem_layout {i : Instr} (member : i ∈ layout base position routines) :
    ∃ q r, Placed routines q r ∧ i ∈ r.code base (position + q) := by
  induction routines generalizing position with
  | nil => contradiction
  | cons r rest ih =>
    rcases mem_append.mp member with here | later
    · exact ⟨0, r, ⟨[], rest, rfl, rfl⟩, here⟩
    · obtain ⟨q, r', ⟨before, after, split, rfl⟩, there⟩ := ih later
      refine ⟨r.size + extent before, r', ⟨r :: before, after, by rw [split]; rfl, rfl⟩, ?_⟩
      rwa [← Nat.add_assoc]

/-- A routine without parameters and without statements. -/
def Codeless (r : Routine) : Prop := r.places = [] ∧ r.body = .nil

theorem size_eq_zero_iff {r : Routine} : r.size = 0 ↔ r.Codeless := by
  rw [size, Codeless, Nat.add_eq_zero_iff, length_eq_zero_iff, Nest.size_eq_zero_iff]

theorem extent_take_succ {i : Nat} (here : routines[i]? = some r) :
    extent (routines.take (i + 1)) = extent (routines.take i) + r.size := by
  rw [take_add_one, here, Option.toList_some, extent_append, extent, extent, Nat.add_zero]

theorem extent_take_le (routines : List Routine) {i j : Nat} (ordered : i ≤ j) :
    extent (routines.take i) ≤ extent (routines.take j) := by
  obtain ⟨between, rfl⟩ := Nat.exists_eq_add_of_le ordered
  rw [take_add, extent_append]
  exact Nat.le_add_right _ _

/-- Routines between which the code does not grow have none. -/
theorem codeless_between {i j k : Nat}
    (same : extent (routines.take i) = extent (routines.take j)) (from_ : i ≤ k) (until_ : k < j)
    (here : routines[k]? = some r) : r.Codeless := by
  have start := extent_take_le routines from_
  have stop := extent_take_le routines (show k + 1 ≤ j from until_)
  rw [extent_take_succ here] at stop
  exact size_eq_zero_iff.mp (by omega)

/-- Among routines with an entry there is a first one. -/
theorem first_begins {entry : Int}
    (known : ∃ proc ∈ procedures base position routines, proc.entry = entry) :
    ∃ before r after, routines = before ++ r :: after ∧
      codeAddress base (position + extent before) = entry ∧
      ∀ proc ∈ procedures base position before, proc.entry ≠ entry := by
  induction routines generalizing position with
  | nil =>
    obtain ⟨proc, member, -⟩ := known
    contradiction
  | cons r rest ih =>
    by_cases here : codeAddress base position = entry
    · exact ⟨[], r, rest, rfl, here, by simp [procedures]⟩
    · obtain ⟨proc, member, begins⟩ := known
      rcases mem_cons.mp member with rfl | later
      · exact absurd begins here
      · obtain ⟨before, found, after, rfl, there, none_⟩ := ih ⟨proc, later, begins⟩
        refine ⟨r :: before, found, after, rfl, ?_, ?_⟩
        · rw [extent, ← Nat.add_assoc]
          exact there
        · intro proc member
          rcases mem_cons.mp member with rfl | later
          · exact here
          · exact none_ proc later

end Routine

namespace Program.MadeOf

variable {p : Program} {routines : List Routine} {q : Nat} {r : Routine}
  (made : p.MadeOf routines)

include made

/-- The code of the first of some last procedures stops behind its own instructions. -/
theorem stopAmong_eq {before after : List Routine} (split : routines = before ++ r :: after) :
    p.stopAmong (Routine.procedures p.codeBase (Routine.extent before) (r :: after)) =
      codeAddress p.codeBase (Routine.extent before + r.size) := by
  cases after with
  | nil =>
    have size := size_of_toList made.code
    rw [Routine.length_layout, split, Routine.extent_append] at size
    simp only [Routine.procedures, stopAmong, codeEnd_eq, size, Routine.extent, Nat.add_zero]
  | cons next others => rfl

theorem stopAt_eq {i : Nat} (here : routines[i]? = some r) :
    p.stopAt i = codeAddress p.codeBase (Routine.extent (routines.take i) + r.size) := by
  obtain ⟨inside, rfl⟩ := List.getElem?_eq_some_iff.mp here
  have split : routines = routines.take i ++ routines[i] :: routines.drop (i + 1) := by
    simp
  rw [stopAt, made.procedures, Routine.procedures_drop, Nat.zero_add,
    drop_eq_getElem_cons inside]
  exact made.stopAmong_eq split

/-- The entry of a procedure leads to the first routine that begins there, and to its end. -/
theorem entry_leads {entry : Int} (known : p.IsEntry entry) :
    ∃ before r after, routines = before ++ r :: after ∧
      entry = codeAddress p.codeBase (Routine.extent before) ∧
      p.stopOf entry = codeAddress p.codeBase (Routine.extent before + r.size) ∧
      p.procedureAt? entry = some (r.procedure p.codeBase (Routine.extent before)) ∧
      ∀ proc ∈ Routine.procedures p.codeBase 0 before, proc.entry ≠ entry := by
  rw [IsEntry, made.procedures] at known
  obtain ⟨before, r, after, split, begins, others⟩ := Routine.first_begins known
  rw [Nat.zero_add] at begins
  refine ⟨before, r, after, split, begins.symm, ?_, ?_, others⟩
  · rw [stopOf, made.procedures, split, Routine.procedures_append, Nat.zero_add,
      dropWhile_append_of_pos, Routine.procedures, dropWhile_cons_of_neg]
    · exact made.stopAmong_eq split
    · simp [Routine.procedure, begins]
    · intro proc member
      simpa using others proc member
  · rw [procedureAt?, made.procedures, split, Routine.procedures_append, Nat.zero_add,
      find?_append, find?_eq_none.mpr, Option.none_or, Routine.procedures,
      find?_cons_of_pos]
    · simp [Routine.procedure, begins]
    · intro proc member
      simpa using others proc member

theorem extent_take_lt (addressable : p.Addressable) (k : Nat) :
    Routine.extent (routines.take k) < 0x8000000000000000 := by
  have whole : Routine.extent (routines.take k) + Routine.extent (routines.drop k) =
      p.code.size := by
    rw [size_of_toList made.code, Routine.length_layout, ← Routine.extent_append,
      take_append_drop]
  unfold Program.Addressable at addressable
  omega

/-- A call statement is of a routine that has the name and the number of parameters it says. -/
theorem callee_placed (member : r ∈ routines) {name : String} {entry declared : Int}
    {args : List Operand} (calls : Statement.call name entry declared args ∈ r.body.statements) :
    ∃ q callee, Placed routines q callee ∧ entry = codeAddress p.codeBase q ∧
      normalName callee.name = normalName name ∧ declared = callee.places.length := by
  obtain ⟨⟨proc, listed, same⟩, -⟩ := (made.sound r member).statements _ calls
  obtain ⟨sameName, rfl, rfl⟩ := Procedure.mk.inj same
  rw [made.procedures] at listed
  obtain ⟨q, callee, placed, rfl⟩ := Routine.mem_procedures listed
  rw [Nat.zero_add]
  exact ⟨q, callee, placed, rfl, sameName.symm, rfl⟩

/-- The entry of a procedure leads to the first of those before it that are separated from it by
routines without code only. -/
theorem entry_leads_first (addressable : p.Addressable) {i : Nat} {proc : Procedure}
    (here : p.procedures[i]? = some proc) :
    ∃ j ≤ i, (∀ k r, j ≤ k → k < i → routines[k]? = some r → r.Codeless) ∧
      (∀ k r, k + 1 = j → routines[k]? = some r → ¬ r.Codeless) ∧
      p.stopOf proc.entry = p.stopAt j ∧ p.procedureAt? proc.entry = p.procedures[j]? ∧
      (j < i → p.stopAt j = proc.entry) := by
  have known : p.IsEntry proc.entry := ⟨proc, mem_of_getElem? here, rfl⟩
  obtain ⟨before, first, after, split, begins, stops, found, others⟩ := made.entry_leads known
  rw [made.procedures, Routine.procedures_getElem?, Nat.zero_add] at here
  obtain ⟨last, there, rfl⟩ := Option.map_eq_some_iff.mp here
  have front : routines.take before.length = before := by simp [split]
  have firstHere : routines[before.length]? = some first := by simp [split]
  have earlier {k : Nat} {r : Routine} (inside : k < before.length) (at_ : routines[k]? = some r) :
      codeAddress p.codeBase (Routine.extent (routines.take k)) ≠
        codeAddress p.codeBase (Routine.extent (routines.take i)) := by
    have taken : before[k]? = some r := by
      rw [← front, getElem?_take_of_lt inside, at_]
    have listed : (Routine.procedures p.codeBase 0 before)[k]? =
        some (r.procedure p.codeBase (0 + Routine.extent (before.take k))) := by
      rw [Routine.procedures_getElem?, taken, Option.map_some]
    have differs := others _ (mem_of_getElem? listed)
    rwa [Nat.zero_add, ← front, take_take, Nat.min_eq_left (Nat.le_of_lt inside)] at differs
  -- The first routine that begins at the entry comes no later than the one that it was taken from.
  have ordered : before.length ≤ i := by
    apply Nat.not_lt.mp
    intro inside
    exact earlier inside there rfl
  rw [← front] at begins
  have same : Routine.extent (routines.take before.length) = Routine.extent (routines.take i) := by
    have bound := made.extent_take_lt addressable
    exact ((codeAddress_inj (bound _) (bound _)).mp begins).symm
  have codeless {k : Nat} {r : Routine} (from_ : before.length ≤ k) (until_ : k < i)
      (at_ : routines[k]? = some r) : r.Codeless :=
    Routine.codeless_between same from_ until_ at_
  refine ⟨before.length, ordered, fun k r => codeless, ?_, ?_, ?_, ?_⟩
  · intro k r next at_ empty
    apply earlier (show k < before.length by omega) at_
    have step := Routine.extent_take_succ at_
    rw [next, Routine.size_eq_zero_iff.mpr empty, Nat.add_zero] at step
    rw [← same, step]
  · rw [stops, made.stopAt_eq firstHere, front]
  · rw [found, made.procedures, Routine.procedures_getElem?, firstHere, front, Nat.zero_add]
    rfl
  · intro inside
    have empty := Routine.size_eq_zero_iff.mpr (codeless (Nat.le_refl _) inside firstHere)
    rw [made.stopAt_eq firstHere, empty, same]
    rfl

/-- The entry of a procedure leads to a routine with its parameters, or to one without code. -/
theorem entry_params (addressable : p.Addressable) {proc : Procedure}
    (member : proc ∈ p.procedures) :
    ∃ q r, Placed routines q r ∧ proc.entry = codeAddress p.codeBase q ∧
      p.stopOf proc.entry = codeAddress p.codeBase (q + r.size) ∧
      (r.size = 0 ∨ proc.params = r.places.length) := by
  obtain ⟨i, here⟩ := mem_iff_getElem?.mp member
  obtain ⟨before, r, after, split, begins, stops, found, -⟩ := made.entry_leads ⟨proc, member, rfl⟩
  obtain ⟨j, ordered, -, -, stopsAt, foundAt, empty⟩ := made.entry_leads_first addressable here
  have placed : Placed routines (Routine.extent before) r := ⟨before, after, split, rfl⟩
  refine ⟨_, r, placed, begins, stops, ?_⟩
  rcases Nat.lt_or_eq_of_le ordered with earlier | rfl
  · have ends := placed.end_le made
    have same : codeAddress p.codeBase (Routine.extent before + r.size) =
        codeAddress p.codeBase (Routine.extent before) := by
      rw [← stops, stopsAt, empty earlier, ← begins]
    unfold Program.Addressable at addressable
    have sized := (codeAddress_inj (by omega) (by omega)).mp same
    exact .inl (by omega)
  · rw [found, here] at foundAt
    exact .inr (congrArg Procedure.params (Option.some.inj foundAt)).symm

/-- Where no two procedures share an entry, it belongs to one routine only. -/
theorem placed_unique (distinct : (p.procedures.map (·.entry)).Nodup) {q' : Nat} {r' : Routine}
    (placed : Placed routines q r) (placed' : Placed routines q' r')
    (same : codeAddress p.codeBase q = codeAddress p.codeBase q') : q = q' ∧ r = r' := by
  obtain ⟨before, after, split, rfl⟩ := placed
  obtain ⟨before', after', split', rfl⟩ := placed'
  have entryAt {front back : List Routine} {s : Routine} (split : routines = front ++ s :: back) :
      (p.procedures.map (·.entry))[front.length]? =
        some (codeAddress p.codeBase (Routine.extent front)) := by
    rw [made.procedures, getElem?_map, Routine.procedures_getElem?, split]
    simp [Routine.procedure]
  have bound : before.length < (p.procedures.map (·.entry)).length :=
    (List.getElem?_eq_some_iff.mp (entryAt split)).1
  have length : before.length = before'.length := by
    apply (getElem?_inj bound distinct).mp
    rw [entryAt split, entryAt split', same]
  have both := split.symm.trans split'
  obtain ⟨rfl, tails⟩ := append_inj both length
  cases tails
  exact ⟨rfl, rfl⟩

end Program.MadeOf

namespace Program

/-- The entry of the procedure of a position leads to that procedure and to its end. -/
def Identifies (p : Program) (i : Nat) (proc : Procedure) : Prop :=
  p.stopOf proc.entry = p.stopAt i ∧ p.procedureAt? proc.entry = some proc

/-- The entry of a procedure leads to the first of those that only routines without code separate
from it. So it identifies the procedure exactly when there is code right before it, or when the
first one cannot be told from it and its own code is empty too. -/
theorem entry_identifies_iff {settings : Settings} {modules : List (List Text)} {p : Program}
    (assembled : Assembly.program? settings modules = some p) (addressable : p.Addressable) :
    ∃ routines, Written settings modules routines p ∧
      p.procedures = Routine.procedures p.codeBase 0 routines ∧
      ∀ i proc, p.procedures[i]? = some proc →
        ∃ j ≤ i, (∀ k r, j ≤ k → k < i → routines[k]? = some r → r.Codeless) ∧
          (∀ k r, k + 1 = j → routines[k]? = some r → ¬ r.Codeless) ∧
          p.stopOf proc.entry = p.stopAt j ∧ p.procedureAt? proc.entry = p.procedures[j]? ∧
          (p.Identifies i proc ↔
            j = i ∨ p.procedures[j]? = some proc ∧ p.stopAt i = proc.entry) := by
  obtain ⟨routines, written, made⟩ := assembled_madeOf assembled addressable
  refine ⟨routines, written, made.procedures, fun i proc here => ?_⟩
  obtain ⟨j, ordered, codeless, first, stops, found, empty⟩ :=
    made.entry_leads_first addressable here
  refine ⟨j, ordered, codeless, first, stops, found, ?_⟩
  unfold Identifies
  rw [stops, found]
  rcases Nat.lt_or_eq_of_le ordered with inside | rfl
  · rw [empty inside]
    constructor
    · rintro ⟨ends, taken⟩
      exact .inr ⟨taken, ends.symm⟩
    · rintro (rfl | ⟨taken, ends⟩)
      · exact absurd inside (Nat.lt_irrefl _)
      · exact ⟨ends.symm, taken⟩
  · simp [here]

/-- Two procedures, the first of which has no code. -/
def sharedEntrySource : List Text := ["proc a()", "proc b()", "1", "endproc"].map Text.ofString

/-- The program that `sharedEntrySource` is assembled to. -/
def sharedEntry : Program :=
  { code := #[.load (.const 1), .ret]
    data := #[0, 0]
    procedures := [⟨"a", 0x1000, 0⟩, ⟨"b", 0x1000, 0⟩] }

theorem sharedEntry_assembled : Assembly.program? {} [sharedEntrySource] = some sharedEntry := by
  decide +kernel

theorem entry_identifies_iff_sharedEntry :
    ∃ routines, Written {} [sharedEntrySource] routines sharedEntry ∧
      (∀ r, routines[0]? = some r → r.Codeless) ∧
      ¬ sharedEntry.Identifies 1 ⟨"b", 0x1000, 0⟩ := by
  have addressable : sharedEntry.Addressable := by
    unfold Addressable
    decide
  obtain ⟨routines, written, -, leads⟩ := entry_identifies_iff sharedEntry_assembled addressable
  obtain ⟨j, ordered, codeless, -, stops, -, identifies⟩ := leads 1 ⟨"b", 0x1000, 0⟩ rfl
  have first : j = 0 := by
    rcases Nat.le_one_iff_eq_zero_or_eq_one.mp ordered with zero | rfl
    · exact zero
    · exact absurd stops (by decide)
  subst first
  refine ⟨routines, written, fun r => codeless 0 r (Nat.le_refl 0) Nat.one_pos, ?_⟩
  rw [identifies]
  decide

/-- The entry of a procedure behind one without code leads to the other one, and a call of it
carries out nothing. -/
theorem sharedEntry_misleads :
    Assembly.program? {} [sharedEntrySource] = some sharedEntry ∧
    sharedEntry.procedures[1]? = some ⟨"b", 0x1000, 0⟩ ∧
    sharedEntry.procedureAt? 0x1000 = some ⟨"a", 0x1000, 0⟩ ∧
    sharedEntry.stopOf 0x1000 = 0x1000 ∧ sharedEntry.stopAt 1 = 0x1002 ∧
    ((Machine.load sharedEntry).toOption.map fun m => (m.call sharedEntry "b" []).2.steps) =
      some 0 := by
  refine ⟨sharedEntry_assembled, by decide, by decide, by decide, by decide, ?_⟩
  decide +kernel

end Program

end HighAsm
