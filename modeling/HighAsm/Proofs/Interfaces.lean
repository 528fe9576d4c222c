import Mathlib.Data.List.Nodup
import HighAsm.Proofs.Visibility

/-!
# Interfaces and programs

After the last module the table lists the procedures that can be called, and a program is asked for
a procedure by its name. The program takes the first one of that name, and it keeps the private
procedures of earlier modules. So both agree on an exported procedure, and on a private one unless
an earlier module has left another procedure of that name in front.
-/

namespace HighAsm

open List Assembly

theorem IsName.ofString_inj {name other : String} (isName : IsName name) (isOther : IsName other) :
    Text.ofString name = Text.ofString other ↔ name = other := by
  constructor
  · intro same
    have spelled : name.toList = other.toList := by
      rw [← isName.chars_ofString, same, isOther.chars_ofString]
    exact String.toList_inj.mp spelled
  · rintro rfl
    rfl

theorem Program.procedureNamed?_eq {p : Program} {name : String}
    (named : ∀ proc ∈ p.procedures, IsName proc.name) (isName : IsName name) :
    p.procedureNamed? name = p.procedures.find? (·.name == name) := by
  rw [procedureNamed?, ← head?_filter, ← head?_filter]
  congr 1
  refine filter_congr fun proc member => ?_
  rw [Bool.eq_iff_iff, beq_iff_eq, beq_iff_eq]
  exact (named proc member).ofString_inj isName

/-- After a module the table has its procedures, and the exported ones from before. -/
theorem assembleModule_linked {settings : Settings} {before : List (List Text)} {lines : List Text}
    {a₀ a : Assembly} (earlier : assembleModules settings before (start settings) = .ok () a₀)
    (last : assembleModule settings lines a₀ = .ok () a) : a.Linked a₀.builder.program := by
  obtain ⟨⟨opened, linked, first⟩, -⟩ := assembleModules_linked earlier
  obtain ⟨sources, a₁, a₂, prepared, assembled, rfl⟩ := assembleModule_ok_iff.mp last
  obtain ⟨pieces, recorded⟩ := (procedures_ok_iff 0 a₀.builder.program).mp assembled
  have linked₁ := (linked.prepared first prepared).1
  have linked₂ := (recordProcedures_linked linked₁ recorded (prepare_named prepared)).1
  exact linked₂.leaves (.closeModule _)

section Lookup

variable {opened : Program} {a : Assembly} {proc older : Procedure}

theorem Program.mem_of_mem_visible {p : Program} (begun : opened.procedures <+: p.procedures)
    (visible : proc ∈ opened.visible p) : proc ∈ p.procedures := by
  rcases mem_append.mp visible with exported | since
  · exact begun.subset (mem_filter.mp exported).1
  · exact mem_of_mem_drop since

variable (linked : a.Linked opened)
include linked

/-- What was there before the module is found first. -/
theorem Assembly.Linked.find?_older {name : String}
    (found : opened.procedures.find? (·.name == name) = some older) :
    a.builder.program.procedures.find? (·.name == name) = some older := by
  obtain ⟨since, begun⟩ := linked.begun
  rw [← begun, find?_append, found, Option.some_or]

variable (visible : proc ∈ opened.visible a.builder.program)
include visible

theorem Assembly.Linked.eq_of_name (visible' : older ∈ opened.visible a.builder.program)
    (same : older.name = proc.name) : older = proc :=
  inj_on_of_nodup_map linked.names_nodup visible' visible same

/-- If there was nothing of the name before the module, the procedure that can be called is
found. -/
theorem Assembly.Linked.find?_visible
    (missing : opened.procedures.find? (·.name == proc.name) = none) :
    a.builder.program.procedures.find? (·.name == proc.name) = some proc := by
  obtain ⟨since, begun⟩ := linked.begun
  have own : opened.visible a.builder.program =
      opened.procedures.filter (isGlobalName ·.name) ++ since := by
    rw [Program.visible, ← begun, drop_left]
  -- A procedure from before the module would have been found among the older ones.
  have member : proc ∈ since := by
    rw [own] at visible
    rcases mem_append.mp visible with exported | new
    · have early := (mem_filter.mp exported).1
      exact absurd (beq_self_eq_true proc.name) (find?_eq_none.mp missing proc early)
    · exact new
  rw [← begun, find?_append, missing, Option.none_or]
  cases found : since.find? (·.name == proc.name) with
  | none =>
    exact absurd (beq_self_eq_true proc.name) (find?_eq_none.mp found proc member)
  | some first =>
    have same : first.name = proc.name := by simpa using find?_some found
    have new : first ∈ opened.visible a.builder.program := by
      rw [own]
      exact mem_append_right _ (mem_of_find?_eq_some found)
    rw [linked.eq_of_name visible new same]

end Lookup

/-- A procedure of the final table is the one that the program finds under its name exactly if what
the modules before the last one have left under that name is this procedure or nothing. For an
exported procedure that is always so; for a private one the older procedure is found instead. -/
theorem interface_agrees_iff {settings : Settings} {before : List (List Text)} {lines : List Text}
    {a₀ a : Assembly} (earlier : assembleModules settings before (start settings) = .ok () a₀)
    (last : assembleModule settings lines a₀ = .ok () a) {s : Symbol}
    (listed : s ∈ a.table.symbols) (procedure : s.isProcedure = true) :
    s.procedure ∈ a.builder.program.procedures ∧
      (a.builder.program.procedureNamed? s.name = some s.procedure ↔
        ∀ older, a₀.builder.program.procedureNamed? s.name = some older → older = s.procedure) ∧
      (s.isExported = true → a.builder.program.procedureNamed? s.name = some s.procedure) ∧
      (∀ older, a₀.builder.program.procedureNamed? s.name = some older →
        a.builder.program.procedureNamed? s.name = some older) ∧
      (a.builder.program.procedureNamed? s.name = some s.procedure → ∀ (m : Machine) args,
        m.call a.builder.program s.name args = m.callAt a.builder.program s.value args) := by
  have linked := assembleModule_linked earlier last
  have visible : s.procedure ∈ a₀.builder.program.visible a.builder.program := by
    rw [← linked.symbols]
    refine List.mem_map_of_mem (SymbolTable.mem_codeSymbols.mpr ⟨?_, procedure⟩)
    exact List.mem_mergeSort.mp listed
  have member := Program.mem_of_mem_visible linked.begun visible
  have isName : IsName s.name := linked.named _ member
  have atEnd := Program.procedureNamed?_eq linked.named isName
  have atOpening := Program.procedureNamed?_eq (p := a₀.builder.program)
    (fun proc early => linked.named proc (linked.begun.subset early)) isName
  have agrees : a.builder.program.procedureNamed? s.name = some s.procedure ↔
      ∀ older, a₀.builder.program.procedureNamed? s.name = some older → older = s.procedure := by
    rw [atEnd, atOpening]
    constructor
    · intro found older early
      exact Option.some.inj ((linked.find?_older early).symm.trans found)
    · intro only
      cases early : a₀.builder.program.procedures.find? (·.name == s.name) with
      | none => exact linked.find?_visible visible early
      | some older => rw [← only older early, linked.find?_older early]
  refine ⟨member, agrees, ?_, ?_, ?_⟩
  · intro exported
    rw [agrees, atOpening]
    intro older early
    have same : older.name = s.name := by simpa using List.find?_some early
    refine linked.eq_of_name visible (List.mem_append_left _ ?_) same
    refine List.mem_filter.mpr ⟨List.mem_of_find?_eq_some early, ?_⟩
    rw [same]
    exact exported
  · rw [atEnd, atOpening]
    exact fun older early => linked.find?_older early
  · intro found m args
    rw [Machine.call, found]
    rfl

/-- The entries of the table and the procedures of the program. -/
def listingsSeen (_ : Unit) (a : Assembly) : List Symbol × List Procedure :=
  (a.table.entries, a.builder.program.procedures)

/-- A private procedure of an earlier module whose name is used again. -/
def reusedName : List (List Text) := [["proc a()", "1"]]

/-- A module with a procedure of the same name, and with an exported one. -/
def reusingModule : List Text := ["proc a(x)", "x", "proc $b()", "2"]

theorem reusedName_listings : ∃ a₀ a, assembleModules {} reusedName (start {}) = .ok () a₀ ∧
    assembleModule {} reusingModule a₀ = .ok () a ∧
    a.table.entries = [⟨"$return", .data 0x2000⟩, ⟨"a", .code 0x1001 1 0x2002⟩,
      ⟨"$b", .code 0x1003 0 0⟩] ∧
    a.builder.program.procedures = [⟨"a", 0x1000, 0⟩, ⟨"a", 0x1001, 1⟩, ⟨"$b", 0x1003, 0⟩] := by
  have listings : seen? {} (do
      assembleModules {} reusedName
      assembleModule {} reusingModule) listingsSeen =
      some ([⟨"$return", .data 0x2000⟩, ⟨"a", .code 0x1001 1 0x2002⟩, ⟨"$b", .code 0x1003 0 0⟩],
        [⟨"a", 0x1000, 0⟩, ⟨"a", 0x1001, 1⟩, ⟨"$b", 0x1003, 0⟩]) := by
    decide +kernel
  obtain ⟨_, a, ok, seen⟩ := seen?_eq_some listings
  obtain ⟨_, a₀, earlier, last⟩ := step_bind_ok_iff.mp ok
  obtain ⟨entries, procedures⟩ := Prod.mk.inj seen
  exact ⟨a₀, a, earlier, last, entries, procedures⟩

theorem interface_agrees_iff_reusedName :
    ∃ a₀ a, assembleModules {} reusedName (start {}) = .ok () a₀ ∧
      assembleModule {} reusingModule a₀ = .ok () a ∧
      (⟨"$b", .code 0x1003 0 0⟩ : Symbol) ∈ a.table.symbols ∧
      a.builder.program.procedureNamed? "$b" = some ⟨"$b", 0x1003, 0⟩ ∧
      (⟨"a", .code 0x1001 1 0x2002⟩ : Symbol) ∈ a.table.symbols ∧
      ∃ older, a₀.builder.program.procedureNamed? "a" = some older ∧ older ≠ ⟨"a", 0x1001, 1⟩ := by
  obtain ⟨a₀, a, earlier, last, entries, procedures⟩ := reusedName_listings
  have listed (s : Symbol) (member : s ∈ a.table.entries) : s ∈ a.table.symbols :=
    List.mem_mergeSort.mpr member
  rw [entries] at listed
  have exported := listed ⟨"$b", .code 0x1003 0 0⟩ (by simp)
  have own := listed ⟨"a", .code 0x1001 1 0x2002⟩ (by simp)
  obtain ⟨-, -, found, -, -⟩ := interface_agrees_iff earlier last exported rfl
  obtain ⟨-, agrees, -, -, -⟩ := interface_agrees_iff earlier last own rfl
  refine ⟨a₀, a, earlier, last, exported, found rfl, own, ?_⟩
  have misled : a.builder.program.procedureNamed? "a" = some ⟨"a", 0x1000, 0⟩ := by
    rw [Program.procedureNamed?, procedures]
    decide
  have differ : ¬ ∀ older, a₀.builder.program.procedureNamed? "a" = some older →
      older = ⟨"a", 0x1001, 1⟩ := by
    intro only
    exact absurd (misled.symm.trans (agrees.mpr only)) (by decide)
  obtain ⟨older, differ⟩ := not_forall.mp differ
  exact ⟨older, Classical.not_imp.mp differ⟩

/-- A private procedure is listed, but a call of its name goes to an older one. -/
theorem reusedName_misleads :
    ∃ a₀ a, assembleModules {} reusedName (start {}) = .ok () a₀ ∧
      assembleModule {} reusingModule a₀ = .ok () a ∧
      (⟨"a", .code 0x1001 1 0x2002⟩ : Symbol) ∈ a.table.symbols ∧
      a.builder.program.procedureNamed? "a" = some ⟨"a", 0x1000, 0⟩ := by
  obtain ⟨a₀, a, earlier, last, entries, procedures⟩ := reusedName_listings
  refine ⟨a₀, a, earlier, last, List.mem_mergeSort.mpr ?_, ?_⟩
  · rw [entries]
    simp
  · rw [Program.procedureNamed?, procedures]
    decide

end HighAsm
