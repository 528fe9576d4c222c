import HighAsm.Proofs.Agreement
import HighAsm.Proofs.ProcedureNames

/-!
# The symbols of a module

A module names its memory and one function for every procedure. An exported procedure gives its own
name, with underscores for dots, and any other procedure its entry. Exported names are different,
but four things can still bring two symbols together: names that differ only in dots and
underscores, private procedures with one entry, an exported procedure called `$mem`, and one that is
called as if it were named for an entry. Without these (`SymbolsApart`) all symbols are different,
and a call goes to the function of the procedure that begins at its target.
-/

namespace HighAsm

open List

/-- The symbols that a module defines: its memory and its functions. -/
def IL.Module.symbols (m : Module) : List String := "mem" :: m.functions.map (·.name)

namespace Lowering

/-- A name with underscores for its dots. -/
def undotted (name : String) : String :=
  String.ofList (name.toList.map fun c => if c = '.' then '_' else c)

/-- The digits that an entry is written with. -/
def entryDigits (entry : Int) : String :=
  String.ofList ((Text.hex 4 entry).map fun b => Char.ofNat b.toNat)

/-! ## Functions and their names -/

section Names

variable {p : Program} {proc : Procedure} {module : IL.Module}

/-- The mark of a global stands in front of the name only. -/
theorem functionName_exported (isName : IsName proc.name) (exported : functionName.isGlobal proc) :
    "$" ++ functionName proc = undotted proc.name := by
  obtain ⟨c, rest, spelled, -, parts⟩ := isName
  have mark : c = '$' := by
    simpa [functionName.isGlobal, spelled] using exported
  have noMark : ∀ d ∈ rest, (d != '$') = true := by
    intro d member
    have part := parts d member
    rw [bne_iff_ne]
    rintro rfl
    exact absurd part (by decide)
  apply String.toList_injective
  simp only [functionName, if_pos exported, undotted, spelled, mark, String.toList_append,
    String.toList_ofList]
  rw [filter_cons_of_neg (by decide), filter_eq_self.mpr noMark]
  rfl

theorem functionName_private (exported : functionName.isGlobal proc = false) :
    functionName proc = "p_" ++ entryDigits proc.entry := by
  rw [functionName, exported]
  rfl

theorem entryDigits_injective : Function.Injective entryDigits := by
  have code (b : UInt8) : (Char.ofNat b.toNat).toNat = b.toNat := by
    have valid : b.toNat.isValidChar := .inl (Nat.lt_trans b.toNat_lt (by decide))
    rw [Char.ofNat, dif_pos valid]
    rfl
  have bytes : Function.Injective fun b : UInt8 => Char.ofNat b.toNat := by
    intro b b' same
    have both := congrArg Char.toNat same
    rw [code, code] at both
    exact UInt8.toNat_inj.mp both
  intro m n same
  exact Text.hex_injective 4 (map_injective_iff.mpr bytes (String.ofList_injective same))

/-- A name that comes out without underscores had no dots. -/
theorem eq_of_undotted_eq {name text : String} (plain : '_' ∉ text.toList)
    (same : undotted name = text) : name = text := by
  subst same
  rw [undotted, String.toList_ofList] at plain
  have unchanged : name.toList.map id = name.toList.map fun c => if c = '.' then '_' else c := by
    refine map_congr_left fun c member => ?_
    rw [if_neg]
    · rfl
    · rintro rfl
      exact plain (mem_map.mpr ⟨_, member, rfl⟩)
  apply String.toList_injective
  rw [undotted, String.toList_ofList, ← unchanged, map_id]

/-- Only one procedure can take the symbol of the memory. -/
theorem functionName_eq_mem_iff (isName : IsName proc.name) :
    functionName proc = "mem" ↔ proc.name = "$mem" := by
  constructor
  · intro same
    cases exported : functionName.isGlobal proc with
    | true =>
      have spelled := functionName_exported isName exported
      rw [same] at spelled
      exact eq_of_undotted_eq (by decide) spelled.symm
    | false =>
      rw [functionName_private exported] at same
      have heads := congrArg (fun s => s.toList.head?) same
      simp at heads
  · intro same
    have exported : functionName.isGlobal proc = true := by
      rw [functionName.isGlobal, same]
      decide
    rw [functionName, if_pos exported, same]
    decide

/-- Images are different if they are on either side of a test, and from one side to the other. -/
theorem nodup_map_iff_sides {α β : Type} (f : α → β) (test : α → Bool) (xs : List α) :
    (xs.map f).Nodup ↔ ((xs.filter test).map f).Nodup ∧ ((xs.filter (!test ·)).map f).Nodup ∧
      ∀ x ∈ xs, ∀ y ∈ xs, test x = true → test y = false → f x ≠ f y := by
  have sides := ((filter_append_perm test xs).map f).nodup_iff
  rw [← sides, map_append, nodup_append]
  grind

/-- What keeps the symbols of a program apart, beyond the names of exported procedures being
different. -/
structure SymbolsApart (p : Program) : Prop where
  exported : ∀ a ∈ p.procedures, ∀ b ∈ p.procedures, functionName.isGlobal a →
    functionName.isGlobal b → undotted a.name = undotted b.name → a.name = b.name
  entries : ((p.procedures.filter (!functionName.isGlobal ·)).map (·.entry)).Nodup
  memory : ∀ a ∈ p.procedures, a.name ≠ "$mem"
  mixed : ∀ a ∈ p.procedures, ∀ b ∈ p.procedures, functionName.isGlobal a →
    functionName.isGlobal b = false → undotted a.name ≠ "$p_" ++ entryDigits b.entry

theorem nodup_map_exported (named : ∀ proc ∈ p.procedures, IsName proc.name)
    (distinct : ((p.procedures.filter functionName.isGlobal).map (·.name)).Nodup) :
    ((p.procedures.filter functionName.isGlobal).map functionName).Nodup ↔
      ∀ a ∈ p.procedures, ∀ b ∈ p.procedures, functionName.isGlobal a →
        functionName.isGlobal b → undotted a.name = undotted b.name → a.name = b.name := by
  have same_iff : ∀ a ∈ p.procedures, ∀ b ∈ p.procedures, functionName.isGlobal a →
      functionName.isGlobal b →
      (functionName a = functionName b ↔ undotted a.name = undotted b.name) := by
    intro a inA b inB exportedA exportedB
    rw [← functionName_exported (named a inA) exportedA,
      ← functionName_exported (named b inB) exportedB, String.append_right_inj]
  constructor
  · intro nodup a inA b inB exportedA exportedB same
    have equal := inj_on_of_nodup_map nodup (mem_filter.mpr ⟨inA, exportedA⟩)
      (mem_filter.mpr ⟨inB, exportedB⟩) ((same_iff a inA b inB exportedA exportedB).mpr same)
    rw [equal]
  · intro apart
    apply List.Nodup.map_on _ distinct.of_map
    intro a filteredA b filteredB same
    obtain ⟨inA, exportedA⟩ := mem_filter.mp filteredA
    obtain ⟨inB, exportedB⟩ := mem_filter.mp filteredB
    apply inj_on_of_nodup_map distinct filteredA filteredB
    exact apart a inA b inB exportedA exportedB
      ((same_iff a inA b inB exportedA exportedB).mp same)

theorem nodup_map_private :
    ((p.procedures.filter (!functionName.isGlobal ·)).map functionName).Nodup ↔
      ((p.procedures.filter (!functionName.isGlobal ·)).map (·.entry)).Nodup := by
  have named : (p.procedures.filter (!functionName.isGlobal ·)).map functionName =
      ((p.procedures.filter (!functionName.isGlobal ·)).map (·.entry)).map
        fun entry => "p_" ++ entryDigits entry := by
    rw [map_map]
    refine map_congr_left fun proc member => ?_
    exact functionName_private (by simpa using (mem_filter.mp member).2)
  rw [named, nodup_map_iff]
  intro m n same
  exact entryDigits_injective ((String.append_right_inj _).mp same)

theorem nodup_symbols_iff (ok : program p = .ok module)
    (named : ∀ proc ∈ p.procedures, IsName proc.name)
    (distinct : ((p.procedures.filter functionName.isGlobal).map (·.name)).Nodup) :
    module.symbols.Nodup ↔ SymbolsApart p := by
  have memory : "mem" ∉ p.procedures.map functionName ↔
      ∀ a ∈ p.procedures, a.name ≠ "$mem" := by
    rw [mem_map, not_exists]
    refine forall_congr' fun a => ?_
    rw [not_and]
    refine forall_congr' fun member => ?_
    rw [functionName_eq_mem_iff (named a member)]
  have mixed : ∀ a ∈ p.procedures, ∀ b, functionName.isGlobal a = true →
      functionName.isGlobal b = false →
      (functionName a = functionName b ↔ undotted a.name = "$p_" ++ entryDigits b.entry) := by
    intro a inA b exportedA exportedB
    rw [← functionName_exported (named a inA) exportedA, functionName_private exportedB]
    have mark : "$p_" ++ entryDigits b.entry = "$" ++ ("p_" ++ entryDigits b.entry) := by
      rfl
    rw [mark, String.append_right_inj]
  rw [IL.Module.symbols, names_functions ok, nodup_cons,
    nodup_map_iff_sides functionName functionName.isGlobal, memory,
    nodup_map_exported named distinct, nodup_map_private]
  constructor
  · rintro ⟨memory, exported, entries, apart⟩
    refine ⟨exported, entries, memory, ?_⟩
    intro a inA b inB exportedA exportedB same
    exact apart a inA b inB exportedA exportedB ((mixed a inA b exportedA exportedB).mpr same)
  · intro apart
    refine ⟨apart.memory, apart.exported, apart.entries, ?_⟩
    intro a inA b inB exportedA exportedB same
    exact apart.mixed a inA b inB exportedA exportedB ((mixed a inA b exportedA exportedB).mp same)

end Names

/-! ## Calls -/

section Calls

variable {p : Program} {module : IL.Module} {c : Context} {used used' : Nat} {address : Int}
  {i : Instr} {b : IL.Block}

/-- Only a call instruction is lowered to a call. -/
theorem instr_callee?_eq_none (ok : instr c used address i = .ok (b, used'))
    (notCall : ∀ entry, i ≠ .call entry) : ∀ j ∈ b.instrs, j.callee? = none := by
  cases i with
  | load source =>
    cases ok
    have row := (row_operand c.program 0 0 used source).1
    exact forall_mem_append.mpr ⟨row.calls, forall_mem_singleton.mpr rfl⟩
  | binary op right =>
    cases ok
    exact (row_binary c.program 0 0 used op right).calls
  | loadIndirect | store | storeIndirect | copyToTemp | loopIndex | ret =>
    cases ok
    simp [loadFrom, pointerAcc, pointerTo, IL.Instr.callee?]
  | loadParam register source =>
    obtain ⟨_, -, ok⟩ := bind_ok_iff.mp ok
    cases ok
    have row := (row_operand c.program 0 0 used source).1
    exact forall_mem_append.mpr ⟨row.calls, forall_mem_singleton.mpr rfl⟩
  | storeParam | loopHead | loopNext =>
    obtain ⟨_, -, ok⟩ := bind_ok_iff.mp ok
    cases ok
    simp [pointerTo, IL.Instr.callee?]
  | jump test =>
    obtain ⟨_, -, ok⟩ := bind_ok_iff.mp ok
    cases test <;>
      · cases ok
        simp [IL.Instr.callee?]
  | call entry => exact absurd rfl (notCall entry)
  | undefined => contradiction

theorem instr_calls (ok : instr c used address i = .ok (b, used')) {j : IL.Instr}
    (member : j ∈ b.instrs) {name : String} (calls : j.callee? = some name) :
    ∃ entry callee, i = .call entry ∧ c.program.procedureAt? entry = some callee ∧
      name = functionName callee := by
  by_cases call : ∃ entry, i = .call entry
  · obtain ⟨entry, rfl⟩ := call
    cases found : c.program.procedureAt? entry with
    | none =>
      simp only [instr, found] at ok
      contradiction
    | some callee =>
      rw [instr_call found, Except.ok.injEq, Prod.mk.injEq] at ok
      obtain ⟨rfl, -⟩ := ok
      obtain rfl := mem_singleton.mp member
      exact ⟨entry, callee, rfl, found, (Option.some.inj calls).symm⟩
  · have quiet := instr_callee?_eq_none ok (fun entry same => call ⟨entry, same⟩) j member
    rw [quiet] at calls
    contradiction

/-- Only one function has the name, and it is what the first procedure with the entry is lowered
to. -/
def Denotes (p : Program) (module : IL.Module) (name : String) (entry : Int) : Prop :=
  ∃ k callee f u u', p.procedures.findIdx? (·.entry == entry) = some k ∧
    p.procedures[k]? = some callee ∧ function p u callee (p.stopAt k) = .ok (f, u') ∧
    module.functions[k]? = some f ∧ ∀ g ∈ module.functions, g.name = name ↔ g = f

theorem denotes_of_nodup (ok : program p = .ok module)
    (distinct : (module.functions.map (·.name)).Nodup) {entry : Int} {callee : Procedure}
    (found : p.procedureAt? entry = some callee) :
    Denotes p module (functionName callee) entry := by
  obtain ⟨-, pointwise⟩ := functions_ok (program_ok ok).2.2
  obtain ⟨begins, k, inside, rfl, earlier⟩ := find?_eq_some_iff_getElem.mp found
  obtain ⟨f, u, u', here, made⟩ := pointwise k _ (getElem?_eq_getElem inside)
  have name : f.name = functionName p.procedures[k] := by
    obtain ⟨-, _, _, -, -, rfl⟩ := function_ok made
    rfl
  refine ⟨k, _, f, u, u', ?_, getElem?_eq_getElem inside, made, here, ?_⟩
  · exact findIdx?_eq_some_iff_getElem.mpr ⟨inside, begins, by simpa using earlier⟩
  · intro g member
    rw [← name]
    refine ⟨fun same => ?_, fun same => same ▸ rfl⟩
    exact inj_on_of_nodup_map distinct member (mem_of_getElem? here) same

theorem block_calls (ok : program p = .ok module) (addressable : p.Addressable) {f : IL.Function}
    (known : f ∈ module.functions) (member : b ∈ f.blocks) {j : IL.Instr} (inside : j ∈ b.instrs)
    {name : String} (calls : j.callee? = some name) :
    ∃ address entry callee, b.label = .code address ∧ p.instr? address = some (.call entry) ∧
      p.procedureAt? entry = some callee ∧ name = functionName callee := by
  obtain ⟨proc, u, u', stop, -, made⟩ := exists_function ok known
  rcases block_cases addressable made member with ⟨params, heads, rfl⟩ | rfl |
    ⟨c, u, u', address, i, rfl, here, lowered⟩
  · have quiet : ∀ j ∈ (prologue params heads).instrs, j.callee? = none := by
      simp only [prologue, forall_mem_append, forall_mem_cons, forall_mem_map,
        IL.Instr.callee?]
      simp
    rw [quiet j inside] at calls
    contradiction
  · contradiction
  · obtain ⟨entry, callee, rfl, found, same⟩ := instr_calls lowered inside calls
    exact ⟨address, entry, callee, instr_label lowered, here, found, same⟩

end Calls

/-- The exported names of an assembled program are different. Its symbols are different exactly when
nothing brings two of them together, and then every call in the module stands in the block of a call
instruction and goes to the one function of the procedure that begins at its target. -/
theorem symbols_nodup_iff_apart {settings : Settings} {modules : List (List Text)} {p : Program}
    {module : IL.Module} (assembled : Assembly.program? settings modules = some p)
    (addressable : p.Addressable) (lowered : program p = .ok module) :
    ((p.procedures.filter functionName.isGlobal).map (·.name)).Nodup ∧
    (module.symbols.Nodup ↔ SymbolsApart p) ∧
    (module.symbols.Nodup → ∀ f ∈ module.functions, ∀ b ∈ f.blocks, ∀ i ∈ b.instrs,
      ∀ name, i.callee? = some name → ∃ address entry, b.label = .code address ∧
        p.instr? address = some (.call entry) ∧ Denotes p module name entry) := by
  obtain ⟨routines, written, -⟩ := assembled_madeOf assembled addressable
  obtain ⟨named, distinct⟩ := written.names
  refine ⟨distinct, nodup_symbols_iff lowered named distinct, ?_⟩
  intro nodup f known b member i inside name calls
  obtain ⟨address, entry, callee, label, here, found, rfl⟩ :=
    block_calls lowered addressable known member inside calls
  exact ⟨address, entry, label, here,
    denotes_of_nodup lowered (List.nodup_cons.mp nodup).2 found⟩

/-- A module with an exported and a private procedure, and another one with a private procedure.
Both private ones call the exported one. -/
def librarySource : List (List Text) :=
  [["proc $lib.next(n)", "n+1", "proc helper()", "$lib.next(2)"].map Text.ofString,
    ["proc main()", "$lib.next(3)"].map Text.ofString]

/-- The program that `librarySource` is assembled to. -/
def library : Program :=
  { code := #[.storeParam 0 0x2002, .load (.var 0x2002), .binary .add (.const 1),
      .loadParam 0 (.const 2), .call 0x1000, .loadParam 0 (.const 3), .call 0x1000]
    data := #[0, 0, 0, 0]
    procedures := [⟨"$lib.next", 0x1000, 1⟩, ⟨"helper", 0x1003, 0⟩, ⟨"main", 0x1005, 0⟩] }

theorem symbols_nodup_iff_apart_library :
    Assembly.program? {} librarySource = some library ∧
    ∃ module, program library = .ok module ∧
      module.symbols = ["mem", "lib_next", "p_1003", "p_1005"] ∧ SymbolsApart library ∧
      Denotes library module "lib_next" 0x1000 := by
  have assembled : Assembly.program? {} librarySource = some library := by decide +kernel
  have addressable : library.Addressable := by
    unfold Program.Addressable
    decide
  have lowers : ((program library).map fun module => (module.symbols,
      module.functions.any fun f => f.blocks.any fun b =>
        b.label == .code 0x1006 && b.instrs.any (·.callee? == some "lib_next"))).toOption =
      some (["mem", "lib_next", "p_1003", "p_1005"], true) := by
    decide +kernel
  obtain ⟨module, lowered, same⟩ := map_ok_iff.mp (ok_of_toOption lowers)
  obtain ⟨symbols, called⟩ := Prod.mk.inj same
  obtain ⟨-, apart, denotes⟩ := symbols_nodup_iff_apart assembled addressable lowered
  have nodup : module.symbols.Nodup := by
    rw [symbols]
    decide
  refine ⟨assembled, module, lowered, symbols, apart.mp nodup, ?_⟩
  obtain ⟨f, known, some_⟩ := List.any_eq_true.mp called
  obtain ⟨b, member, both⟩ := List.any_eq_true.mp some_
  obtain ⟨label, calls⟩ := Bool.and_eq_true_iff.mp both
  obtain ⟨i, inside, callee⟩ := List.any_eq_true.mp calls
  obtain ⟨address, entry, labelled, here, denotes⟩ :=
    denotes nodup f known b member i inside "lib_next" (beq_iff_eq.mp callee)
  rw [beq_iff_eq.mp label] at labelled
  obtain rfl := IL.Label.code.inj labelled
  have target : library.instr? 0x1006 = some (.call 0x1000) := by decide
  rw [target] at here
  obtain rfl := Instr.call.inj (Option.some.inj here)
  exact denotes

/-- Two exported procedures whose names differ in a dot and an underscore. -/
def dottedSource : List Text := ["proc $a.b()", "1", "proc $a_b()", "2"].map Text.ofString

/-- The program that `dottedSource` is assembled to. -/
def dotted : Program :=
  { code := #[.load (.const 1), .load (.const 2)]
    data := #[0, 0]
    procedures := [⟨"$a.b", 0x1000, 0⟩, ⟨"$a_b", 0x1001, 0⟩] }

/-- Two procedures with different names have functions of one name. -/
theorem dotted_symbols :
    Assembly.program? {} [dottedSource] = some dotted ∧ ∃ module, program dotted = .ok module ∧
      module.symbols = ["mem", "a_b", "a_b"] ∧ ¬ module.symbols.Nodup := by
  have lowers : ((program dotted).map (·.symbols)).toOption = some ["mem", "a_b", "a_b"] := by
    decide +kernel
  obtain ⟨module, lowered, symbols⟩ := map_ok_iff.mp (ok_of_toOption lowers)
  refine ⟨by decide +kernel, module, lowered, symbols, ?_⟩
  rw [symbols]
  decide

end Lowering

end HighAsm
