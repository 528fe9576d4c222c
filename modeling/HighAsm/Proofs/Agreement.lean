import HighAsm.Proofs.ClosedIL
import HighAsm.Proofs.LoweredSteps
import Mathlib.Data.List.Nodup

/-!
# The machine and lowered code agree on memory

An assembled program is lowered to a module whose blob has the memory of a machine in which the
program is loaded. From then on, whenever a call of a procedure returns on the machine, the function
of the procedure returns as well and leaves the same bytes in the blob. What this needs is that a
name and an entry stand for one procedure each, that calls pass the arguments that are asked for,
that the code of no procedure goes past the last address, and that no word at the two ends of memory
is accessed.
-/

namespace HighAsm

open List Memory

/-! ## The memory blob -/

namespace IL

/-- The bytes of a piece of the blob. -/
def Item.contents : Item → List UInt8
  | zeros count => List.replicate count.toNat 0
  | bytes values => values

/-- The bytes of the blob. -/
def Module.image (m : Module) : List UInt8 := m.memory.flatMap Item.contents

/-- What storage a step that returns leaves. -/
def Outcome.storage? : Outcome → Option Storage
  | .returned _ storage => some storage
  | _ => none

end IL

theorem Memory.get_load {m : Memory} {start k : Nat} {bytes : List UInt8}
    (fits : start + bytes.length ≤ size) (inside : k < size) :
    (m.load start bytes).get k =
      if start ≤ k then (bytes[k - start]?).getD (m.get k) else m.get k := by
  induction bytes generalizing m start with
  | nil => simp [load]
  | cons b rest ih =>
    rw [length_cons] at fits
    have whole : Nat.pow 2 16 = size := rfl
    have written : (m.set start b).get k = if start = k then b else m.get k := by
      rw [CellTree.get_set, whole, Nat.mod_eq_of_lt inside, Nat.mod_eq_of_lt (by omega)]
    rw [load, if_pos (by omega), ih (by omega), written]
    rcases Nat.lt_trichotomy start k with before | rfl | after
    · have next : k - start = k - (start + 1) + 1 := by omega
      rw [if_pos (show start + 1 ≤ k from before), if_neg (Nat.ne_of_lt before),
        if_pos (Nat.le_of_lt before), next, getElem?_cons_succ]
    · rw [if_neg (Nat.not_succ_le_self start), if_pos rfl, if_pos (Nat.le_refl start), Nat.sub_self]
      rfl
    · rw [if_neg (show ¬ start + 1 ≤ k by omega), if_neg (Nat.ne_of_gt after),
        if_neg (Nat.not_le_of_lt after)]

namespace Lowering

open IL

variable {p : Program} {module : IL.Module} {m : Machine}

/-- A loaded machine has the data image in its place, and zeros around it. -/
theorem get_loaded (data : 0 ≤ p.dataBase ∧ p.dataBase + p.data.size ≤ memorySize)
    (loaded : Machine.load p = .ok m) {k : Nat} (inside : k < size) :
    m.memory.get k =
      if p.dataBase.toNat ≤ k then (p.data.toList[k - p.dataBase.toNat]?).getD 0 else 0 := by
  have memory : m.memory = zeros.load (cell p.dataBase) p.data.toList := by
    unfold Machine.load at loaded
    split at loaded
    · contradiction
    · cases loaded
      rfl
  have zero : zeros.get k = 0 := CellTree.get_fill ..
  unfold memorySize at data
  by_cases empty : p.data.toList = []
  · rw [memory, empty, load, zero]
    simp
  · have some_ : 0 < p.data.size := by
      have := length_pos_iff.mpr empty
      rwa [Array.length_toList] at this
    have cell : cell p.dataBase = p.dataBase.toNat := by
      unfold cell
      omega
    rw [memory, cell, get_load _ inside, zero]
    rw [Array.length_toList, size]
    omega

section

variable (ok : program p = .ok module)
  (data : 0 ≤ p.dataBase ∧ p.dataBase + p.data.size ≤ memorySize)
include ok data

theorem image_eq :
    module.image = List.replicate p.dataBase.toNat 0 ++ p.data.toList ++
      List.replicate (size - (p.dataBase.toNat + p.data.size)) 0 := by
  obtain ⟨-, image, -⟩ := program_ok ok
  obtain ⟨from_, until_⟩ := data
  unfold memorySize at until_
  have end_ : p.dataEnd = p.dataBase + p.data.size := by
    rw [Program.dataEnd, wrap64_eq_bmod]
    exact Int.bmod_eq_of_le (by omega) (by omega)
  have rest : wrap64 (memorySize - p.dataEnd) = memorySize - p.dataEnd := by
    rw [wrap64_eq_bmod, end_, memorySize]
    exact Int.bmod_eq_of_le (by omega) (by omega)
  have room : (memorySize - p.dataEnd).toNat =
      size - (p.dataBase.toNat + p.data.size) := by
    rw [end_, memorySize, size]
    omega
  have zeros (count : Int) : (if 0 < count then [Item.zeros count] else []).flatMap Item.contents =
      List.replicate count.toNat 0 := by
    split
    · simp [Item.contents]
    · rw [Int.toNat_of_nonpos (by omega)]
      rfl
  have bytes : (if p.data.isEmpty then [] else [Item.bytes p.data.toList]).flatMap Item.contents =
      p.data.toList := by
    split
    · next empty => simp_all
    · simp [Item.contents]
  unfold memory at image
  rw [if_neg (by rw [end_, memorySize]; omega)] at image
  have items := Except.ok.inj image
  simp only [rest] at items
  rw [Module.image, ← items, flatMap_append, flatMap_append, zeros, zeros, bytes, room]

theorem image_loaded (loaded : Machine.load p = .ok m) :
    module.image = (List.range size).map m.memory.get := by
  have fits : p.dataBase.toNat + p.data.size ≤ size := by
    unfold memorySize at data
    unfold size
    omega
  have length : module.image.length = size := by
    rw [image_eq ok data]
    simp only [length_append, length_replicate, Array.length_toList]
    omega
  apply ext_getElem
  · rw [length, length_map, length_range]
  intro k inside _
  rw [length] at inside
  rw [getElem_map, getElem_range, get_loaded data loaded inside]
  simp only [image_eq ok data]
  by_cases before : k < p.dataBase.toNat
  · rw [getElem_append_left (by simp; omega), getElem_append_left (by simpa using before),
      getElem_replicate, if_neg (Nat.not_le_of_lt before)]
  · rw [if_pos (Nat.not_lt.mp before)]
    by_cases within : k < p.dataBase.toNat + p.data.size
    · rw [getElem_append_left (by simpa using within),
        getElem_append_right (by simpa using before)]
      simp only [length_replicate]
      rw [getElem?_eq_getElem, Option.getD_some]
    · rw [getElem_append_right (by simp; omega), getElem_replicate,
        getElem?_eq_none (by simp; omega), Option.getD_none]

end

/-! ## The functions of routines -/

section Hosting

variable {p : Program} {routines : List Routine} {module : IL.Module} {r : Routine} {q : Nat}

theorem program_isOk (made : p.MadeOf routines) (addressable : p.Addressable)
    (twoBytes : p.wordSize = 2) (params : 0 ≤ p.maxParams ∧ p.maxParams ≤ maxParams)
    (data : 0 ≤ p.dataBase ∧ p.dataBase + p.data.size ≤ memorySize) :
    ∃ module, program p = .ok module := by
  obtain ⟨items, image⟩ := memory_isOk data.1 data.2
  have all : routines = [] ++ routines := rfl
  obtain ⟨fs, -, lowered, -⟩ := functions_tame made addressable params all 0
  have whole : Routine.procedures p.codeBase (Routine.extent []) routines = p.procedures :=
    made.procedures.symm
  rw [whole] at lowered
  refine ⟨⟨items, fs⟩, ?_⟩
  unfold program
  rw [if_neg (not_not_intro twoBytes)]
  exact bind_ok_iff.mpr ⟨_, image, bind_ok_iff.mpr ⟨_, lowered, rfl⟩⟩

theorem function?_name (distinct : (module.functions.map (·.name)).Nodup) {f : IL.Function}
    (member : f ∈ module.functions) : module.function? f.name = some f := by
  obtain ⟨g, found⟩ : ∃ g, module.function? f.name = some g := by
    apply Option.isSome_iff_exists.mp
    exact find?_isSome.mpr ⟨f, member, beq_self_eq_true _⟩
  have named : (g.name == f.name) = true :=
    find?_some (p := fun (h : IL.Function) => h.name == f.name) found
  have listed : g ∈ module.functions := mem_of_find?_eq_some found
  rw [found, inj_on_of_nodup_map distinct listed member (beq_iff_eq.mp named)]

theorem names_functions (ok : program p = .ok module) :
    module.functions.map (·.name) = p.procedures.map functionName := by
  obtain ⟨length, pointwise⟩ := functions_ok (program_ok ok).2.2
  apply ext_getElem
  · simpa using length
  intro k _ inside
  rw [length_map] at inside
  obtain ⟨f, u, u', here, made⟩ := pointwise k _ (getElem?_eq_getElem inside)
  obtain ⟨-, _, _, -, -, rfl⟩ := function_ok made
  rw [List.getElem_map, List.getElem_map, (List.getElem?_eq_some_iff.mp here).2]

variable (made : p.MadeOf routines)
include made

/-- The procedure of a routine is listed, with its stop behind the code of the routine. -/
theorem procedure_listed (placed : Placed routines q r) :
    ∃ i, p.procedures[i]? = some (r.procedure p.codeBase q) ∧
      p.stopAt i = codeAddress p.codeBase (q + r.size) := by
  obtain ⟨before, after, split, rfl⟩ := placed
  have here : routines[before.length]? = some r := by simp [split]
  have front : routines.take before.length = before := by simp [split]
  have stop := made.stopAt_eq here
  rw [front] at stop
  refine ⟨before.length, ?_, stop⟩
  rw [made.procedures, Routine.procedures_getElem?, here, front, Nat.zero_add]
  rfl

/-- The code of a routine is what stands between its entry and its stop, unless it goes past the
last address. -/
theorem slice_forward (addressable : p.Addressable) (placed : Placed routines q r)
    (forward : codeAddress p.codeBase q ≤ codeAddress p.codeBase (q + r.size)) :
    slice p (codeAddress p.codeBase q) (codeAddress p.codeBase (q + r.size)) =
      .ok (r.code p.codeBase q) := by
  have bound : q + r.size < 0x8000000000000000 :=
    Nat.lt_of_le_of_lt (placed.end_le made) addressable
  rw [slice_routine made addressable placed]
  split
  · rfl
  · next notBefore =>
    have same := Int.le_antisymm forward (Int.not_lt.mp notBefore)
    rw [codeAddress_inj (by omega) bound] at same
    have empty : r.code p.codeBase q = [] := by
      apply eq_nil_of_length_eq_zero
      rw [Routine.length_code]
      omega
    rw [empty]

variable (addressable : p.Addressable) (ok : program p = .ok module)
include addressable ok

/-- The function of a routine hosts its code. -/
theorem hosts_routine (ordered : ∀ i proc, p.procedures[i]? = some proc → proc.entry ≤ p.stopAt i)
    (placed : Placed routines q r) :
    ∃ f ∈ module.functions, f.name = functionName (r.procedure p.codeBase q) ∧
      Hosts p f q (q + r.size) := by
  obtain ⟨i, listed, stop⟩ := procedure_listed made placed
  have forward := ordered i _ listed
  rw [stop] at forward
  have cut := slice_forward made addressable placed forward
  obtain ⟨-, pointwise⟩ := functions_ok (program_ok ok).2.2
  obtain ⟨f, u, u', found, lowered⟩ := pointwise i _ listed
  rw [← Program.stopAt, stop] at lowered
  refine ⟨f, mem_of_getElem? found, ?_, ?_⟩
  · obtain ⟨-, _, _, -, -, rfl⟩ := function_ok lowered
    rfl
  · have length : (r.code p.codeBase q).length = r.size := r.length_code ..
    have ended := placed.end_le made
    rw [← length] at lowered cut ended ⊢
    exact hosts_of_function rfl ended addressable (placed.hasCode made) cut lowered

theorem hosting_of_program (names : (p.procedures.map functionName).Nodup)
    (ordered : ∀ i proc, p.procedures[i]? = some proc → proc.entry ≤ p.stopAt i)
    (enough : p.PassesEnough) : Hosting p routines module where
  made := made
  addressable := addressable
  twoBytes := (program_ok ok).1
  enough := enough
  hosted q r placed := by
    obtain ⟨f, member, named, hosts⟩ := hosts_routine made addressable ok ordered placed
    refine ⟨f, ?_, hosts⟩
    rw [← named]
    exact function?_name (names_functions ok ▸ names) member

end Hosting

/-! ## Calls -/

/-- Words are passed for the arguments of a call: each has the low 16 bits of its argument. -/
def Represent (words : List (BitVec 32)) (args : List Int) : Prop :=
  ∀ (i : Nat) (n : Int), args[i]? = some n →
    ∃ x, words[i]? = some x ∧ x.setWidth 16 = BitVec.ofInt 16 n

/-- The registers of a call from outside have the bits of the words that are passed. -/
theorem passed_of_represent {args : List Int} {words : List (BitVec 32)} {entry : Int}
    {number : Nat} (twoBytes : p.wordSize = 2) (few : args.length ≤ m.params.count)
    (represent : Represent words args) (inside : number < args.length) :
    ∃ n x, (m.entered p entry args).params.get? number = some n ∧ words[number]? = some x ∧
      x.setWidth 16 = BitVec.ofInt 16 n := by
  obtain ⟨x, word, low⟩ := represent number _ (getElem?_eq_getElem inside)
  refine ⟨signedWord 2 args[number], x, ?_, word, ?_⟩
  · rw [Machine.entered]
    rw [Registers.get?_fill (by simpa using few) (Nat.zero_le _) (by simpa using inside)]
    simp [inside, Machine.wrap_eq, twoBytes]
  · rw [low]
    exact BitVec.ofInt_toInt.symm

/-- What a call of the loaded machine comes to: its result, the byte at an address after it, and
whether all its accesses stay off the two ends of memory. -/
def callOutcome? (p : Program) (entry : Int) (args : List Int) (address : Int) :
    Option (Option Int × UInt8 × Bool) :=
  (Machine.load p).toOption.map fun m =>
    ((m.callAt p entry args).1.toOption, (m.callAt p entry args).2.memory.byte address,
      (m.callVisits p entry args).all fun v => (v.access? p).all fun a => !decide a.Wraps)

theorem exists_call_of_callOutcome? {entry : Int} {args : List Int} {address n : Int} {byte : UInt8}
    (outcome : callOutcome? p entry args address = some (some n, byte, true)) :
    ∃ m m', Machine.load p = .ok m ∧ m.callAt p entry args = (.ok n, m') ∧
      m'.memory.byte address = byte ∧
      ∀ v ∈ m.callVisits p entry args, ∀ a, v.access? p = some a → ¬ a.Wraps := by
  obtain ⟨m, loaded, same⟩ := Option.map_eq_some_iff.mp outcome
  obtain ⟨result, others⟩ := Prod.mk.inj same
  obtain ⟨stored, clear⟩ := Prod.mk.inj others
  refine ⟨m, _, ok_of_toOption loaded, Prod.ext (ok_of_toOption result) rfl, stored, ?_⟩
  intro v member a accesses
  have fine := all_eq_true.mp clear v member
  rw [accesses] at fine
  simpa using fine

/-- The blob of an assembled program has the memory that the program is loaded to. What a call of a
procedure leaves in memory, its function leaves in the blob, and nothing else changes. -/
theorem lowered_agrees {settings : Settings} {modules : List (List Text)} {p : Program}
    (assembled : Assembly.program? settings modules = some p) (addressable : p.Addressable)
    (twoBytes : p.wordSize = 2) (params : 0 ≤ p.maxParams ∧ p.maxParams ≤ maxParams)
    (data : 0 ≤ p.dataBase ∧ p.dataBase + p.data.size ≤ memorySize)
    (entries : (p.procedures.map (·.entry)).Nodup) (names : (p.procedures.map functionName).Nodup)
    (ordered : ∀ i proc, p.procedures[i]? = some proc → proc.entry ≤ p.stopAt i)
    (enough : p.PassesEnough) :
    ∃ module, program p = .ok module ∧
      (∀ m, Machine.load p = .ok m →
        module.image = (List.range Memory.size).map m.memory.get) ∧
      ∀ proc ∈ p.procedures, ∀ (m m' : Machine) (args : List Int) (n : Int), m.Ready p →
        proc.params ≤ args.length → m.callAt p proc.entry args = (.ok n, m') →
        (∀ v ∈ m.callVisits p proc.entry args, ∀ a, v.access? p = some a → ¬ a.Wraps) →
        ∀ (blob : BitVec 64) (outer storage : Storage) (words : List (BitVec 32)),
          words.length = p.maxParams → Represent words args →
          Storage.Holds blob outer m.memory storage →
          ∃ value storage', module.Returns blob (functionName proc) words storage value storage' ∧
            Storage.Holds blob outer m'.memory storage' := by
  obtain ⟨routines, -, made⟩ := assembled_madeOf assembled addressable
  obtain ⟨module, ok⟩ := program_isOk made addressable twoBytes params data
  have hosting := hosting_of_program made addressable ok names ordered enough
  refine ⟨module, ok, fun m => image_loaded ok data, ?_⟩
  intro proc member m m' args n ready declared returns clear blob outer storage words length
    represent holds
  have few : args.length ≤ m.params.count := by
    apply Nat.not_lt.mp
    intro many
    rw [Machine.callAt, if_pos many] at returns
    obtain ⟨differs, -⟩ := Prod.mk.inj returns
    contradiction
  -- The procedure is that of the routine at its entry, because no other one has this entry.
  obtain ⟨before, r, after, split, begins, stops, -⟩ := made.entry_leads ⟨proc, member, rfl⟩
  rw [made.procedures] at member
  obtain ⟨q, r', placed, rfl⟩ := Routine.mem_procedures member
  rw [Nat.zero_add] at begins stops declared returns clear ⊢
  obtain ⟨rfl, rfl⟩ := made.placed_unique entries placed ⟨before, after, split, rfl⟩ begins
  rw [Machine.callAt_eq_answer p _ few] at returns
  obtain ⟨f, named, hosts⟩ := hosting.hosted _ _ placed
  obtain ⟨a, s, begun, reaches, matches_⟩ : ∃ a s, f.begin? words = some a ∧
      State.Reaches module blob ⟨storage, a, []⟩ s ∧
      Matches p routines blob outer
        (m.entered p (codeAddress p.codeBase (Routine.extent before)) args) _ s := by
    refine hosting.begins placed hosts (.outermost (-1)) (by rw [← stops]; rfl)
      (by omega) holds fun number below => ?_
    exact passed_of_represent twoBytes few represent
      (Nat.lt_of_lt_of_le below (Int.ofNat_le.mp declared))
  obtain ⟨t, value, storage', onward, ends, held⟩ :=
    matches_.run hosting clear (Machine.run_of_answer returns)
  exact ⟨value, storage', ⟨f, a, t, named, begun, reaches.trans onward, ends⟩, held⟩

theorem lowered_agrees_nestedLoops :
    Assembly.program? {} [nestedLoops] = some nestedProgram ∧
    ∃ module m m', program nestedProgram = .ok module ∧ Machine.load nestedProgram = .ok m ∧
      module.image = (List.range Memory.size).map m.memory.get ∧
      m.callAt nestedProgram 0x100b [2] = (.ok 0, m') ∧ m'.memory.byte 0x2002 = 2 ∧
      ∀ (blob : BitVec 64) (outer storage : Storage), Storage.Holds blob outer m.memory storage →
        ∃ value storage', module.Returns blob "p_100b" [2, 0, 0, 0] storage value storage' ∧
          Storage.Holds blob outer m'.memory storage' := by
  have data : 0 ≤ nestedProgram.dataBase ∧
      nestedProgram.dataBase + nestedProgram.data.size ≤ memorySize := by decide
  have ordered : ∀ i proc, nestedProgram.procedures[i]? = some proc →
      proc.entry ≤ nestedProgram.stopAt i := by
    rintro (_ | _ | i) proc here
    · obtain rfl := Option.some.inj here
      decide
    · obtain rfl := Option.some.inj here
      decide
    · contradiction
  obtain ⟨module, ok, image, agrees⟩ := lowered_agrees nestedLoops_assembled
    nestedProgram_addressable rfl (by decide) data (by decide) (by decide +kernel) ordered
    (by decide +kernel)
  have outcome : callOutcome? nestedProgram 0x100b [2] 0x2002 = some (some 0, 2, true) := by
    decide +kernel
  obtain ⟨m, m', loaded, returns, stored, clear⟩ := exists_call_of_callOutcome? outcome
  refine ⟨nestedLoops_assembled, module, m, m', ok, loaded, image m loaded, returns, stored,
    fun blob outer storage holds => ?_⟩
  have name : functionName ⟨"main", 0x100b, 1⟩ = "p_100b" := by decide +kernel
  rw [← name]
  apply agrees ⟨"main", 0x100b, 1⟩ (by decide) m _ [2] 0 (Machine.load_ready loaded) (by decide)
    returns clear blob outer storage _ rfl _ holds
  rintro (_ | i) n here
  · obtain rfl := Option.some.inj here
    exact ⟨2, rfl, by decide⟩
  · simp at here

/-- The byte that the function of a name leaves at an address after a number of steps, on zeros. -/
def leftAfter? (p : Program) (name : String) (words : List (BitVec 32)) (steps : Nat)
    (address : BitVec 64) : Option UInt8 :=
  (program p).toOption.bind fun module => (module.function? name).bind fun f =>
    (f.begin? words).bind fun a => (State.after module 0 steps ⟨fun _ => 0, a, []⟩).bind fun s =>
      (s.step module 0).storage?.map fun storage => storage address

theorem exists_returns_of_leftAfter? {name : String} {words : List (BitVec 32)} {steps : Nat}
    {address : BitVec 64} {byte : UInt8}
    (left : leftAfter? p name words steps address = some byte) :
    ∃ module value storage, program p = .ok module ∧
      module.Returns 0 name words (fun _ => 0) value storage ∧ storage address = byte := by
  obtain ⟨module, lowered, left⟩ := Option.bind_eq_some_iff.mp left
  obtain ⟨f, found, left⟩ := Option.bind_eq_some_iff.mp left
  obtain ⟨a, begun, left⟩ := Option.bind_eq_some_iff.mp left
  obtain ⟨s, goes, left⟩ := Option.bind_eq_some_iff.mp left
  obtain ⟨storage, ends, held⟩ := Option.map_eq_some_iff.mp left
  cases step : s.step module 0 with
  | returned value storage' =>
    rw [step] at ends
    obtain rfl := Option.some.inj ends
    exact ⟨module, value, storage', ok_of_toOption lowered,
      ⟨f, a, s, found, begun, ⟨steps, goes⟩, step⟩, held⟩
  | next | stuck =>
    rw [step] at ends
    contradiction

/-- A procedure that stores a word, at the last address. -/
def lastAddressSource : List Text := ["proc a()", "1>$x"].map Text.ofString

/-- The program that `lastAddressSource` is assembled to. -/
def lastAddress : Program :=
  { code := #[.load (.const 1), .store 0x2002]
    codeBase := 0x7fffffffffffffff
    data := #[0, 0, 0, 0]
    procedures := [⟨"a", 0x7fffffffffffffff, 0⟩] }

/-- A procedure whose code goes past the last address has a function without code: the machine
stores a word that the function does not store. -/
theorem lastAddress_disagrees :
    Assembly.program? { codeBase := 0x7fffffffffffffff } [lastAddressSource] = some lastAddress ∧
    lastAddress.PassesEnough ∧ ∃ module m m', program lastAddress = .ok module ∧
      Machine.load lastAddress = .ok m ∧
      m.callAt lastAddress 0x7fffffffffffffff [] = (.ok 1, m') ∧
      (∀ v ∈ m.callVisits lastAddress 0x7fffffffffffffff [], ∀ a,
        v.access? lastAddress = some a → ¬ a.Wraps) ∧
      Storage.Holds 0 (fun _ => 0) m.memory (fun _ => 0) ∧
      ∀ value storage, module.Returns 0 "p_7fffffffffffffff" [0, 0, 0, 0] (fun _ => 0) value
        storage → ¬ Storage.Holds 0 (fun _ => 0) m'.memory storage := by
  have left : leftAfter? lastAddress "p_7fffffffffffffff" [0, 0, 0, 0] 7 0x2002 = some 0 := by
    decide +kernel
  have outcome : callOutcome? lastAddress 0x7fffffffffffffff [] 0x2002 =
      some (some 1, 1, true) := by
    decide +kernel
  obtain ⟨module, value, storage, ok, returns, byte⟩ := exists_returns_of_leftAfter? left
  obtain ⟨m, m', loaded, called, stored, clear⟩ := exists_call_of_callOutcome? outcome
  refine ⟨by decide +kernel, by decide +kernel, module, m, m', ok, loaded, called, clear,
    ⟨?_, fun _ _ => rfl⟩, ?_⟩
  · intro k inside
    have zeros : lastAddress.data.toList = List.replicate 4 0 := rfl
    rw [get_loaded (by decide) loaded inside]
    split
    · cases here : lastAddress.data.toList[k - lastAddress.dataBase.toNat]? with
      | none => rfl
      | some b =>
        have member := List.mem_of_getElem? here
        rw [zeros] at member
        exact (List.eq_of_mem_replicate member).symm
    · rfl
  · intro value' storage' returns' holds
    obtain ⟨-, rfl⟩ := returns.unique returns'
    have cell : storage ((0 : BitVec 64) + BitVec.ofNat 64 0x2002) = m'.memory.byte 0x2002 :=
      holds.cells 0x2002 (by decide)
    have differs : storage ((0 : BitVec 64) + BitVec.ofNat 64 0x2002) = 0 := byte
    rw [stored, differs] at cell
    exact absurd cell (by decide)

end Lowering

end HighAsm
