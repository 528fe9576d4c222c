import Mathlib.Data.List.Pairwise
import HighAsm.Proofs.Accesses
import HighAsm.Proofs.Calls
import HighAsm.Proofs.VariableStorage

/-!
# What direct code writes

A program without stores through pointers writes to its variables and to nothing else. Every place
that an instruction names is that of a word which was allocated for a variable, and a store changes
the bytes of its word only. What one instruction leaves alone, a run does, and a row of calls,
whatever they come to. The string constants and everything outside the data image lie apart from the
words.
-/

namespace HighAsm

open List Assembly Memory

/-! ## One instruction -/

/-- The cells that change when a word is stored at an address. -/
def Program.storeCells (p : Program) (address : Int) : List Nat :=
  if 1 < p.wordSize then [cell address, cell (address + 1)]
  else [cell address]

/-- The instruction stores through a pointer. -/
def Instr.isStoreIndirect : Instr → Bool
  | storeIndirect _ => true
  | _ => false

/-- No instruction of a program stores through a pointer. -/
def Program.Direct (p : Program) : Prop := ∀ i ∈ p.code, i.isStoreIndirect = false

instance (p : Program) : Decidable p.Direct :=
  inferInstanceAs (Decidable (∀ i ∈ p.code, i.isStoreIndirect = false))

/-- A cell belongs to no word that an instruction of the program names. -/
def Program.Leaves (p : Program) (k : Nat) : Prop :=
  ∀ i ∈ p.code, ∀ place, i.place? = some place → k ∉ p.storeCells place

namespace Machine

variable {p : Program} {m : Machine} {k : Nat}

theorem get_setWord (inside : k < size) {address : Int}
    (other : k ∉ p.storeCells address) (value : Int) :
    (m.setWord p address value).memory.get k = m.memory.get k := by
  unfold Program.storeCells at other
  unfold setWord
  split at other
  · next two =>
    simp only [mem_cons, not_mem_nil, or_false, not_or] at other
    rw [if_pos two]
    simp only [get_setByte _ _ _ inside, if_neg (Ne.symm other.1),
      if_neg (Ne.symm other.2)]
  · next one =>
    rw [mem_singleton] at other
    rw [if_neg one]
    simp only [get_setByte _ _ _ inside, if_neg (Ne.symm other)]

theorem leave_memory (m : Machine) : m.leave.machine.memory = m.memory := by
  unfold leave
  split
  · rfl
  · rfl

/-- An instruction that does not store through a pointer changes at most the word it names. -/
theorem execute_leaves (inside : k < size) {i : Instr} (direct : i.isStoreIndirect = false)
    (other : ∀ place, i.place? = some place → k ∉ p.storeCells place) (pc : Int) :
    (m.execute p pc i).machine.memory.get k = m.memory.get k := by
  cases i with
  | load | copyToTemp | jump | undefined => rfl
  | loadIndirect width => cases width <;> rfl
  | storeIndirect width => contradiction
  | store address => exact get_setWord inside (other address rfl) m.acc
  | storeParam register address =>
    simp only [execute]
    split
    · exact get_setWord inside (other address rfl) _
    · rfl
  | binary op right | loadParam register source | loopIndex | call entry =>
    simp only [execute]
    split <;> rfl
  | loopHead leave =>
    simp only [execute]
    split
    · rfl
    · split <;> rfl
  | loopNext body =>
    simp only [execute]
    split
    · split <;> rfl
    · rfl
  | ret => exact congrArg (·.get k) m.leave_memory

/-! ## Runs and calls -/

variable (direct : p.Direct) (leaves : p.Leaves k) (inside : k < size)
include direct leaves inside

theorem round_leaves (pc : Int) : (m.round p pc).machine.memory.get k = m.memory.get k := by
  unfold round
  split
  · exact congrArg (·.get k) m.leave_memory
  · split
    · rfl
    · next i found =>
      have member : i ∈ p.code := by
        obtain ⟨position, -, here⟩ := Option.bind_eq_some_iff.mp found
        exact Array.mem_of_getElem? here
      dsimp only
      split
      · rfl
      · exact execute_leaves inside (direct i member) (leaves i member) pc

theorem run_leaves (rounds : Nat) (pc : Int) :
    (run p rounds m pc).2.memory.get k = m.memory.get k := by
  induction rounds generalizing m pc with
  | zero => rfl
  | succ rounds ih =>
    have one := round_leaves (m := m) direct leaves inside pc
    unfold run
    split
    · next pc' m' goes =>
      rw [goes] at one
      exact (ih pc').trans one
    · next m' done =>
      rw [done] at one
      exact one
    · next why m' stopped =>
      rw [stopped] at one
      exact one

theorem callAt_leaves (entry : Int) (args : List Int) :
    (m.callAt p entry args).2.memory.get k = m.memory.get k := by
  unfold callAt
  split
  · rfl
  · let begun : Machine :=
      { m with
        params := m.params.fill 0 (args.map (wrap p))
        frames := [⟨-1, p.stopOf entry, []⟩]
        steps := 0 }
    have whole := run_leaves (m := begun) direct leaves inside (rounds m.maxSteps) entry
    dsimp only
    split
    · next m' ended =>
      rw [ended] at whole
      exact whole
    · next why m' ended =>
      rw [ended] at whole
      exact whole

end Machine

/-- No row of calls, whatever they come to, changes a cell that the program leaves alone. -/
theorem Invocation.performAll_leaves {p : Program} {k : Nat} (direct : p.Direct)
    (leaves : p.Leaves k) (inside : k < size) (calls : List Invocation) (m : Machine) :
    (performAll p m calls).2.memory.get k = m.memory.get k := by
  induction calls generalizing m with
  | nil => rfl
  | cons call rest ih =>
    have one : (call.perform p m).2.memory.get k = m.memory.get k := by
      unfold perform
      split
      · unfold Machine.call
        split
        · rfl
        · exact Machine.callAt_leaves direct leaves inside ..
      · exact Machine.callAt_leaves direct leaves inside ..
    exact (ih _).trans one

/-! ## Words and places -/

section Places

variable {settings : Settings} {module : Nat} {modules : List (List Text)} {pieces : List Piece}
  {a a' : Assembly}

/-- Every place that an instruction names is that of a word. -/
theorem place_mem_words (assembled : assembleModules settings modules (start settings) = .ok () a)
    (addressable : a.builder.program.Addressable) {i : Instr} (member : i ∈ a.builder.program.code)
    {place : Int} (named : i.place? = some place) : place ∈ a.builder.words := by
  obtain ⟨pieces, routines, recorded, written, made, -⟩ := assembled_pieces assembled addressable
  obtain ⟨-, -, through⟩ := recordModules_through recorded (forall_mem_nil _)
  have laid := made.program.code
  obtain ⟨q, r, placed, there⟩ := Routine.mem_layout (laid ▸ Array.mem_toList_iff.mpr member)
  rw [Nat.zero_add] at there
  obtain ⟨j, here⟩ := getElem?_of_mem placed.mem
  obtain ⟨piece, source⟩ : ∃ piece, pieces[j]? = some piece := by
    obtain ⟨short, -⟩ := List.getElem?_eq_some_iff.mp here
    exact ⟨_, getElem?_eq_getElem (by rw [written.length]; exact short)⟩
  -- The instruction names a variable of the source, which has its word in the table of the piece.
  obtain ⟨names, -⟩ := (written.at source here).resolves a.builder.program.codeBase q
  have among' :
      some place ∈ ((r.code a.builder.program.codeBase q).filterMap Instr.place?).map some :=
    mem_map_of_mem (mem_filterMap.mpr ⟨i, there, named⟩)
  rw [← names] at among'
  obtain ⟨name, -, found⟩ := mem_map.mp among'
  obtain ⟨⟨_, before⟩, _, after⟩ := through piece (mem_of_getElem? source)
  exact (Piece.Within.of_renews before after).mem_words found

/-- A region of an image that lies in memory is in its place without wrapping. -/
theorem Builder.Laid.region_inside {b : Builder} (laid : b.Laid) (from_ : 0 ≤ b.program.dataBase)
    (fits : b.program.dataBase + b.program.data.size ≤ 65536) {r : Region}
    (member : r ∈ b.regions) :
    b.program.dataBase ≤ r.place ∧
      r.place + r.bytes.length ≤ b.program.dataBase + b.program.data.size := by
  obtain ⟨before, after, image, there⟩ := laid.tiles.split member
  have length := congrArg List.length image
  simp only [Array.length_toList, length_append] at length
  rw [wrap64_eq_bmod, Int.bmod_eq_of_le (by omega) (by omega)] at there
  omega

end Places

/-! ## Whole programs -/

/-- What is known of the data of an assembled program that lies in memory: where its words and its
texts are. -/
structure Assembly.Furnished (settings : Settings) (a : Assembly) : Prop where
  wordSize : a.builder.program.wordSize = settings.wordSize
  word : ∀ place ∈ a.builder.words, settings.dataBase ≤ place ∧
    place + settings.wordSize ≤ settings.dataBase + a.builder.program.data.size
  text : ∀ place text, (place, text) ∈ a.builder.program.strings → settings.dataBase ≤ place ∧
    place + text.length < settings.dataBase + a.builder.program.data.size
  apart : ∀ place ∈ a.builder.words, ∀ there text, (there, text) ∈ a.builder.program.strings →
    ∀ k : Nat, k ≤ text.length → ¬ (place ≤ there + k ∧ there + k < place + settings.wordSize)

theorem Assembly.furnished {settings : Settings} {modules : List (List Text)} {a : Assembly}
    (assembled : assembleModules settings modules (start settings) = .ok () a)
    (least : 1 ≤ settings.wordSize) (most : settings.wordSize < 0x8000000000000000)
    (from_ : 0 ≤ settings.dataBase)
    (fits : settings.dataBase + a.builder.program.data.size ≤ 65536) : a.Furnished settings := by
  obtain ⟨⟨kept, renews⟩, -⟩ := assembleModules_renews assembled
  obtain ⟨base, word, -⟩ := Builder.Grows.program_fixed renews.asks
  have laid : Builder.Laid a.builder := (Builder.Laid.empty rfl rfl).grows renews.asks
  have dataBase : a.builder.program.dataBase = settings.dataBase := base
  have inside {r : Region} (member : r ∈ a.builder.regions) :=
    laid.region_inside (dataBase ▸ from_) (dataBase ▸ fits) member
  have words {place : Int} (member : place ∈ a.builder.words) :
      ∃ size : Nat, (size : Int) = settings.wordSize ∧
        (⟨place, .words size⟩ : Region) ∈ a.builder.regions := by
    rw [Builder.words_eq] at member
    obtain ⟨⟨there, content⟩, among, same⟩ := mem_filterMap.mp member
    cases content with
    | text _ => contradiction
    | words size =>
      cases same
      exact ⟨size, renews.word_size least most among, among⟩
  refine ⟨word, ?_, ?_, ?_⟩
  · intro place member
    obtain ⟨size, same, among⟩ := words member
    have := inside among
    simp only [Region.bytes, Content.bytes, length_replicate] at this
    omega
  · intro place text member
    have := inside (laid.mem_strings_iff.mp member)
    simp only [Region.bytes, Content.bytes, length_append, length_singleton] at this
    omega
  · intro place member there text stored k short both
    obtain ⟨size, same, among⟩ := words member
    have small : a.builder.program.data.toList.length < 0x8000000000000000 := by
      rw [Array.length_toList]
      omega
    have apart := (laid.tiles.apart small).forall among (laid.mem_strings_iff.mp stored) (by simp)
    refine apart (there + k - place).toNat ?_ k ?_ ?_
    · simp only [Region.bytes, Content.bytes, length_replicate]
      omega
    · simp only [Region.bytes, Content.bytes, length_append, length_singleton]
      omega
    · congr 1
      dsimp only
      omega

/-- A cell outside all words is left alone by a program that stores to variables only. -/
theorem Assembly.Furnished.leaves {settings : Settings} {modules : List (List Text)} {a : Assembly}
    (furnished : a.Furnished settings)
    (assembled : assembleModules settings modules (start settings) = .ok () a)
    (addressable : a.builder.program.Addressable) (least : 1 ≤ settings.wordSize)
    (from_ : 0 ≤ settings.dataBase)
    (fits : settings.dataBase + a.builder.program.data.size ≤ 65536) {k : Nat}
    (outside : ∀ place ∈ a.builder.words, ¬ (place ≤ k ∧ k < place + settings.wordSize)) :
    a.builder.program.Leaves k := by
  intro i member place named
  have among := place_mem_words assembled addressable member named
  have word := furnished.word place among
  have other := outside place among
  have first : cell place = place.toNat := by
    unfold cell
    omega
  unfold Program.storeCells
  rw [furnished.wordSize]
  split
  · have second : cell (place + 1) = place.toNat + 1 := by
      unfold cell
      omega
    simp only [first, second, mem_cons, not_mem_nil, or_false]
    omega
  · rw [first, mem_singleton]
    omega

/-- An assembled program whose data lies in memory, with words of at least one byte and without
stores through pointers, writes to its variables only. After any row of calls, whatever they come
to, every byte outside the words is what it was before, as after loading the program: those of a
string constant and of its end, and those outside the data image. -/
theorem direct_code_writes_variables {settings : Settings} {modules : List (List Text)}
    {a : Assembly} (assembled : assembleModules settings modules (start settings) = .ok () a)
    (addressable : a.builder.program.Addressable) (least : 1 ≤ settings.wordSize)
    (most : settings.wordSize < 0x8000000000000000) (from_ : 0 ≤ settings.dataBase)
    (fits : settings.dataBase + a.builder.program.data.size ≤ 65536)
    (direct : a.builder.program.Direct) (m : Machine) (calls : List Invocation) :
    (∀ k < Memory.size,
        (∀ place ∈ a.builder.words, ¬ (place ≤ k ∧ k < place + settings.wordSize)) →
        (Invocation.performAll a.builder.program m calls).2.memory.get k = m.memory.get k) ∧
      (∀ place text, (place, text) ∈ a.builder.program.strings → ∀ k : Nat, k ≤ text.length →
        (Invocation.performAll a.builder.program m calls).2.memory.byte (place + k) =
          m.memory.byte (place + k)) ∧
      ∀ k < Memory.size,
        k < settings.dataBase ∨ settings.dataBase + a.builder.program.data.size ≤ k →
        (Invocation.performAll a.builder.program m calls).2.memory.get k = m.memory.get k := by
  have furnished := a.furnished assembled least most from_ fits
  have same : ∀ k < Memory.size,
      (∀ place ∈ a.builder.words, ¬ (place ≤ k ∧ k < place + settings.wordSize)) →
      (Invocation.performAll a.builder.program m calls).2.memory.get k = m.memory.get k := by
    intro k inside outside
    have leaves := furnished.leaves assembled addressable least from_ fits outside
    exact Invocation.performAll_leaves direct leaves inside calls m
  refine ⟨same, ?_, ?_⟩
  · intro there text stored k short
    have within := furnished.text there text stored
    have cell : (Memory.cell (there + k) : Int) = there + k := by
      unfold Memory.cell
      omega
    refine same (Memory.cell (there + k)) (Memory.cell_lt _) fun place member => ?_
    rw [cell]
    exact furnished.apart place member there text stored k short
  · intro k inside beyond
    refine same k inside fun place member both => ?_
    have word := furnished.word place member
    omega

/-- A text with a string constant, and a loop that may not come to its end. -/
def directText : List Text :=
  ["proc a(x)", "\"hi\">z", "while(x#0)", "x+z>$sum", "endwhile"]

/-- Calls of which the first is stopped and the second is of no procedure. -/
def directCalls : List Invocation :=
  [⟨.named "a", [1], 20⟩, ⟨.named "b", [], 5⟩, ⟨.entry 0x1003, [7], 9⟩]

theorem direct_code_writes_variables_directText :
    ∃ a m, assembleModules {} [directText] (start {}) = .ok () a ∧
      a.builder.program.Direct ∧ a.builder.program.strings = [(0x2002, ("hi" : Text))] ∧
      Machine.load a.builder.program = .ok m ∧
      (∀ k : Nat, k ≤ 2 →
        (Invocation.performAll a.builder.program m directCalls).2.memory.byte (0x2002 + k) =
          m.memory.byte (0x2002 + k)) ∧
      (Invocation.performAll a.builder.program m directCalls).2.memory.get 0x3000 =
        m.memory.get 0x3000 := by
  have whole : seen? {} (assembleModules {} [directText])
      (fun _ a => (a.builder.program.code.size, a.builder.program.data.size,
        decide a.builder.program.Direct, (Machine.load a.builder.program).isOk)) =
      some (9, 11, true, true) := by
    decide +kernel
  have texts : seen? {} (assembleModules {} [directText]) (fun _ a => a.builder.program.strings) =
      some [(0x2002, ("hi" : Text))] := by
    decide +kernel
  obtain ⟨_, a, assembled, seen⟩ := seen?_eq_some whole
  obtain ⟨_, a', again, strings⟩ := seen?_eq_some texts
  obtain ⟨-, rfl⟩ := EStateM.Result.ok.inj (assembled.symm.trans again)
  obtain ⟨code, seen⟩ := Prod.mk.inj seen
  obtain ⟨data, seen⟩ := Prod.mk.inj seen
  obtain ⟨direct, loads⟩ := Prod.mk.inj seen
  have addressable : a.builder.program.Addressable := by
    rw [Program.Addressable, code]
    decide
  cases loaded : Machine.load a.builder.program with
  | error crash =>
    rw [loaded] at loads
    contradiction
  | ok m =>
    obtain ⟨-, texts, outside⟩ := direct_code_writes_variables assembled addressable (by decide)
      (by decide) (by decide) (by rw [data]; decide) (of_decide_eq_true direct) m directCalls
    refine ⟨a, m, assembled, of_decide_eq_true direct, strings, loaded, ?_, ?_⟩
    · exact texts 0x2002 "hi" (by rw [strings]; exact List.mem_singleton.mpr rfl)
    · exact outside 0x3000 (by decide) (.inr (by rw [data]; decide))

end HighAsm
