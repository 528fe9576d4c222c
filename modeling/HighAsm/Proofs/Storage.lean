import HighAsm.Proofs.Agreement
import HighAsm.Proofs.Regions

/-!
# Storage is never shared or lost

A builder that has gone through any requests, those that crash included, has a data image which is
tiled by the storage that it handed out. Nothing that was handed out changes later, a text has one
place, and a machine into which the program is loaded finds the text there. It does not matter how
the builder looks for texts that it has stored: a `HashedBuilder` finds them through any hash
function, however many texts share a hash, and does the same.
-/

namespace HighAsm

open List

namespace Builder

variable {b : Builder}

/-- The builder after a request. One that crashes changes nothing. -/
def attempt (b : Builder) (r : Request) : Builder :=
  match b.perform r with
  | .ok (_, b') => b'
  | .error _ => b

theorem attempt_grows (b : Builder) (r : Request) : Grows (fun _ => True) b (b.attempt r) := by
  unfold attempt
  split
  · next ok => exact .one trivial ok
  · exact .refl b

theorem attempts_grow (b : Builder) (requests : List Request) :
    Grows (fun _ => True) b (requests.foldl attempt b) := by
  induction requests generalizing b with
  | nil => exact .refl b
  | cons r rest ih => exact (b.attempt_grows r).trans (ih (b.attempt r))

theorem Laid.string?_eq_some_iff (laid : Laid b)
    (small : b.program.data.size < 0x8000000000000000) {place : Int} {text : Text} :
    b.program.string? place = some text ↔ (place, text) ∈ b.program.strings := by
  rw [Program.string?, Option.map_eq_some_iff]
  constructor
  · rintro ⟨⟨there, stored⟩, found, rfl⟩
    have same : there = place := by simpa using find?_some found
    rw [← same]
    exact mem_of_find?_eq_some found
  · intro member
    obtain ⟨stored, found⟩ : ∃ stored, b.program.strings.find? (·.1 == place) = some stored := by
      apply Option.isSome_iff_exists.mp
      exact find?_isSome.mpr ⟨_, member, beq_self_eq_true place⟩
    have there : stored.1 = place := by simpa using find?_some found
    refine ⟨stored, found, ?_⟩
    rw [inj_on_of_nodup_map (laid.strings_nodup small) (mem_of_find?_eq_some found) member
      there]

end Builder

/-! ## Looking for texts through their hashes -/

/-- A builder that keeps the addresses of its texts by their hashes. -/
structure HashedBuilder where
  builder : Builder
  /-- The addresses of the texts of each hash, in the order in which they were stored. -/
  buckets : UInt64 → List Int := fun _ => []

namespace HashedBuilder

/-- The address of a string constant. Only texts of the same hash are compared with it. -/
def intern (hash : Text → UInt64) (h : HashedBuilder) (text : Text) : Int × HashedBuilder :=
  let p := h.builder.program
  match (h.buckets (hash text)).find? fun place => (p.string? place).getD [] == text with
  | some place => (place, { h with builder := h.builder.enter (.string text) (some place) p })
  | none =>
    let place := p.dataEnd
    let longer := { p with data := p.data ++ (text ++ [0]).toArray }
    let builder := h.builder.enter (.string text) (some place) (longer.recordString place text)
    let buckets n := if n = hash text then h.buckets n ++ [place] else h.buckets n
    (place, ⟨builder, buckets⟩)

/-- Takes over an answer and the builder that comes with it. -/
def takeOver (h : HashedBuilder) (result : Option Int × Builder) : Option Int × HashedBuilder :=
  (result.1, { h with builder := result.2 })

/-- Carries out a request. -/
def perform (hash : Text → UInt64) (h : HashedBuilder) :
    Request → Except Crash (Option Int × HashedBuilder)
  | .string text => .ok ((h.intern hash text).map some id)
  | r => (h.builder.perform r).map h.takeOver

/-- The builder after a request. One that crashes changes nothing. -/
def attempt (hash : Text → UInt64) (h : HashedBuilder) (r : Request) : HashedBuilder :=
  match h.perform hash r with
  | .ok (_, h') => h'
  | .error _ => h

/-- The addresses of a hash are those of the stored texts that have this hash. -/
def Indexed (hash : Text → UInt64) (h : HashedBuilder) : Prop :=
  ∀ n, h.buckets n =
    (h.builder.program.strings.filter fun stored => hash stored.2 == n).map (·.1)

section Interning

variable {hash : Text → UInt64} {h : HashedBuilder}

theorem Indexed.mem_bucket_iff (indexed : Indexed hash h) {n : UInt64} {place : Int} :
    place ∈ h.buckets n ↔ ∃ text, (place, text) ∈ h.builder.program.strings ∧ hash text = n := by
  rw [indexed n]
  constructor
  · intro member
    obtain ⟨⟨there, text⟩, kept, rfl⟩ := mem_map.mp member
    obtain ⟨stored, same⟩ := mem_filter.mp kept
    exact ⟨text, stored, beq_iff_eq.mp same⟩
  · rintro ⟨text, stored, rfl⟩
    exact mem_map.mpr ⟨_, mem_filter.mpr ⟨stored, beq_self_eq_true _⟩, rfl⟩

variable (indexed : Indexed hash h) (laid : h.builder.Laid)
  (small : h.builder.program.data.size < 0x8000000000000000) (text : Text)
include indexed laid small

/-- Texts that share a hash do not get into each other's way: an address of the bucket passes the
comparison exactly if the text is stored there. -/
theorem Indexed.find?_eq_some_iff (place : Int) :
    ((h.buckets (hash text)).find? fun place =>
        (h.builder.program.string? place).getD [] == text) = some place ↔
      (place, text) ∈ h.builder.program.strings := by
  have passes {there : Int} (member : there ∈ h.buckets (hash text)) :
      ((h.builder.program.string? there).getD [] == text) = true ↔
        (there, text) ∈ h.builder.program.strings := by
    obtain ⟨stored, known, -⟩ := indexed.mem_bucket_iff.mp member
    have found := (laid.string?_eq_some_iff small).mpr known
    rw [← laid.string?_eq_some_iff small, found, Option.getD_some, Option.some.injEq, beq_iff_eq]
  have checked {there : Int} (found : ((h.buckets (hash text)).find? fun place =>
      (h.builder.program.string? place).getD [] == text) = some there) :
      (there, text) ∈ h.builder.program.strings :=
    (passes (mem_of_find?_eq_some found)).mp
      (find?_some (p := fun place => (h.builder.program.string? place).getD [] == text) found)
  constructor
  · exact checked
  · intro stored
    have member := indexed.mem_bucket_iff.mpr ⟨text, stored, rfl⟩
    obtain ⟨there, found⟩ : ∃ there, ((h.buckets (hash text)).find? fun place =>
        (h.builder.program.string? place).getD [] == text) = some there := by
      apply Option.isSome_iff_exists.mp
      exact find?_isSome.mpr ⟨place, member, (passes member).mpr stored⟩
    have same := inj_on_of_nodup_map laid.texts (checked found) stored rfl
    rw [found, (Prod.mk.inj same).1]

/-- Interning through hashes gives the same address and the same program. -/
theorem intern_eq :
    (h.intern hash text).1 = (h.builder.intern text).1 ∧
      (h.intern hash text).2.builder = (h.builder.intern text).2 ∧
      Indexed hash (h.intern hash text).2 := by
  have lookup := indexed.find?_eq_some_iff laid small text
  cases known : h.builder.program.strings.find? (·.2 == text) with
  | some stored =>
    obtain ⟨place, text'⟩ := stored
    obtain rfl : text' = text := by simpa using find?_some known
    have found := (lookup place).mpr (mem_of_find?_eq_some known)
    simp only [intern, Builder.intern, known, found]
    exact ⟨trivial, trivial, indexed⟩
  | none =>
    have absent (place : Int) : (place, text) ∉ h.builder.program.strings := by
      intro member
      simpa using find?_eq_none.mp known _ member
    have missing : ((h.buckets (hash text)).find? fun place =>
        (h.builder.program.string? place).getD [] == text) = none := by
      apply Option.eq_none_iff_forall_ne_some.mpr
      intro place found
      exact absent place ((lookup place).mp found)
    -- Nothing is stored at the new address yet, so recording the text there only adds it.
    have kept : (h.builder.program.strings.filter (·.1 != h.builder.program.dataEnd)) =
        h.builder.program.strings := by
      apply filter_eq_self.mpr
      rintro ⟨place, stored⟩ member
      simpa using laid.dataEnd_fresh small member
    simp only [intern, Builder.intern, known, missing, Program.recordString, kept]
    refine ⟨trivial, trivial, ?_⟩
    intro n
    simp only [Builder.enter, indexed n, filter_append, map_append]
    split
    · next same => simp [same]
    · next other => simp [Ne.symm other]

end Interning

section Sessions

variable {hash : Text → UInt64} {h : HashedBuilder}

theorem perform_other {r : Request} (other : ∀ text, r ≠ .string text) :
    h.perform hash r = (h.builder.perform r).map h.takeOver := by
  cases r with
  | string text => exact absurd rfl (other text)
  | alloc _ | begin _ _ | emit _ | patch _ _ _ | openLoop | closeLoop _ => rfl

/-- A request that does not store a text leaves the texts as they are. -/
theorem strings_other {b b' : Builder} {r : Request} {answer : Option Int}
    (ok : b.perform r = .ok (answer, b')) (other : ∀ text, r ≠ .string text) :
    b'.program.strings = b.program.strings := by
  rcases r.storage_cases with ⟨count, rfl⟩ | ⟨text, rfl⟩ | code
  · rw [(Builder.perform_alloc_ok ok).2.2.2.1]
  · exact absurd rfl (other text)
  · obtain ⟨-, -, _, _, program⟩ := Builder.perform_other_ok ok code
    rw [program]

/-- One request has the same effect with and without hashes. -/
theorem attempt_eq (indexed : Indexed hash h) (laid : h.builder.Laid)
    (small : h.builder.program.data.size < 0x8000000000000000) (r : Request) :
    (h.attempt hash r).builder = h.builder.attempt r ∧ Indexed hash (h.attempt hash r) := by
  by_cases texts : ∃ text, r = .string text
  · obtain ⟨text, rfl⟩ := texts
    obtain ⟨-, same, kept⟩ := intern_eq indexed laid small text
    exact ⟨same, kept⟩
  · have other (text : Text) : r ≠ .string text := fun same => texts ⟨text, same⟩
    rw [attempt, Builder.attempt, perform_other other]
    cases ok : h.builder.perform r with
    | error crash => exact ⟨rfl, indexed⟩
    | ok result =>
      refine ⟨rfl, ?_⟩
      intro n
      exact (indexed n).trans (by rw [← strings_other ok other]; rfl)

/-- Any requests have the same effect with and without hashes. -/
theorem attempts_eq (indexed : Indexed hash h) (laid : h.builder.Laid) {requests : List Request}
    (small : (requests.foldl Builder.attempt h.builder).program.data.size < 0x8000000000000000) :
    (requests.foldl (attempt hash) h).builder = requests.foldl Builder.attempt h.builder := by
  induction requests generalizing h with
  | nil => rfl
  | cons r rest ih =>
    have grows := h.builder.attempt_grows r
    have smaller := laid.size_le (h.builder.attempts_grow (r :: rest))
    obtain ⟨same, kept⟩ := attempt_eq indexed laid (Nat.lt_of_le_of_lt smaller small) r
    rw [foldl_cons, foldl_cons, ← same]
    apply ih kept
    · rw [same]
      exact laid.grows grows
    · rw [same]
      exact small

end Sessions

end HashedBuilder

/-! ## Texts on the machine -/

/-- The text from a cell on is what stands before the first zero. -/
theorem Memory.textFrom_eq {m : Memory} {text : Text} {start cells : Nat}
    (holds : ∀ k < text.length + 1, (text ++ [0])[k]? = some (m.get (start + k)))
    (noZero : (0 : UInt8) ∉ text) (room : text.length < cells) : m.textFrom start cells = text := by
  induction text generalizing start cells with
  | nil =>
    obtain ⟨more, rfl⟩ := Nat.exists_eq_add_one_of_ne_zero (Nat.ne_of_gt room)
    have zero : 0 = m.get start := Option.some.inj (holds 0 Nat.one_pos)
    rw [Memory.textFrom, if_pos zero.symm]
  | cons byte rest ih =>
    obtain ⟨more, rfl⟩ := Nat.exists_eq_add_one_of_ne_zero (Nat.ne_of_gt (Nat.lt_of_le_of_lt
      (Nat.zero_le _) room))
    have first : byte = m.get start := Option.some.inj (holds 0 (by simp))
    obtain ⟨differs, others⟩ := ne_and_not_mem_of_not_mem_cons noZero
    rw [Memory.textFrom, ← first, if_neg (Ne.symm differs)]
    congr 1
    apply ih _ others (by simpa using room)
    intro k inside
    rw [Nat.add_assoc, Nat.add_comm 1 k]
    exact holds (k + 1) (by simpa using inside)

/-- A machine can be loaded exactly if it can have the parameter registers. -/
theorem Machine.load_isOk_iff {p : Program} :
    (∃ m, Machine.load p = .ok m) ↔ 0 ≤ p.maxParams ∧ p.maxParams ≤ Registers.maxCount := by
  rw [Machine.load]
  split
  · next bad =>
    constructor
    · rintro ⟨_, ⟨⟩⟩
    · omega
  · next good =>
    constructor
    · intro _
      omega
    · intro _
      exact ⟨_, rfl⟩

namespace Builder

variable {b : Builder}

/-- A loaded machine finds the string constants at their addresses. -/
theorem Laid.text_loaded (laid : Laid b) {m : Machine}
    (data : 0 ≤ b.program.dataBase ∧
      b.program.dataBase + b.program.data.size ≤ Lowering.memorySize)
    (loaded : Machine.load b.program = .ok m) {place : Int} {text : Text}
    (stored : (place, text) ∈ b.program.strings) (noZero : (0 : UInt8) ∉ text) :
    m.memory.text place = text := by
  obtain ⟨before, after, image, there⟩ := laid.tiles.split (laid.mem_strings_iff.mp stored)
  have length := congrArg List.length image
  simp only [Array.length_toList, length_append, Region.bytes, Content.bytes,
    length_singleton] at length
  have loadedAt := @Lowering.get_loaded _ _ data loaded
  unfold Lowering.memorySize at data
  have place_eq : place = b.program.dataBase + before.length := by
    change place = _ at there
    rw [there, wrap64_eq_bmod]
    exact Int.bmod_eq_of_le (by omega) (by omega)
  have cell : Memory.cell place = b.program.dataBase.toNat + before.length := by
    rw [Memory.cell, place_eq]
    omega
  rw [Memory.text, cell]
  apply Memory.textFrom_eq _ noZero
  · rw [Memory.size]
    omega
  · intro k inside
    have fits : b.program.dataBase.toNat + before.length + k < Memory.size := by
      rw [Memory.size]
      omega
    have here : k < (text ++ [0]).length := by simpa using inside
    have offset : b.program.dataBase.toNat + before.length + k - b.program.dataBase.toNat =
        before.length + k := by omega
    have byte : b.program.data.toList[before.length + k]? = (text ++ [0])[k]? := by
      rw [image, append_assoc, getElem?_append_right (Nat.le_add_right ..),
        Nat.add_sub_cancel_left]
      exact getElem?_append_left here
    rw [loadedAt fits, if_pos (by omega), offset, byte, getElem?_eq_getElem here,
      Option.getD_some]

/-! ## All requests -/

theorem laid_start (settings : Settings) : Laid (Assembly.start settings).builder :=
  .empty rfl rfl

/-- What holds of the storage that a builder has handed out for some requests. -/
structure KeepsStorage (settings : Settings) (requests : List Request) (b : Builder) : Prop where
  /-- Texts are looked up by hashes with the same result. -/
  hashed : ∀ hash : Text → UInt64,
    (requests.foldl (HashedBuilder.attempt hash)
      ⟨(Assembly.start settings).builder, fun _ => []⟩).builder = b
  /-- The log tells the answer of every request that does not crash. -/
  logged : ∀ r answer b', b.perform r = .ok (answer, b') →
    b.attempt r = b' ∧ b'.log.toList = b.log.toList ++ [(r, answer)]
  interned : ∀ text, ∃ place b', b.perform (.string text) = .ok (some place, b')
  granted : ∀ count, 0 ≤ wrap64 (count * settings.wordSize) →
    wrap64 (count * settings.wordSize) ≤ maxSize →
    ∃ b', b.perform (.alloc count) = .ok (some b.program.dataEnd, b')
  apart : b.regions.Pairwise Region.Apart
  /-- What the log hands out tiles the image, now and after further requests. -/
  tiled : ∀ later : List Request, b.regions <+: (later.foldl attempt b).regions ∧
    Tiles settings.dataBase (later.foldl attempt b).regions
      (later.foldl attempt b).program.data.toList
  sized : ∀ count place, (.alloc count, some place) ∈ b.log.toList → 0 ≤ count →
    1 ≤ settings.wordSize → count * settings.wordSize < 0x8000000000000000 →
    ⟨place, .words (count * settings.wordSize).toNat⟩ ∈ b.regions
  stored : ∀ text place, (.string text, some place) ∈ b.log.toList →
    b.program.string? place = some text
  /-- Texts are stored once. -/
  once : ∀ text place text' place', (.string text, some place) ∈ b.log.toList →
    (.string text', some place') ∈ b.log.toList → (place = place' ↔ text = text')
  placed : ∀ text place, b.program.string? place = some text ↔ ⟨place, .text text⟩ ∈ b.regions
  loads : (∃ m, Machine.load b.program = .ok m) ↔
    0 ≤ settings.maxParams ∧ settings.maxParams ≤ Registers.maxCount
  /-- A machine reads a text that has no zero as a whole. -/
  reads : ∀ m, Machine.load b.program = .ok m → 0 ≤ settings.dataBase →
    settings.dataBase + b.program.data.size ≤ Memory.size →
    ∀ text place, b.program.string? place = some text → (0 : UInt8) ∉ text →
      m.memory.text place = text

/-- After any requests, the storage that was handed out tiles the data image and is still there
after any further ones, equal texts and only they have the same address, and a machine that can be
loaded finds every text that it can read as a whole. Hashes do not matter. -/
theorem storage_kept_apart (settings : Settings) (requests : List Request) (b : Builder)
    (reached : requests.foldl attempt (Assembly.start settings).builder = b)
    (small : b.program.data.size < 0x8000000000000000) : KeepsStorage settings requests b := by
  have grows := attempts_grow (Assembly.start settings).builder requests
  have laid := (laid_start settings).grows grows
  obtain ⟨base, word, params⟩ := grows.program_fixed
  rw [reached] at laid base word params
  change b.program.dataBase = settings.dataBase at base
  change b.program.wordSize = settings.wordSize at word
  change b.program.maxParams = settings.maxParams at params
  have found {place : Int} {text : Text} :
      b.program.string? place = some text ↔ (place, text) ∈ b.program.strings :=
    laid.string?_eq_some_iff small
  refine ⟨?_, ?_, ?_, ?_, laid.tiles.apart (by simpa using small), ?_, ?_, ?_, ?_, ?_, ?_, ?_⟩
  · intro hash
    rw [← reached] at small ⊢
    exact HashedBuilder.attempts_eq (fun _ => rfl) (laid_start settings) small
  · intro r answer b' ok
    refine ⟨?_, perform_log ok⟩
    rw [attempt, ok]
  · intro text
    exact ⟨_, _, rfl⟩
  · intro count least most
    exact perform_alloc_isOk (by rwa [word]) (by rwa [word])
  · intro later
    have further := attempts_grow b later
    have tiles := (laid.grows further).tiles
    rw [further.program_fixed.1, base] at tiles
    exact ⟨further.regions, tiles⟩
  · intro count place member counted positive fits
    have size : (wrap64 (count * b.program.wordSize)).toNat =
        (count * settings.wordSize).toNat := by
      have := Int.mul_nonneg counted (Int.le_trans (by decide) positive)
      rw [word, wrap64_eq_bmod, Int.bmod_eq_of_le (by omega) (by omega)]
    rw [← size]
    exact mem_regions_of_alloc member
  · intro text place asked
    exact found.mpr (laid.stored text place asked)
  · intro text place text' place' asked asked'
    have stored := laid.stored text place asked
    have stored' := laid.stored text' place' asked'
    constructor
    · rintro rfl
      exact congrArg (·.2) (List.inj_on_of_nodup_map (laid.strings_nodup small) stored stored' rfl)
    · rintro rfl
      exact congrArg (·.1) (List.inj_on_of_nodup_map laid.texts stored stored' rfl)
  · intro text place
    rw [found, laid.mem_strings_iff]
  · rw [Machine.load_isOk_iff, params]
  · intro m loaded from_ until_ text place stored noZero
    refine laid.text_loaded ?_ loaded (found.mp stored) noZero
    rw [base]
    exact ⟨from_, until_⟩

/-- Words, a text that is asked for twice with code in between, and the empty text. -/
def mixedRequests : List Request := [.alloc 2, .string "hi", .emit .ret, .string "hi", .string ""]

/-- What comes of `mixedRequests`. -/
def mixedBuilder : Builder where
  program :=
    { code := #[.ret]
      data := #[0, 0, 0, 0, 104, 105, 0, 0]
      strings := [(0x2004, "hi"), (0x2007, "")] }
  log := #[(.alloc 2, some 0x2000), (.string "hi", some 0x2004), (.emit .ret, none),
    (.string "hi", some 0x2004), (.string "", some 0x2007)]

theorem storage_kept_apart_mixed :
    mixedRequests.foldl attempt (Assembly.start {}).builder = mixedBuilder ∧
    mixedBuilder.program.data.size < 0x8000000000000000 ∧
    (∀ hash : Text → UInt64, (mixedRequests.foldl (HashedBuilder.attempt hash)
      ⟨(Assembly.start {}).builder, fun _ => []⟩).builder = mixedBuilder) ∧
    mixedBuilder.regions =
      [⟨0x2000, .words 4⟩, ⟨0x2004, .text "hi"⟩, ⟨0x2007, .text ""⟩] ∧
    Tiles 0x2000 mixedBuilder.regions mixedBuilder.program.data.toList ∧
    ∃ m, Machine.load mixedBuilder.program = .ok m ∧ m.memory.text 0x2004 = "hi" := by
  have reached : mixedRequests.foldl attempt (Assembly.start {}).builder = mixedBuilder := by
    decide +kernel
  have small : mixedBuilder.program.data.size < 0x8000000000000000 := by decide
  have keeps := storage_kept_apart {} mixedRequests mixedBuilder reached small
  obtain ⟨m, loaded⟩ := keeps.loads.mpr (by decide)
  refine ⟨reached, small, keeps.hashed, by decide +kernel, (keeps.tiled []).2, m, loaded, ?_⟩
  exact keeps.reads m loaded (by decide) (by decide) "hi" 0x2004 (by decide +kernel)
    (by decide +kernel)

/-- With more parameter registers than there can be, no machine is loaded that could read a text.
Where the size of some words is no 64-bit number, they are given no bytes, and a text is stored in
their place. -/
theorem oversized_unread_and_shared :
    (let settings : Settings := { maxParams := 0x4000000000000000 }
      let b := [Request.string "x"].foldl attempt (Assembly.start settings).builder
      b.program.string? 0x2000 = some (Text.ofString "x") ∧ b.program.data.size = 2 ∧
        Machine.load b.program = .error (.badSize 0x4000000000000000)) ∧
    (let settings : Settings := { wordSize := 0x100000000 }
      let b := [Request.alloc 0x100000000, .string "x"].foldl attempt
        (Assembly.start settings).builder
      b.log.toList = [(.alloc 0x100000000, some 0x2000), (.string "x", some 0x2000)]) := by
  refine ⟨⟨by decide +kernel, by decide +kernel, rfl⟩, by decide +kernel⟩

end Builder

end HighAsm
