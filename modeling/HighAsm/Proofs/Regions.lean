import HighAsm.Proofs.Requests

/-!
# Storage in the data image

The log of a builder tells which storage was handed out: some bytes for every request for words, and
a place for every text that was not stored before. These regions tile the data image in order
(`Tiles`), which every request preserves (`Laid.perform`). While the image is shorter than 2^63
bytes, no address belongs to two of them.
-/

namespace HighAsm

open List

/-- What is kept in storage that was handed out. -/
inductive Content
  /-- A number of bytes for words, which are zero in the image. -/
  | words (size : Nat)
  /-- A string constant, which ends with a zero byte. -/
  | text (text : Text)
  deriving DecidableEq, Repr

/-- The bytes of the image that hold a content. -/
def Content.bytes : Content → List UInt8
  | .words size => List.replicate size 0
  | .text chars => chars ++ [0]

/-- Storage at an address. -/
structure Region where
  place : Int
  content : Content
  deriving DecidableEq, Repr

namespace Region

/-- The bytes of a region. -/
def bytes (r : Region) : List UInt8 := r.content.bytes

/-- The bytes of regions one after the other. -/
def image (regions : List Region) : List UInt8 := regions.flatMap bytes

/-- The string constant of a region and its address. -/
def string? (r : Region) : Option (Int × Text) :=
  match r.content with
  | .words _ => none
  | .text text => some (r.place, text)

/-- The address of a region for words. -/
def words? (r : Region) : Option Int :=
  match r.content with
  | .words _ => some r.place
  | .text _ => none

/-- No byte belongs to both of two regions. -/
def Apart (r s : Region) : Prop :=
  ∀ i < r.bytes.length, ∀ j < s.bytes.length, wrap64 (r.place + i) ≠ wrap64 (s.place + j)

instance : Std.Symm Apart where
  symm _ _ apart i first j second same := apart j second i first same.symm

@[simp] theorem image_nil : image [] = [] := rfl

@[simp] theorem image_append (first second : List Region) :
    image (first ++ second) = image first ++ image second := flatMap_append ..

@[simp] theorem image_cons (r : Region) (rest : List Region) :
    image (r :: rest) = r.bytes ++ image rest := flatMap_cons ..

end Region

/-! ## Tiling -/

/-- Regions fill an image from its base on, each behind those before it. -/
structure Tiles (base : Int) (regions : List Region) (image : List UInt8) : Prop where
  bytes : Region.image regions = image
  places : ∀ before r after, regions = before ++ r :: after →
    r.place = wrap64 (base + (Region.image before).length)

namespace Tiles

open Region

variable {base : Int} {regions : List Region} {image : List UInt8} {r s : Region}

theorem nil (base : Int) : Tiles base [] [] where
  bytes := rfl
  places := by simp

variable (tiles : Tiles base regions image)

include tiles

theorem push (content : Content) : Tiles base (regions ++ [⟨wrap64 (base + image.length), content⟩])
      (image ++ content.bytes) where
  bytes := by simp [tiles.bytes, Region.bytes]
  places := by
    intro before r after split
    -- The region is the new one if nothing follows it, and one of the old ones otherwise.
    rcases eq_nil_or_concat after with rfl | ⟨front, last, rfl⟩
    · obtain ⟨rfl, same⟩ := append_inj' split rfl
      obtain rfl := (List.cons.inj same).1
      rw [tiles.bytes]
    · rw [concat_eq_append, ← cons_append, ← append_assoc] at split
      obtain ⟨earlier, -⟩ := append_inj' split rfl
      exact tiles.places before r front earlier

theorem split (member : r ∈ regions) : ∃ before after, image = before ++ r.bytes ++ after ∧
      r.place = wrap64 (base + before.length) := by
  obtain ⟨before, after, rfl⟩ := append_of_mem member
  refine ⟨Region.image before, Region.image after, ?_, tiles.places before r after rfl⟩
  simp [← tiles.bytes]

/-- Two regions of a tiled image have no byte in common. -/
theorem apart (small : image.length < 0x8000000000000000) : regions.Pairwise Apart := by
  rw [pairwise_iff_forall_sublist]
  intro r s both
  obtain ⟨front, back, rfl, early, late⟩ := cons_sublist_iff.mp both
  obtain ⟨before, between, rfl⟩ := append_of_mem early
  obtain ⟨between', after, rfl⟩ := append_of_mem (singleton_sublist.mp late)
  have first := tiles.places before r (between ++ (between' ++ s :: after)) (by simp)
  have second := tiles.places (before ++ r :: between ++ between') s after (by simp)
  have total := congrArg List.length tiles.bytes
  simp only [image_append, image_cons, length_append] at second total
  -- Equal addresses would be at equal positions, but the second region starts behind the first.
  intro i inFirst j inSecond same
  rw [first, second, wrap64_wrap64_add, wrap64_wrap64_add, Int.add_assoc, Int.add_assoc,
    ← Int.natCast_add, ← Int.natCast_add] at same
  have position := (codeAddress_inj (by omega) (by omega)).mp same
  omega

/-- Regions that are not empty have different places. -/
theorem places_nodup (small : image.length < 0x8000000000000000) {pick : Region → Option Int}
    (long : ∀ r ∈ regions, ∀ place, pick r = some place → r.place = place ∧ 0 < r.bytes.length) :
    (regions.filterMap pick).Nodup := by
  rw [nodup_iff_pairwise_ne, pairwise_filterMap]
  refine (tiles.apart small).imp_of_mem ?_
  intro r s early late separate place first place' second same
  obtain ⟨rfl, some₁⟩ := long r early place first
  obtain ⟨rfl, some₂⟩ := long s late place' second
  exact separate 0 some₁ 0 some₂ (by rw [same])

end Tiles

/-! ## What the log hands out -/

namespace Builder

variable {b b' : Builder} {r : Request} {answer : Option Int} {kind : Request → Prop}

/-- The regions after one more request with its answer. The size of words is a 64-bit product, and a
text has one region however often it is asked for. -/
def handOut (wordSize : Int) (regions : List Region) : Request × Option Int → List Region
  | (.alloc count, some place) =>
    regions ++ [⟨place, .words (wrap64 (count * wordSize)).toNat⟩]
  | (.string text, some place) =>
    if regions.any (·.content == .text text) then regions else regions ++ [⟨place, .text text⟩]
  | _ => regions

/-- All storage that was handed out, in order. -/
def regions (b : Builder) : List Region :=
  b.log.toList.foldl (handOut b.program.wordSize) []

theorem handOut_other {wordSize : Int} {regions : List Region} (other : r.isStorage = false) :
    handOut wordSize regions (r, answer) = regions := by
  cases r with
  | alloc count => contradiction
  | string text => contradiction
  | begin _ _ | emit _ | patch _ _ _ | openLoop | closeLoop _ => rfl

theorem handOut_longer (wordSize : Int) (regions : List Region) (entry : Request × Option Int) :
    regions <+: handOut wordSize regions entry := by
  unfold handOut
  split
  · exact prefix_append ..
  · split
    · exact prefix_rfl
    · exact prefix_append ..
  · exact prefix_rfl

/-- The base and the word size of a program never change. -/
theorem perform_fixed (ok : b.perform r = .ok (answer, b')) :
    b'.program.dataBase = b.program.dataBase ∧ b'.program.wordSize = b.program.wordSize ∧
      b'.program.maxParams = b.program.maxParams := by
  rcases r.storage_cases with ⟨count, rfl⟩ | ⟨text, rfl⟩ | other
  · simp [(perform_alloc_ok ok).2.2.2.1]
  · obtain ⟨-, ⟨place, -, -, program⟩ | ⟨-, -, program⟩⟩ := perform_string_ok ok
    · simp [program]
    · simp [program]
  · obtain ⟨-, -, code, procedures, program⟩ := perform_other_ok ok other
    simp [program]

theorem Grows.program_fixed (grows : Grows kind b b') :
    b'.program.dataBase = b.program.dataBase ∧ b'.program.wordSize = b.program.wordSize ∧
      b'.program.maxParams = b.program.maxParams := by
  induction grows with
  | refl => exact ⟨rfl, rfl, rfl⟩
  | step _ _ ok ih =>
    obtain ⟨base, word, params⟩ := perform_fixed ok
    exact ⟨base.trans ih.1, word.trans ih.2.1, params.trans ih.2.2⟩

theorem regions_perform (ok : b.perform r = .ok (answer, b')) :
    b'.regions = handOut b.program.wordSize b.regions (r, answer) := by
  rw [regions, (perform_fixed ok).2.1, perform_log ok, foldl_append]
  rfl

theorem Grows.regions (grows : Grows kind b b') : b.regions <+: b'.regions := by
  induction grows with
  | refl => exact prefix_rfl
  | step _ _ ok ih =>
    rw [regions_perform ok]
    exact ih.trans (handOut_longer ..)

/-- Words that were granted are a region. -/
theorem mem_regions_of_alloc {count place : Int}
    (member : (.alloc count, some place) ∈ b.log.toList) :
    ⟨place, .words (wrap64 (count * b.program.wordSize)).toNat⟩ ∈ b.regions := by
  have kept (log : List (Request × Option Int)) (regions : List Region) :
      regions <+: log.foldl (handOut b.program.wordSize) regions := by
    induction log generalizing regions with
    | nil => exact prefix_rfl
    | cons entry rest ih => exact (handOut_longer ..).trans (ih _)
  obtain ⟨before, after, split⟩ := append_of_mem member
  rw [regions, split, foldl_append, foldl_cons]
  apply (kept after _).subset
  exact mem_append_right _ (mem_singleton.mpr rfl)

theorem handOut_mem {wordSize place : Int} {regions : List Region} {size : Nat}
    {entry : Request × Option Int}
    (member : ⟨place, .words size⟩ ∈ handOut wordSize regions entry) :
    ⟨place, .words size⟩ ∈ regions ∨
      ∃ count, entry = (.alloc count, some place) ∧ size = (wrap64 (count * wordSize)).toNat := by
  unfold handOut at member
  split at member
  · next count there =>
    rcases mem_append.mp member with early | new
    · exact .inl early
    · cases mem_singleton.mp new
      exact .inr ⟨count, rfl, rfl⟩
  · split at member
    · exact .inl member
    · rcases mem_append.mp member with early | new
      · exact .inl early
      · cases mem_singleton.mp new
  · exact .inl member

/-- A region for words comes from a request that was granted. -/
theorem exists_alloc_of_mem {place : Int} {size : Nat}
    (member : ⟨place, .words size⟩ ∈ b.regions) :
    ∃ count, (.alloc count, some place) ∈ b.log.toList ∧
      size = (wrap64 (count * b.program.wordSize)).toNat := by
  -- Read from the start of the log, a region is an old one or comes from an entry.
  have run (log : List (Request × Option Int)) (regions : List Region)
      (member : ⟨place, .words size⟩ ∈ log.foldl (handOut b.program.wordSize) regions) :
      ⟨place, .words size⟩ ∈ regions ∨ ∃ count, (.alloc count, some place) ∈ log ∧
        size = (wrap64 (count * b.program.wordSize)).toNat := by
    induction log generalizing regions with
    | nil => exact .inl member
    | cons entry rest ih =>
      rcases ih _ member with here | ⟨count, later, fits⟩
      · rcases handOut_mem here with early | ⟨count, rfl, fits⟩
        · exact .inl early
        · exact .inr ⟨count, mem_cons_self, fits⟩
      · exact .inr ⟨count, mem_cons_of_mem _ later, fits⟩
  rcases run b.log.toList [] member with none_ | granted
  · contradiction
  · exact granted

theorem handOut_words (wordSize : Int) (regions : List Region) (entry : Request × Option Int) :
    (handOut wordSize regions entry).filterMap Region.words? =
      regions.filterMap Region.words? ++ [entry].filterMap Request.words? := by
  obtain ⟨r, answer⟩ := entry
  cases r with
  | alloc count =>
    cases answer with
    | none => exact (append_nil _).symm
    | some place => exact filterMap_append
  | string text =>
    cases answer with
    | none => exact (append_nil _).symm
    | some place =>
      rw [handOut]
      split
      · exact (append_nil _).symm
      · exact filterMap_append
  | begin _ _ | emit _ | patch _ _ _ | openLoop | closeLoop _ => exact (append_nil _).symm

/-- The places of words are those of the regions for words. -/
theorem words_eq (b : Builder) : b.words = b.regions.filterMap Region.words? := by
  have run (wordSize : Int) (log : List (Request × Option Int)) (regions : List Region) :
      (log.foldl (handOut wordSize) regions).filterMap Region.words? =
        regions.filterMap Region.words? ++ log.filterMap Request.words? := by
    induction log generalizing regions with
    | nil => simp
    | cons entry rest ih =>
      rw [foldl_cons, ih, handOut_words, append_assoc, ← filterMap_append]
      rfl
  rw [words, regions, run]
  rfl

/-! ## The image of a builder -/

/-- The regions of a builder tile its data image, and its string constants are the regions of
texts. -/
structure Laid (b : Builder) : Prop where
  tiles : Tiles b.program.dataBase b.regions b.program.data.toList
  strings : b.program.strings = b.regions.filterMap Region.string?
  texts : (b.program.strings.map (·.2)).Nodup
  /-- Every text that was asked for is stored at the place that was answered. -/
  stored : ∀ text place, (.string text, some place) ∈ b.log.toList →
    (place, text) ∈ b.program.strings

namespace Laid

theorem mem_strings_iff (laid : Laid b) {place : Int} {text : Text} :
    (place, text) ∈ b.program.strings ↔ (⟨place, .text text⟩ : Region) ∈ b.regions := by
  rw [laid.strings, mem_filterMap]
  constructor
  · rintro ⟨⟨place', content⟩, member, same⟩
    cases content with
    | words size => contradiction
    | text text' =>
      cases same
      exact member
  · intro member
    exact ⟨_, member, rfl⟩

theorem empty {p : Program} (data : p.data = #[]) (strings : p.strings = []) :
    Laid { program := p } where
  tiles := by
    rw [data]
    exact Tiles.nil _
  strings := strings
  texts := by
    rw [strings]
    exact nodup_nil
  stored := by simp

variable (laid : Laid b)

include laid

theorem other (ok : b.perform r = .ok (answer, b')) (other : r.isStorage = false) : Laid b' := by
  have same : b'.regions = b.regions := by rw [regions_perform ok, handOut_other other]
  have log := perform_log ok
  obtain ⟨rfl, -, code, procedures, program⟩ := perform_other_ok ok other
  constructor
  · simpa [same, program] using laid.tiles
  · simpa [same, program] using laid.strings
  · simpa [program] using laid.texts
  · intro text place member
    rw [log, mem_append] at member
    rcases member with early | late
    · simpa [program] using laid.stored text place early
    · simp at late

theorem alloc {count : Int} (ok : b.perform (.alloc count) = .ok (answer, b')) : Laid b' := by
  have grown := regions_perform ok
  have log := perform_log ok
  obtain ⟨-, -, rfl, program, -⟩ := perform_alloc_ok ok
  rw [handOut] at grown
  constructor
  · rw [grown, program, Program.dataEnd]
    simpa [Content.bytes] using laid.tiles.push (.words (wrap64 (count * b.program.wordSize)).toNat)
  · simp [grown, program, laid.strings, Region.string?]
  · simpa [program] using laid.texts
  · intro text place member
    rw [log, mem_append] at member
    rcases member with early | late
    · simpa [program] using laid.stored text place early
    · simp at late

theorem string {text : Text} (ok : b.perform (.string text) = .ok (answer, b')) : Laid b' := by
  have grown := regions_perform ok
  have log := perform_log ok
  have known : b.regions.any (·.content == .text text) =
      b.program.strings.any (·.2 == text) := by
    rw [Bool.eq_iff_iff, any_eq_true, any_eq_true]
    constructor
    · rintro ⟨⟨place, content⟩, member, same⟩
      obtain rfl := beq_iff_eq.mp same
      exact ⟨(place, text), laid.mem_strings_iff.mpr member, beq_self_eq_true _⟩
    · rintro ⟨⟨place, text'⟩, member, same⟩
      obtain rfl := beq_iff_eq.mp same
      exact ⟨_, laid.mem_strings_iff.mp member, beq_self_eq_true _⟩
  obtain ⟨-, ⟨place, member, rfl, program⟩ | ⟨fresh, rfl, program⟩⟩ := perform_string_ok ok
  · have old : b.program.strings.any (·.2 == text) :=
      any_eq_true.mpr ⟨_, member, beq_self_eq_true text⟩
    rw [handOut, known, if_pos old] at grown
    constructor
    · simpa [grown, program] using laid.tiles
    · simpa [grown, program] using laid.strings
    · simpa [program] using laid.texts
    · intro text' place' asked
      rw [log, mem_append, mem_singleton] at asked
      rw [program]
      rcases asked with early | late
      · exact laid.stored text' place' early
      · cases late
        exact member
  · have new : ¬ b.program.strings.any (·.2 == text) := by
      intro old
      obtain ⟨stored, member, same⟩ := any_eq_true.mp old
      exact fresh stored member (beq_iff_eq.mp same)
    rw [handOut, known, if_neg new] at grown
    constructor
    · rw [grown, program, Program.dataEnd]
      simpa [Content.bytes] using laid.tiles.push (.text text)
    · simp [grown, program, laid.strings, Region.string?]
    · rw [program, map_append, nodup_append]
      refine ⟨laid.texts, by simp, ?_⟩
      rintro _ early _ late rfl
      obtain ⟨stored, member, rfl⟩ := mem_map.mp early
      exact fresh stored member (by simpa using late)
    · intro text' place' asked
      rw [log, mem_append, mem_singleton] at asked
      rw [program, mem_append]
      rcases asked with early | late
      · exact .inl (laid.stored text' place' early)
      · cases late
        exact .inr (mem_singleton.mpr rfl)

theorem perform (ok : b.perform r = .ok (answer, b')) : Laid b' := by
  rcases r.storage_cases with ⟨count, rfl⟩ | ⟨text, rfl⟩ | other
  · exact laid.alloc ok
  · exact laid.string ok
  · exact laid.other ok other

theorem grows (grows : Grows kind b b') : Laid b' := by
  induction grows with
  | refl => exact laid
  | step _ _ ok ih => exact ih.perform ok

section

variable (small : b.program.data.size < 0x8000000000000000)
include small

/-- Words have addresses of their own, if each request for them is for some bytes. -/
theorem words_nodup (some_ : ∀ r ∈ b.regions, r.content ≠ .words 0) : b.words.Nodup := by
  rw [words_eq]
  refine laid.tiles.places_nodup (by simpa using small) ?_
  rintro ⟨there, content⟩ member place word
  cases content with
  | text _ => contradiction
  | words size =>
    refine ⟨Option.some.inj word, ?_⟩
    have positive : size ≠ 0 := by
      rintro rfl
      exact some_ _ member rfl
    simpa [Region.bytes, Content.bytes] using Nat.pos_of_ne_zero positive

/-- String constants have addresses of their own. -/
theorem strings_nodup : (b.program.strings.map (·.1)).Nodup := by
  rw [laid.strings, map_filterMap]
  refine laid.tiles.places_nodup (by simpa using small) ?_
  rintro ⟨there, content⟩ - place text
  cases content with
  | words size => contradiction
  | text chars => exact ⟨Option.some.inj text, by simp [Region.bytes, Content.bytes]⟩

/-- The address behind the image is not that of a string constant. -/
theorem dataEnd_fresh {place : Int} {text : Text} (member : (place, text) ∈ b.program.strings) :
    place ≠ b.program.dataEnd := by
  obtain ⟨before, after, image, there⟩ := laid.tiles.split (laid.mem_strings_iff.mp member)
  have length := congrArg List.length image
  simp only [Array.length_toList, length_append, Region.bytes, Content.bytes,
    length_singleton] at length
  intro same
  have position := (codeAddress_inj (by omega) (by omega)).mp (there.symm.trans same)
  omega

end

/-- The image only becomes longer. -/
theorem size_le (grows : Grows kind b b') : b.program.data.size ≤ b'.program.data.size := by
  obtain ⟨more, regions⟩ := grows.regions
  have image := (laid.grows grows).tiles.bytes
  rw [← regions, Region.image_append, laid.tiles.bytes] at image
  have length := congrArg List.length image
  simp only [length_append, Array.length_toList] at length
  omega

end Laid

end Builder

end HighAsm
