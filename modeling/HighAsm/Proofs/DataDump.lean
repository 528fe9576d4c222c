import Mathlib.Data.List.Pairwise
import HighAsm.Proofs.Storage

/-!
# What a listing shows of the data image

The dump of a data image goes through it with two strides: a string constant takes its text and the
zero behind it, anything else a word or a byte. The storage that was handed out tiles the image, and
where words have two bytes every region for words has an even number of them. So a word that is
shown never reaches into a string constant, and the dump meets every string constant where it
begins (`Builder.Laid.dataFrom_shows`). The lines show the whole image, each one the bytes at its
address.
-/

namespace HighAsm

open List

/-! ## Two digits a byte -/

namespace Text

/-- A last digit goes behind the digits of a number that is filled up to some width. -/
theorem hex_concat {width d : Nat} (wide : 1 ≤ width) (n : Nat) (small : d < 16) :
    hex (width + 1) (16 * n + d : Nat) = hex width n ++ ofChars [d.digitChar] := by
  have one : Nat.toDigits 16 d = [d.digitChar] := by
    rw [Nat.toDigits_eq_if (by decide), if_pos small]
  obtain ⟨more, rfl⟩ := Nat.exists_eq_add_of_le' wide
  unfold hex
  rw [if_neg (by omega), if_neg (by omega), Int.natAbs_natCast, Int.natAbs_natCast,
    ← ofChars_append]
  rcases Nat.eq_zero_or_pos n with rfl | positive
  · rw [Nat.mul_zero, Nat.zero_add, one]
    congr 1
    simp [replicate_succ']
  · have digits : Nat.toDigits 16 (16 * n + d) = Nat.toDigits 16 n ++ [d.digitChar] := by
      rw [Nat.toDigits_eq_if (by decide), if_neg (by omega), Nat.mul_add_div (by decide),
        Nat.div_eq_of_lt small, Nat.add_zero, Nat.mul_add_mod, Nat.mod_eq_of_lt small]
    rw [digits, length_append, length_singleton, Nat.add_sub_add_right,
      append_assoc]

/-- A word in four digits is its two bytes in two digits each, the high one first. -/
theorem hex_word (low high : UInt8) :
    hex 4 (low.toNat + 256 * high.toNat : Nat) = hexBytes [high, low] := by
  have bound := low.toNat_lt
  have last : low.toNat % 16 < 16 := Nat.mod_lt _ (by decide)
  have third : low.toNat / 16 < 16 := by omega
  have one : hex 1 (low.toNat / 16 : Nat) = ofChars [(low.toNat / 16).digitChar] := by
    have all : ∀ d < 16, hex 1 (d : Nat) = ofChars [d.digitChar] := by decide +kernel
    exact all _ third
  have word : low.toNat + 256 * high.toNat =
      16 * (16 * high.toNat + low.toNat / 16) + low.toNat % 16 := by omega
  have byte : low.toNat = 16 * (low.toNat / 16) + low.toNat % 16 := by omega
  calc hex 4 (low.toNat + 256 * high.toNat : Nat)
      = hex 2 high.toNat ++ ofChars [(low.toNat / 16).digitChar] ++
          ofChars [(low.toNat % 16).digitChar] := by
        rw [word, hex_concat (by decide) _ last, hex_concat (by decide) _ third]
    _ = hex 2 high.toNat ++ hex 2 (16 * (low.toNat / 16) + low.toNat % 16 : Nat) := by
        rw [hex_concat (Nat.le_refl 1) _ last, one, append_assoc]
    _ = hexBytes [high, low] := by
        rw [← byte]
        simp [hexBytes]

end Text

/-! ## Lines -/

namespace Listing

namespace DataLine

/-- The address that a line begins with. -/
def address : DataLine → Int
  | string address _ | word address _ _ | byte address _ => address

/-- The bytes that a line stands for. -/
def bytes : DataLine → List UInt8
  | string _ text => text ++ [0]
  | word _ low high => [low, high]
  | byte _ value => [value]

/-- The string constant that a line shows. -/
def constant? : DataLine → Option (Int × Text)
  | string address text => some (address, text)
  | word _ _ _ | byte _ _ => none

/-- No byte of the image belongs to both of two lines. -/
def Apart (l l' : DataLine) : Prop :=
  ∀ i < l.bytes.length, ∀ j < l'.bytes.length, wrap64 (l.address + i) ≠ wrap64 (l'.address + j)

instance : Std.Symm Apart where
  symm _ _ apart i first j second same := apart j second i first same.symm

theorem Apart.ne {l l' : DataLine} (apart : l.Apart l') : l ≠ l' := by
  rintro rfl
  have filled : 0 < l.bytes.length := by cases l <;> simp [bytes]
  exact apart 0 filled 0 filled rfl

/-- How a line is printed: a string constant as its text, and a word or a byte as the hexadecimal
digits of its bytes, the higher one first. -/
def Prints (l : DataLine) : Prop :=
  (∃ text, l = string l.address text ∧
    l.render = Text.join [target l.address, "  db   \"", text, "\",0\n"]) ∨
  l.constant? = none ∧ ∃ size : String, (size = "dw" ∧ l.bytes.length = 2 ∨
      size = "db" ∧ l.bytes.length = 1) ∧
    l.render = Text.join [target l.address, "  ", size, "   $", Text.hexBytes l.bytes.reverse, "\n"]

theorem prints (l : DataLine) : l.Prints := by
  cases l with
  | string address text => exact .inl ⟨text, rfl, rfl⟩
  | word address low high =>
    refine .inr ⟨rfl, "dw", .inl ⟨rfl, rfl⟩, ?_⟩
    rw [render, Text.hex_word]
    rfl
  | byte address value =>
    refine .inr ⟨rfl, "db", .inr ⟨rfl, rfl⟩, ?_⟩
    have digits : Text.hexBytes [value] = Text.hex 2 value.toNat := append_nil _
    change _ = Text.join [_, _, _, _, Text.hexBytes [value], _]
    rw [digits]
    rfl

end DataLine

open DataLine

/-- Lines show bytes from a position on, each one those behind the lines before it. -/
inductive Shows (base : Int) : Nat → List DataLine → List UInt8 → Prop
  | nil (position : Nat) : Shows base position [] []
  | cons {position : Nat} {l : DataLine} {lines : List DataLine} {rest : List UInt8}
      (here : l.address = codeAddress base position)
      (later : Shows base (position + l.bytes.length) lines rest) :
      Shows base position (l :: lines) (l.bytes ++ rest)

namespace Shows

variable {base : Int} {position : Nat} {lines others : List DataLine} {image rest : List UInt8}

theorem append (first : Shows base position lines image)
    (second : Shows base (position + image.length) others rest) :
    Shows base position (lines ++ others) (image ++ rest) := by
  induction first with
  | nil => exact second
  | cons here _ ih =>
    rw [append_assoc]
    refine .cons here (ih ?_)
    rwa [length_append, ← Nat.add_assoc] at second

variable (shows_ : Shows base position lines image)
include shows_

theorem bytes_eq : lines.flatMap bytes = image := by
  induction shows_ with
  | nil => rfl
  | cons _ _ ih => rw [flatMap_cons, ih]

/-- Where a line begins follows from the lines before it. -/
theorem address_eq {before after : List DataLine} {l : DataLine}
    (split : lines = before ++ l :: after) :
    l.address = codeAddress base (position + (before.flatMap bytes).length) := by
  induction shows_ generalizing before with
  | nil => simp at split
  | cons here _ ih =>
    cases before with
    | nil =>
      cases split
      exact here
    | cons first before =>
      obtain ⟨rfl, later⟩ := List.cons.inj split
      rw [ih later, flatMap_cons, length_append, Nat.add_assoc]

theorem apart (small : position + image.length < 0x8000000000000000) : lines.Pairwise Apart := by
  induction shows_ with
  | nil => exact .nil
  | cons here later ih =>
    rw [length_append] at small
    refine pairwise_cons.mpr ⟨fun l member i inFirst j inSecond same => ?_, ih (by omega)⟩
    obtain ⟨before, after, rfl⟩ := append_of_mem member
    have there := later.address_eq rfl
    have total := congrArg List.length later.bytes_eq
    rw [flatMap_append, flatMap_cons, length_append, length_append] at total
    rw [here, there, codeAddress, codeAddress, wrap64_wrap64_add, wrap64_wrap64_add, Int.add_assoc,
      Int.add_assoc, ← Int.natCast_add, ← Int.natCast_add] at same
    have position := (codeAddress_inj (by omega) (by omega)).mp same
    omega

end Shows

/-! ## Strides -/

section Strides

variable {p : Program} {base address : Int}

theorem dataFrom_string {text : Text} (stored : p.string? address = some text) (b : UInt8)
    (rest : List UInt8) :
    dataFrom p 0 address (b :: rest) =
      .string address text :: dataFrom p text.length (wrap64 (address + 1)) rest := by
  cases rest <;> simp [dataFrom, stored]

theorem dataFrom_byte (single : p.wordSize ≠ 2) (free : p.string? address = none) (b : UInt8)
    (rest : List UInt8) :
    dataFrom p 0 address (b :: rest) =
      .byte address b :: dataFrom p 0 (wrap64 (address + 1)) rest := by
  cases rest <;> simp [dataFrom, free, single]

theorem dataFrom_word (double : p.wordSize = 2) (free : p.string? address = none) (low high : UInt8)
    (rest : List UInt8) :
    dataFrom p 0 address (low :: high :: rest) =
      .word address low high :: dataFrom p 0 (wrap64 (wrap64 (address + 1) + 1)) rest := by
  simp [dataFrom, free, double]

theorem dataFrom_skip (position : Nat) (passed rest : List UInt8) :
    dataFrom p passed.length (codeAddress base position) (passed ++ rest) =
      dataFrom p 0 (codeAddress base (position + passed.length)) rest := by
  induction passed generalizing position with
  | nil => rfl
  | cons b passed ih =>
    rw [length_cons, cons_append, dataFrom, codeAddress_succ, ih, Nat.add_assoc,
      Nat.add_comm 1]

/-- A string constant takes its text and the zero behind it. -/
theorem dataFrom_text {position : Nat} {text : Text}
    (stored : p.string? (codeAddress base position) = some text) (rest : List UInt8) :
    dataFrom p 0 (codeAddress base position) ((text ++ [0]) ++ rest) =
      .string (codeAddress base position) text ::
        dataFrom p 0 (codeAddress base (position + (text ++ [0]).length)) rest := by
  obtain ⟨b, passed, whole⟩ : ∃ b passed, text ++ [0] = b :: passed :=
    exists_cons_of_ne_nil (by simp)
  have length : text.length = passed.length := by
    have total := congrArg List.length whole
    rw [length_append, length_cons] at total
    exact Nat.succ.inj total
  rw [whole, cons_append, dataFrom_string stored, codeAddress_succ, length, dataFrom_skip,
    length_cons, Nat.add_assoc, Nat.add_comm 1]

/-- What the dump says of bytes that hold no string constant, before it goes on behind them. -/
def Plainly (p : Program) (base : Int) (position : Nat) (plain rest : List UInt8) : Prop :=
  ∃ lines, dataFrom p 0 (codeAddress base position) (plain ++ rest) =
      lines ++ dataFrom p 0 (codeAddress base (position + plain.length)) rest ∧
    Shows base position lines plain ∧ lines.filterMap constant? = []

theorem Plainly.cons {position : Nat} {plain rest : List UInt8} {l : DataLine}
    (here : l.address = codeAddress base position) (other : l.constant? = none)
    (dumped : dataFrom p 0 (codeAddress base position) (l.bytes ++ (plain ++ rest)) =
      l :: dataFrom p 0 (codeAddress base (position + l.bytes.length)) (plain ++ rest))
    (later : Plainly p base (position + l.bytes.length) plain rest) :
    Plainly p base position (l.bytes ++ plain) rest := by
  obtain ⟨lines, goes, shown, plainly⟩ := later
  refine ⟨l :: lines, ?_, .cons here shown, ?_⟩
  · rw [append_assoc, dumped, goes, length_append, Nat.add_assoc, cons_append]
  · rw [filterMap_cons_none other, plainly]

/-- Bytes are shown one by one where words have one byte. -/
theorem plainly_bytes (single : p.wordSize ≠ 2) {position : Nat} {plain : List UInt8}
    (free : ∀ k < plain.length, p.string? (codeAddress base (position + k)) = none)
    (rest : List UInt8) : Plainly p base position plain rest := by
  induction plain generalizing position with
  | nil => exact ⟨[], rfl, .nil _, rfl⟩
  | cons b plain ih =>
    have here : p.string? (codeAddress base position) = none := free 0 (Nat.succ_pos _)
    refine .cons (l := .byte (codeAddress base position) b) rfl rfl ?_ (ih fun k inside => ?_)
    · exact (dataFrom_byte single here b _).trans (by rw [codeAddress_succ]; rfl)
    · change p.string? (codeAddress base (position + 1 + k)) = none
      rw [Nat.add_assoc, Nat.add_comm 1 k]
      exact free (k + 1) (Nat.succ_lt_succ inside)

/-- An even number of bytes is shown two by two where words have two bytes. -/
theorem plainly_words (double : p.wordSize = 2) {position : Nat} {plain : List UInt8}
    (even : plain.length % 2 = 0)
    (free : ∀ k < plain.length, p.string? (codeAddress base (position + k)) = none)
    (rest : List UInt8) : Plainly p base position plain rest := by
  match plain with
  | [] => exact ⟨[], rfl, .nil _, rfl⟩
  | [b] => contradiction
  | low :: high :: plain =>
    have here : p.string? (codeAddress base position) = none := free 0 (Nat.succ_pos _)
    rw [length_cons, length_cons] at even free
    have later : Plainly p base (position + 2) plain rest :=
      plainly_words double (by omega) (fun k inside => by
        rw [Nat.add_assoc, Nat.add_comm 2 k]
        exact free (k + 2) (by omega)) rest
    refine .cons (l := .word (codeAddress base position) low high) rfl rfl ?_ later
    exact (dataFrom_word double here low high _).trans
      (by rw [codeAddress_succ, codeAddress_succ]; rfl)

end Strides

end Listing

/-! ## The dump of an image -/

namespace Builder

open Listing DataLine

variable {b : Builder}

/-- Storage for words of two bytes has an even number of them, even where the product wraps. -/
theorem words_even (double : b.program.wordSize = 2) {place : Int} {size : Nat}
    (member : ⟨place, .words size⟩ ∈ b.regions) : size % 2 = 0 := by
  obtain ⟨count, -, rfl⟩ := exists_alloc_of_mem member
  rw [double, wrap64_eq_bmod]
  have even : (count * 2).bmod 0x10000000000000000 % 2 = 0 := by
    rw [Int.bmod_def]
    split_ifs <;> omega
  omega

namespace Laid

variable (laid : Laid b) (small : b.program.data.size < 0x8000000000000000)
include laid small

/-- No string constant begins in storage for words. -/
theorem string?_words {before after : List Region} {place : Int} {size : Nat}
    (split : b.regions = before ++ ⟨place, .words size⟩ :: after) {k : Nat} (inside : k < size) :
    b.program.string?
      (codeAddress b.program.dataBase ((Region.image before).length + k)) = none := by
  rw [Option.eq_none_iff_forall_ne_some]
  intro text stored
  have member := laid.mem_strings_iff.mp ((laid.string?_eq_some_iff small).mp stored)
  have words : (⟨place, .words size⟩ : Region) ∈ b.regions := by simp [split]
  have apart := (laid.tiles.apart (by simpa using small)).forall words member (by simp)
  refine apart k (by simpa [Region.bytes, Content.bytes] using inside) 0 (by
    simp [Region.bytes, Content.bytes]) ?_
  have there : place = _ := laid.tiles.places before _ after split
  rw [there, wrap64_wrap64_add, codeAddress, wrap64_wrap64_add]
  congr 1
  omega

/-- The dump goes from region to region, and shows the string constants among them. -/
theorem dataFrom_shows (sized : b.program.wordSize = 1 ∨ b.program.wordSize = 2)
    {before rest : List Region} (split : b.regions = before ++ rest) :
    Shows b.program.dataBase (Region.image before).length
      (dataFrom b.program 0 (codeAddress b.program.dataBase (Region.image before).length)
        (Region.image rest)) (Region.image rest) ∧
    (dataFrom b.program 0 (codeAddress b.program.dataBase (Region.image before).length)
      (Region.image rest)).filterMap constant? = rest.filterMap Region.string? := by
  induction rest generalizing before with
  | nil => exact ⟨.nil _, rfl⟩
  | cons r rest ih =>
    have later : b.regions = (before ++ [r]) ++ rest := by simpa using split
    obtain ⟨shown, constants⟩ := ih later
    rw [Region.image_append, Region.image_cons, Region.image_nil, append_nil,
      length_append] at shown constants
    have there := laid.tiles.places before r rest split
    rw [Region.image_cons]
    obtain ⟨place, content⟩ := r
    change place = codeAddress _ _ at there
    cases content with
    | text text =>
      have stored : b.program.string? place = some text :=
        (laid.string?_eq_some_iff small).mpr (laid.mem_strings_iff.mpr (by simp [split]))
      rw [there] at stored
      rw [Region.bytes, Content.bytes, dataFrom_text stored]
      exact ⟨.cons rfl shown, there ▸ congrArg _ constants⟩
    | words size =>
      have free (k : Nat) (inside : k < (List.replicate size (0 : UInt8)).length) :=
        laid.string?_words small split (by simpa using inside)
      have plainly : Plainly b.program b.program.dataBase (Region.image before).length
          (List.replicate size 0) (Region.image rest) := by
        rcases sized with single | double
        · exact plainly_bytes (by simp [single]) free _
        · refine plainly_words double ?_ free _
          rw [length_replicate]
          have member : (⟨place, .words size⟩ : Region) ∈ b.regions := by simp [split]
          exact words_even double member
      obtain ⟨lines, dumped, shows_, none_⟩ := plainly
      rw [Region.bytes, Content.bytes, dumped]
      refine ⟨shows_.append shown, ?_⟩
      rw [filterMap_append, none_, nil_append]
      exact constants

end Laid

end Builder

namespace Listing

open DataLine

/-- The lines of a data dump are a faithful partition of the image of a program. -/
structure Partitions (p : Program) (lines : List DataLine) : Prop where
  printed : data p =
    if lines = [] then [] else Text.ofString "; data\n" ++ lines.flatMap DataLine.render
  /-- The lines stand for the bytes of the image in order. -/
  stored : lines.flatMap bytes = p.data.toList
  /-- So a line is at the address of its first byte. -/
  places : ∀ before l after, lines = before ++ l :: after →
    l.address = wrap64 (p.dataBase + (before.flatMap bytes).length)
  first : ∀ l ∈ lines.head?, l.address = p.dataBase
  consecutive : ∀ before l next after, lines = before ++ l :: next :: after →
    next.address = wrap64 (l.address + l.bytes.length)
  last : ∀ l ∈ lines.getLast?, wrap64 (l.address + l.bytes.length) = p.dataEnd
  strings : lines.filterMap constant? = p.strings
  once : ∀ place text, p.string? place = some text → lines.count (.string place text) = 1
  prints : ∀ l ∈ lines, l.Prints
  /-- No word or byte that is shown is a part of a string constant or of the zero behind it. -/
  apart : ∀ l ∈ lines, l.constant? = none → ∀ place text, p.string? place = some text →
    ∀ i < l.bytes.length, ∀ j < text.length + 1, wrap64 (l.address + i) ≠ wrap64 (place + j)

end Listing

namespace Builder

open Listing DataLine

/-- After any requests with words of one or two bytes, the dump of the data image is a faithful
partition of it. The data base and the length of the image are signed 64-bit numbers. -/
theorem dump_partitions_image {settings : Settings}
    (sized : settings.wordSize = 1 ∨ settings.wordSize = 2)
    (ranged : -0x8000000000000000 ≤ settings.dataBase ∧ settings.dataBase < 0x8000000000000000)
    (requests : List Request) {b : Builder}
    (reached : requests.foldl attempt (Assembly.start settings).builder = b)
    (small : b.program.data.size < 0x8000000000000000) :
    Partitions b.program (dataLines b.program) := by
  have grows := attempts_grow (Assembly.start settings).builder requests
  have laid := (laid_start settings).grows grows
  obtain ⟨base, word, -⟩ := grows.program_fixed
  rw [reached] at laid base word
  change b.program.dataBase = settings.dataBase at base
  change b.program.wordSize = settings.wordSize at word
  have start : codeAddress b.program.dataBase 0 = b.program.dataBase := by
    rw [base, codeAddress, Int.natCast_zero, Int.add_zero, wrap64_eq_bmod,
      Int.bmod_eq_of_le (by omega) (by omega)]
  obtain ⟨shown, constants⟩ :=
    laid.dataFrom_shows small (word ▸ sized) (List.nil_append b.regions).symm
  rw [Region.image_nil, List.length_nil, start, laid.tiles.bytes] at shown constants
  change Shows _ _ (dataLines b.program) _ at shown
  change (dataLines b.program).filterMap _ = _ at constants
  rw [← laid.strings] at constants
  have separate := shown.apart (by simpa using small)
  have found {place : Int} {text : Text} (stored : b.program.string? place = some text) :
      .string place text ∈ dataLines b.program := by
    rw [laid.string?_eq_some_iff small, ← constants, List.mem_filterMap] at stored
    obtain ⟨l, member, constant⟩ := stored
    cases l with
    | string _ _ =>
      obtain ⟨rfl, rfl⟩ := Prod.mk.inj (Option.some.inj constant)
      exact member
    | word _ _ _ | byte _ _ => contradiction
  have places {before after : List DataLine} {l : DataLine}
      (split : dataLines b.program = before ++ l :: after) :
      l.address = wrap64 (b.program.dataBase + (before.flatMap bytes).length) := by
    rw [shown.address_eq split, Nat.zero_add, codeAddress]
  have behind {before after : List DataLine} {l : DataLine}
      (split : dataLines b.program = before ++ l :: after) :
      wrap64 (l.address + l.bytes.length) =
        wrap64 (b.program.dataBase + ((before ++ [l]).flatMap bytes).length) := by
    rw [places split, wrap64_wrap64_add, List.flatMap_append, List.flatMap_singleton,
      List.length_append, Int.natCast_add, Int.add_assoc]
  have image := shown.bytes_eq
  exact {
    printed := by
      have empty : b.program.data.isEmpty = true ↔ dataLines b.program = [] := by
        rw [Array.isEmpty_iff, ← Array.toList_eq_nil_iff]
        constructor
        · intro none_
          rw [dataLines, none_, dataFrom]
        · intro none_
          rw [← image, none_, List.flatMap_nil]
      rw [data]
      simp only [empty]
    stored := image
    places := fun _ _ _ => places
    first := fun l member => by
      obtain ⟨after, split⟩ := List.head?_eq_some_iff.mp member
      have front : dataLines b.program = [] ++ l :: after := split
      exact (places front).trans start
    consecutive := fun before l next after split => by
      have later : dataLines b.program = (before ++ [l]) ++ next :: after := by simpa using split
      rw [behind split, places later]
    last := fun l member => by
      obtain ⟨before, split⟩ := List.getLast?_eq_some_iff.mp member
      rw [behind split, ← split, image, Array.length_toList, Program.dataEnd]
    strings := constants
    once := fun place text stored =>
      List.count_eq_one_of_mem (separate.imp Apart.ne) (found stored)
    prints := fun l _ => l.prints
    apart := fun l member other place text stored i inside j within => by
      have differs : l ≠ .string place text := by
        rintro rfl
        contradiction
      refine separate.forall member (found stored) differs i inside j ?_
      rwa [bytes, List.length_append] }

/-- Words, texts of odd and even length with words between them, and a text that is asked for
again. -/
def oddRequests : List Request :=
  [.alloc 1, .string "hi", .alloc 2, .string "", .emit .ret, .string "hi", .string "odd"]

/-- What comes of `oddRequests`. -/
def oddBuilder : Builder := oddRequests.foldl attempt (Assembly.start {}).builder

theorem dump_partitions_image_odd :
    dataLines oddBuilder.program =
      [.word 0x2000 0 0, .string 0x2002 "hi", .word 0x2005 0 0, .word 0x2007 0 0,
        .string 0x2009 "", .string 0x200a "odd"] ∧
    oddBuilder.program.strings =
      [(0x2002, Text.ofString "hi"), (0x2009, []), (0x200a, Text.ofString "odd")] ∧
    Partitions oddBuilder.program (dataLines oddBuilder.program) := by
  refine ⟨by decide +kernel, by decide +kernel, ?_⟩
  exact dump_partitions_image (.inr rfl) (by decide) oddRequests rfl (by decide +kernel)

end Builder

end HighAsm
