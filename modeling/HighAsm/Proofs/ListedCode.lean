import HighAsm.Listing
import HighAsm.Proofs.Numerals
import HighAsm.Proofs.ProcedureNames
import HighAsm.Proofs.Storage

/-!
# Code read back from its listing

A line of a listing has an address, a mnemonic and an argument. Several instructions share a
mnemonic, and their arguments tell them apart; where there is no argument, the blanks before it are
not printed. `Listing.read?` reads a mnemonic with its argument, and finds everything but the high
bits of constants, of which a listing shows the low sixteen bits (`Instr.narrowed`). The machine
looks at no other bits of a constant either. So two codes with one listing differ in nothing that a
run can show.
-/

namespace HighAsm

open List

/-! ## Narrowed constants -/

/-- The operand with no more of a constant than its low sixteen bits. -/
def Operand.narrowed : Operand → Operand
  | .const n => .const (n % 65536)
  | .var address => .var address

/-- The instruction with no more of a constant than its low sixteen bits. -/
def Instr.narrowed : Instr → Instr
  | .load source => .load source.narrowed
  | .binary op right => .binary op right.narrowed
  | .loadParam register source => .loadParam register source.narrowed
  | i => i

/-- The program with the constants of its code narrowed. -/
def Program.narrowed (p : Program) : Program := { p with code := p.code.map Instr.narrowed }

namespace Program

variable (p : Program)

theorem narrowed_withCode (code : List Instr) :
    (p.withCode code).narrowed = p.withCode (code.map Instr.narrowed) := by
  simp only [narrowed, withCode, map_toArray]

theorem codeEnd_narrowed : p.narrowed.codeEnd = p.codeEnd := by
  simp only [codeEnd, narrowed, Array.size_map]

theorem stopOf_narrowed (entry : Int) : p.narrowed.stopOf entry = p.stopOf entry := by
  have among (procedures : List Procedure) :
      p.narrowed.stopAmong procedures = p.stopAmong procedures := by
    unfold stopAmong
    split
    · rfl
    · exact p.codeEnd_narrowed
  exact among _

theorem instr?_narrowed (address : Int) :
    p.narrowed.instr? address = (p.instr? address).map Instr.narrowed := by
  have index : p.narrowed.index? address = p.index? address := by
    simp only [index?, narrowed, Array.size_map]
  rw [instr?, instr?, index, Option.map_bind]
  apply Option.bind_congr
  intro i _
  exact Array.getElem?_map ..

end Program

namespace Machine

variable (p : Program) (m : Machine)

/-- A constant is wrapped at the word size, which is at most sixteen bits. -/
theorem wrap_narrowed (n : Int) : wrap p (n % 65536) = wrap p n := by
  unfold wrap
  split
  · rw [← Int.emod_bmod, Int.emod_emod_of_dvd n (by decide), Int.emod_bmod]
  · exact Int.emod_bmod n 65536

theorem value_narrowed (o : Operand) : m.value p.narrowed o.narrowed = m.value p o := by
  cases o with
  | const n => exact wrap_narrowed p n
  | var address => rfl

/-- An instruction does what it does with narrowed constants. -/
theorem execute_narrowed (pc : Int) (i : Instr) :
    m.execute p.narrowed pc i.narrowed = m.execute p pc i := by
  cases i with
  | load source | loadParam register source => simp only [Instr.narrowed, execute, value_narrowed]
  | binary op right =>
    simp only [Instr.narrowed, execute, value_narrowed]
    rfl
  | call entry => simp only [Instr.narrowed, execute, Program.stopOf_narrowed]
  | loadIndirect width | storeIndirect width => cases width <;> rfl
  | store _ | copyToTemp | storeParam _ _ | jump _ _ | loopHead _ | loopIndex | loopNext _ | ret
  | undefined => rfl

theorem round_narrowed (pc : Int) : m.round p.narrowed pc = m.round p pc := by
  simp only [round, Program.instr?_narrowed]
  cases p.instr? pc with
  | none => rfl
  | some i => simp only [Option.map_some, execute_narrowed]

theorem run_narrowed (rounds : Nat) (pc : Int) :
    run p.narrowed rounds m pc = run p rounds m pc := by
  induction rounds generalizing m pc with
  | zero => rfl
  | succ rounds ih => simp only [run, round_narrowed, ih]

theorem callAt_narrowed (entry : Int) (args : List Int) :
    m.callAt p.narrowed entry args = m.callAt p entry args := by
  simp only [callAt, run_narrowed, Program.stopOf_narrowed]
  rfl

theorem call_narrowed (name : Text) (args : List Int) :
    m.call p.narrowed name args = m.call p name args := by
  have named : p.narrowed.procedureNamed? name = p.procedureNamed? name := rfl
  simp only [call, named, callAt_narrowed]

end Machine

/-- No machine tells two programs apart: it is loaded in the same way, and whatever its state, every
operation of it that looks at the program comes to the same under both. -/
structure Program.Indistinguishable (p q : Program) : Prop where
  load : Machine.load p = Machine.load q
  call : ∀ (m : Machine) name args, m.call p name args = m.call q name args
  callAt : ∀ (m : Machine) entry args, m.callAt p entry args = m.callAt q entry args
  word : ∀ (m : Machine) address, m.word p address = m.word q address
  setWord : ∀ (m : Machine) address value, m.setWord p address value = m.setWord q address value

/-- Rows of instructions that differ in the high bits of constants only do the same in a program. -/
theorem Program.indistinguishable_of_narrowed (p : Program) {code other : List Instr}
    (same : code.map Instr.narrowed = other.map Instr.narrowed) :
    (p.withCode code).Indistinguishable (p.withCode other) := by
  have programs : (p.withCode code).narrowed = (p.withCode other).narrowed := by
    rw [narrowed_withCode, narrowed_withCode, same]
  exact {
    load := rfl
    call := fun m name args => by
      rw [← Machine.call_narrowed, programs, Machine.call_narrowed]
    callAt := fun m entry args => by
      rw [← Machine.callAt_narrowed, programs, Machine.callAt_narrowed]
    word := fun _ _ => rfl
    setWord := fun _ _ _ => rfl }

/-! ## Texts without blanks -/

namespace Text

/-- Every byte of a text can be seen. -/
def Solid (t : Text) : Prop := ∀ b ∈ t, 32 < b

instance (t : Text) : Decidable (Solid t) := List.decidableBAll _ t

theorem Solid.append {t u : Text} (first : Solid t) (second : Solid u) : Solid (t ++ u) :=
  forall_mem_append.mpr ⟨first, second⟩

theorem Solid.ne_space {t : Text} (solid : Solid t) {b : UInt8} (member : b ∈ t) : b ≠ 32 := by
  rintro rfl
  exact absurd (solid 32 member) (by decide)

theorem digitsFrom?_bytes {base value n : Nat} {t : Text}
    (read : digitsFrom? base value t = some n) : ∀ b ∈ t, 48 ≤ b := by
  induction t generalizing value with
  | nil => exact forall_mem_nil _
  | cons b rest ih =>
    rw [digitsFrom?] at read
    split at read
    · next d digit =>
      split at read
      · refine forall_mem_cons.mpr ⟨?_, ih read⟩
        unfold digitValue? at digit
        grind
      · contradiction
    · contradiction

/-- A number is spelled with signs and digits. -/
theorem value?_bytes {base : Nat} {t : Text} {n : Int} (read : value? base t = some n) :
    ∀ b ∈ t, b = 43 ∨ b = 45 ∨ 48 ≤ b := by
  obtain ⟨_, lifted, -⟩ := Option.map_eq_some_iff.mp read
  obtain ⟨magnitude, digits, -⟩ := Option.bind_eq_some_iff.mp lifted
  have unsigned : ∀ b ∈ (sign t).2, 48 ≤ b := by
    unfold digits? at digits
    split at digits
    · contradiction
    · exact digitsFrom?_bytes digits
  unfold sign at unsigned
  split at unsigned
  · exact forall_mem_cons.mpr ⟨.inl rfl, fun b member => .inr (.inr (unsigned b member))⟩
  · exact forall_mem_cons.mpr
      ⟨.inr (.inl rfl), fun b member => .inr (.inr (unsigned b member))⟩
  · exact fun b member => .inr (.inr (unsigned b member))

theorem solid_of_value? {base : Nat} {t : Text} {n : Int} (read : value? base t = some n) :
    Solid t := by
  intro b member
  have byte := value?_bytes read b member
  grind

theorem comma_not_mem_of_value? {base : Nat} {t : Text} {n : Int}
    (read : value? base t = some n) : (44 : UInt8) ∉ t := by
  intro member
  have byte := value?_bytes read 44 member
  revert byte
  decide

theorem decoded_ofString {s : String} (ascii : ∀ c ∈ s.toList, c.toNat < 128) :
    decoded (ofString s) = s := by
  rw [decoded, ofString, chars_ofChars ascii, String.ofList_toList]

/-- Blanks are trimmed off the end, up to what can be seen. -/
theorem trimEnd_spaces (front : Text) {t : Text} (filled : t ≠ []) (solid : Solid t) (n : Nat) :
    trimEnd (· = 32) (front ++ t ++ spaces n) = front ++ t := by
  obtain ⟨start, b, rfl⟩ := (eq_nil_or_concat t).resolve_left filled
  have seen : b ≠ 32 := solid.ne_space (by simp)
  simp [trimEnd, reverse_append, spaces, repeated, seen]

end Text

/-! ## Reading instructions -/

/-- Whether the codes of an instruction name an instruction, an operator and a test. -/
def Instr.isDefined : Instr → Bool
  | .binary op _ => op.isDefined
  | .jump test _ => test != .undefined
  | .undefined => false
  | _ => true

namespace Listing

/-- The address that is shown as a place. -/
def place? : Text → Option Int
  | 40 :: 36 :: rest => Text.value? 16 rest.dropLast
  | _ => none

/-- The operand that is shown; a constant is marked by `#`. -/
def operand? : Text → Option Operand
  | 35 :: 36 :: rest => (Text.value? 16 rest).map .const
  | t => (place? t).map .var

/-- The code address that is shown. -/
def target? : Text → Option Int
  | 36 :: rest => Text.value? 16 rest
  | _ => none

/-- The register that is shown before a comma, and what stands behind the comma. -/
def register? : Text → Option (Int × Text)
  | 114 :: rest =>
    (Text.value? 10 (rest.takeWhile (· ≠ 44))).map (·, (rest.dropWhile (· ≠ 44)).drop 1)
  | _ => none

/-- The operator of a mnemonic. -/
def op? (name : String) : Option BinOp :=
  [.add, .sub, .mul, .div, .rem, .and, .or, .xor].find? (mnemonic · == name)

/-- The test of the mnemonic of a jump. -/
def test? (name : String) : Option Test :=
  [.always, .zero, .nonZero, .nonNegative].find? fun test => (jump test).toOption == some name

/-- What an argument in brackets or an operand tells of a mnemonic that has both. -/
def orIndirect (indirect : Instr) (direct : Option Instr) (argument : Text) : Option Instr :=
  if argument = Text.ofString "[a]" then some indirect else direct

/-- The instruction of a mnemonic that is neither an operator nor a jump. -/
def plain? (name : String) (argument : Text) : Option Instr :=
  match name with
  | "lda" => orIndirect (.loadIndirect .word) ((operand? argument).map .load) argument
  | "ldb" => some (.loadIndirect .byte)
  | "sta" => orIndirect (.storeIndirect .word) ((place? argument).map .store) argument
  | "stb" => some (.storeIndirect .byte)
  | "tab" => some .copyToTemp
  | "ldr" => (register? argument).bind fun r => (operand? r.2).map (.loadParam r.1)
  | "str" => (register? argument).bind fun r => (place? r.2).map (.storeParam r.1)
  | "for" => (target? argument).map .loopHead
  | "idx" => some .loopIndex
  | "next" => (target? argument).map .loopNext
  | "jsr" => (target? argument).map .call
  | "rts" => some .ret
  | _ => none

/-- The instruction that a mnemonic and an argument show. -/
def read? (name : String) (argument : Text) : Option Instr :=
  match op? name, test? name with
  | some op, _ => (operand? argument).map (.binary op)
  | none, some test => (target? argument).map (.jump test)
  | none, none => plain? name argument

theorem place?_place (address : Int) : place? (place address) = some address := by
  have spelled : place address = 40 :: 36 :: (Text.hex 4 address ++ [41]) := rfl
  rw [spelled, place?, dropLast_concat, Text.value?_hex]

theorem operand?_operand (o : Operand) : operand? (operand o) = some o.narrowed := by
  cases o with
  | const n =>
    have spelled : operand (.const n) = 35 :: 36 :: Text.hex 4 (n % 65536) := rfl
    rw [spelled, operand?, Text.value?_hex, Option.map_some]
    rfl
  | var address =>
    have other : operand? (place address) = (place? (place address)).map .var := rfl
    rw [operand, other, place?_place, Option.map_some]
    rfl

theorem target?_target (address : Int) : target? (target address) = some address :=
  Text.value?_hex 6 address

theorem register?_register (n : Int) (rest : Text) :
    register? (Text.join [register n, ",", rest]) = some (n, rest) := by
  have spelled : Text.join [register n, ",", rest] = 114 :: (Text.ofInt n ++ 44 :: rest) := by
    simp [Text.join, register, Text.ofString, Text.ofChars, String.utf8EncodeChar]
  have before : ∀ b ∈ Text.ofInt n, decide (b ≠ 44) = true := by
    intro b member
    have other : b ≠ 44 :=
      ne_of_mem_of_not_mem member (Text.comma_not_mem_of_value? (Text.value?_ofInt n))
    exact decide_eq_true other
  rw [spelled, register?, takeWhile_append_of_pos before, dropWhile_append_of_pos before]
  simp [Text.value?_ofInt]

theorem orIndirect_operand (i : Instr) (direct : Option Instr) (o : Operand) :
    orIndirect i direct (operand o) = direct := by
  apply if_neg
  cases o with
  | const n | var address => exact fun same => absurd (List.cons.inj same).1 (by decide)

theorem orIndirect_place (i : Instr) (direct : Option Instr) (address : Int) :
    orIndirect i direct (place address) = direct :=
  orIndirect_operand i direct (.var address)

/-! ## Reading lines -/

/-- A mnemonic is a row of visible letters. -/
structure IsMnemonic (name : String) : Prop where
  ascii : name.toList.all (·.toNat < 128) = true
  filled : Text.ofString name ≠ []
  solid : Text.Solid (Text.ofString name)

instance (name : String) : Decidable (IsMnemonic name) :=
  decidable_of_iff
    (name.toList.all (·.toNat < 128) = true ∧ Text.ofString name ≠ [] ∧
      Text.Solid (Text.ofString name))
    ⟨fun ⟨ascii, filled, solid⟩ => ⟨ascii, filled, solid⟩,
      fun ⟨ascii, filled, solid⟩ => ⟨ascii, filled, solid⟩⟩

theorem IsMnemonic.decoded_eq {name : String} (isMnemonic : IsMnemonic name) :
    Text.decoded (Text.ofString name) = name :=
  Text.decoded_ofString fun c member =>
    of_decide_eq_true (all_eq_true.mp isMnemonic.ascii c member)

theorem solid_place (address : Int) : Text.Solid (place address) := by
  have digits := Text.solid_of_value? (Text.value?_hex 4 address)
  have spelled : place address = [40, 36] ++ Text.hex 4 address ++ [41] := rfl
  rw [spelled]
  exact .append (.append (by decide) digits) (by decide)

theorem solid_target (address : Int) : Text.Solid (target address) := by
  have digits := Text.solid_of_value? (Text.value?_hex 6 address)
  have spelled : target address = [36] ++ Text.hex 6 address := rfl
  exact .append (by decide) digits

theorem solid_operand (o : Operand) : Text.Solid (operand o) := by
  cases o with
  | const n =>
    have digits := Text.solid_of_value? (Text.value?_hex 4 (n % 65536))
    have spelled : operand (.const n) = [35, 36] ++ Text.hex 4 (n % 65536) := rfl
    exact .append (by decide) digits
  | var address => exact solid_place address

theorem solid_register {rest : Text} (solid : Text.Solid rest) (n : Int) :
    Text.Solid (Text.join [register n, ",", rest]) := by
  have digits := Text.solid_of_value? (Text.value?_ofInt n)
  have spelled : Text.join [register n, ",", rest] = [114] ++ Text.ofInt n ++ [44] ++ rest := by
    simp [Text.join, register, Text.ofString, Text.ofChars, String.utf8EncodeChar]
  rw [spelled]
  exact .append (.append (.append (by decide) digits) (by decide)) solid

/-- A mnemonic and an argument can be seen, and show their instruction but for the high bits of a
constant. -/
theorem instr_shown {i : Instr} {name : String} {argument : Text} (defined : i.isDefined = true)
    (shown : instr i = .ok (name, argument)) :
    IsMnemonic name ∧ Text.Solid argument ∧ read? name argument = some i.narrowed := by
  cases i with
  | load source =>
    cases shown
    refine ⟨by decide, solid_operand source, ?_⟩
    change orIndirect (.loadIndirect .word) ((operand? (operand source)).map .load)
      (operand source) = _
    rw [orIndirect_operand, operand?_operand]
    rfl
  | binary op right =>
    cases shown
    have known : IsMnemonic (mnemonic op) ∧ op? (mnemonic op) = some op := by
      cases op with
      | undefined => contradiction
      | add | sub | mul | div | rem | and | or | xor => decide
    refine ⟨known.1, solid_operand right, ?_⟩
    rw [read?, known.2]
    rw [operand?_operand]
    rfl
  | jump test address =>
    cases test with
    | undefined => contradiction
    | always | zero | nonZero | nonNegative =>
      cases shown
      refine ⟨by decide, solid_target address, ?_⟩
      change (target? (target address)).map (Instr.jump _) = _
      rw [target?_target]
      rfl
  | store address =>
    cases shown
    refine ⟨by decide, solid_place address, ?_⟩
    change orIndirect (.storeIndirect .word) ((place? (place address)).map .store)
      (place address) = _
    rw [orIndirect_place, place?_place]
    rfl
  | loadParam n source =>
    cases shown
    refine ⟨by decide, solid_register (solid_operand source) n, ?_⟩
    change (register? _).bind (fun r => (operand? r.2).map (Instr.loadParam r.1)) = _
    rw [register?_register, Option.bind_some, operand?_operand]
    rfl
  | storeParam n address =>
    cases shown
    refine ⟨by decide, solid_register (solid_place address) n, ?_⟩
    change (register? _).bind (fun r => (place? r.2).map (Instr.storeParam r.1)) = _
    rw [register?_register, Option.bind_some, place?_place]
    rfl
  | loopHead address | loopNext address | call address =>
    cases shown
    refine ⟨by decide, solid_target address, ?_⟩
    change (target? (target address)).map _ = _
    rw [target?_target]
    rfl
  | loadIndirect width | storeIndirect width =>
    cases width with
    | word | byte =>
      cases shown
      exact ⟨by decide, by decide, rfl⟩
  | copyToTemp | loopIndex | ret =>
    cases shown
    exact ⟨by decide, by decide, rfl⟩
  | undefined => contradiction

/-- What stands behind the address of a line: the mnemonic, and an argument behind some blanks if
there is one. -/
def body (name : Text) (blanks : Nat) (argument : Text) : Text :=
  if argument = [] then name else name ++ Text.spaces (blanks + 1) ++ argument

/-- The instruction that is shown behind the address of a line. -/
def readBody? (t : Text) : Option Instr :=
  read? (Text.decoded (t.takeWhile (· ≠ 32))) ((t.dropWhile (· ≠ 32)).dropWhile (· = 32))

theorem readBody?_body {name : String} {argument : Text} (isMnemonic : IsMnemonic name)
    (solid : Text.Solid argument) (blanks : Nat) :
    readBody? (body (Text.ofString name) blanks argument) = read? name argument := by
  have letters : ∀ b ∈ Text.ofString name, decide (b ≠ 32) = true := fun b member =>
    decide_eq_true (isMnemonic.solid.ne_space member)
  unfold body readBody?
  split
  · next none_ =>
    rw [← append_nil (Text.ofString name), takeWhile_append_of_pos letters,
      dropWhile_append_of_pos letters, none_]
    simp [isMnemonic.decoded_eq]
  · next filled =>
    have start : argument.dropWhile (fun b => decide (b = 32)) = argument := by
      obtain ⟨b, rest, rfl⟩ := exists_cons_of_ne_nil filled
      have seen : b ≠ 32 := solid.ne_space mem_cons_self
      simp [seen]
    rw [append_assoc, takeWhile_append_of_pos letters,
      dropWhile_append_of_pos letters]
    simp [Text.spaces, Text.repeated, replicate_succ, isMnemonic.decoded_eq, start]

/-- A line without its blanks at the end. -/
theorem trimEnd_line (address : Int) {name : String} {argument : Text}
    (isMnemonic : IsMnemonic name) (solid : Text.Solid argument) :
    ∃ blanks, Text.trimEnd (· = 32)
        (Text.join [target address, "  ", Text.padRight 4 name, " ", argument]) =
      target address ++ [32, 32] ++ body (Text.ofString name) blanks argument := by
  refine ⟨4 - Text.charCount (Text.ofString name), ?_⟩
  have spelled : Text.join [target address, "  ", Text.padRight 4 name, " ", argument] =
      target address ++ [32, 32] ++ Text.ofString name ++
        Text.spaces (4 - Text.charCount (Text.ofString name) + 1) ++ argument := by
    simp [Text.join, Text.padRight, Text.spaces, Text.repeated, replicate_succ',
      Text.ofString, Text.ofChars, String.utf8EncodeChar]
  rw [spelled, body]
  split
  · next none_ =>
    rw [none_, append_nil]
    exact Text.trimEnd_spaces _ isMnemonic.filled isMnemonic.solid _
  · next filled =>
    have whole := Text.trimEnd_spaces (target address ++ [32, 32] ++ Text.ofString name ++
        Text.spaces (4 - Text.charCount (Text.ofString name) + 1)) filled solid 0
    have nothing : Text.spaces 0 = [] := rfl
    rw [nothing, append_nil] at whole
    rw [whole]
    simp only [append_assoc]

theorem newline_not_mem_body {name argument : Text} (first : Text.Solid name)
    (second : Text.Solid argument) (blanks : Nat) : (10 : UInt8) ∉ body name blanks argument := by
  have low {t : Text} (solid : Text.Solid t) : (10 : UInt8) ∉ t := fun member =>
    absurd (solid 10 member) (by decide)
  have blank : (10 : UInt8) ∉ Text.spaces (blanks + 1) := fun member =>
    absurd (eq_of_mem_replicate member) (by decide)
  unfold body
  split
  · exact low first
  · simp only [mem_append, not_or]
    exact ⟨⟨low first, blank⟩, low second⟩

/-- A line is its address, what shows the instruction, and a line feed. -/
theorem line_ok {address : Int} {i : Instr} {t : Text} (defined : i.isDefined = true)
    (shown : line address i = .ok t) :
    ∃ part, t = target address ++ [32, 32] ++ part ++ [10] ∧ (10 : UInt8) ∉ part ∧
      readBody? part = some i.narrowed := by
  obtain ⟨⟨name, argument⟩, ok, rest⟩ := bind_ok_iff.mp shown
  cases rest
  obtain ⟨isMnemonic, solid, read⟩ := instr_shown defined ok
  obtain ⟨blanks, trimmed⟩ := trimEnd_line address isMnemonic solid
  refine ⟨body (Text.ofString name) blanks argument, ?_, ?_, ?_⟩
  · rw [trimmed]
    rfl
  · exact newline_not_mem_body isMnemonic.solid solid blanks
  · rw [readBody?_body isMnemonic solid, read]

/-- Texts that begin with parts up to a line feed are equal in these parts and in what follows. -/
theorem eq_of_append_newline {part part' rest rest' : Text} (first : (10 : UInt8) ∉ part)
    (second : (10 : UInt8) ∉ part')
    (same : part ++ 10 :: rest = part' ++ 10 :: rest') : part = part' ∧ rest = rest' := by
  have line {t more : Text} (plain : (10 : UInt8) ∉ t) :
      (t ++ 10 :: more).takeWhile (· ≠ 10) = t := by
    rw [takeWhile_append_of_pos fun b member => decide_eq_true (ne_of_mem_of_not_mem member plain)]
    exact append_nil t
  obtain rfl : part = part' := by rw [← line first, same, line second]
  exact ⟨rfl, (List.cons.inj (append_cancel_left same)).2⟩

/-! ## Reading code -/

section Code

variable {p q : Program}

theorem codeFrom_cons_ok {address : Int} {i : Instr} {rest : List Instr} {parts : List Text}
    (shown : codeFrom p address (i :: rest) = .ok parts) :
    ∃ text more, line address i = .ok text ∧
      codeFrom p (wrap64 (address + 1)) rest = .ok more ∧
      parts = (heading p address ++ text) :: more := by
  obtain ⟨text, ok, later⟩ := bind_ok_iff.mp shown
  obtain ⟨more, others, ends⟩ := bind_ok_iff.mp later
  exact ⟨text, more, ok, others, (pure_ok_iff.mp ends).symm⟩

theorem heading_congr (procedures : p.procedures = q.procedures) (address : Int) :
    heading p address = heading q address := by
  rw [heading, heading, Program.procedureAt?, Program.procedureAt?, procedures]

/-- Codes that are shown in the same way from an address on are equal but for the high bits of
constants. Headings are the same on both sides, so whatever they say, the first lines begin at the
same place; they end with their first line feed, and can be read. -/
theorem codeFrom_injective (procedures : p.procedures = q.procedures) {code other : List Instr}
    (defined : ∀ i ∈ code, i.isDefined = true) (defined' : ∀ i ∈ other, i.isDefined = true)
    {address : Int} {parts parts' : List Text} (shown : codeFrom p address code = .ok parts)
    (shown' : codeFrom q address other = .ok parts') (same : Text.join parts = Text.join parts') :
    code.map Instr.narrowed = other.map Instr.narrowed := by
  induction code generalizing other address parts parts' with
  | nil =>
    cases shown
    cases other with
    | nil => rfl
    | cons j others =>
      obtain ⟨text, more, ok, -, rfl⟩ := codeFrom_cons_ok shown'
      obtain ⟨part, rfl, -⟩ := line_ok (defined' j mem_cons_self) ok
      simp [Text.join] at same
  | cons i rest ih =>
    obtain ⟨hereDefined, restDefined⟩ := forall_mem_cons.mp defined
    obtain ⟨text, more, ok, later, rfl⟩ := codeFrom_cons_ok shown
    obtain ⟨part, rfl, plain, read⟩ := line_ok hereDefined ok
    cases other with
    | nil =>
      cases shown'
      simp [Text.join] at same
    | cons j others =>
      obtain ⟨hereDefined', restDefined'⟩ := forall_mem_cons.mp defined'
      obtain ⟨text', more', ok', later', rfl⟩ := codeFrom_cons_ok shown'
      obtain ⟨part', rfl, plain', read'⟩ := line_ok hereDefined' ok'
      rw [heading_congr procedures] at same
      have lines : part ++ 10 :: Text.join more = part' ++ 10 :: Text.join more' := by
        simpa [Text.join] using same
      obtain ⟨rfl, following⟩ := eq_of_append_newline plain plain' lines
      have first : i.narrowed = j.narrowed := Option.some.inj (read.symm.trans read')
      rw [map_cons, map_cons, first,
        ih restDefined restDefined' later later' following]

end Code

end Listing

/-! ## Code that requests make -/

/-- Whether the codes in a request name an instruction, an operator and a test. -/
def Request.isDefined : Request → Bool
  | .emit i => i.isDefined
  | .patch _ test _ => test != .undefined
  | _ => true

namespace Builder

/-- The instructions that come of requests to a new builder. -/
def instructions (settings : Settings) (requests : List Request) : List Instr :=
  (requests.foldl attempt (Assembly.start settings).builder).program.code.toList

/-- The codes of all instructions of a builder name something. -/
def AllDefined (b : Builder) : Prop := ∀ i ∈ b.program.code, i.isDefined = true

theorem forall_mem_set {code : Array Instr} {i : Instr} (all : ∀ j ∈ code, j.isDefined = true)
    (place : Nat) (new : i.isDefined = true) :
    ∀ j ∈ code.setIfInBounds place i, j.isDefined = true := by
  intro j member
  rcases Array.mem_or_eq_of_mem_setIfInBounds member with old | rfl
  · exact all j old
  · exact new

theorem AllDefined.perform {b b' : Builder} {r : Request} {answer : Option Int}
    (all : b.AllDefined) (defined : r.isDefined = true) (ok : b.perform r = .ok (answer, b')) :
    b'.AllDefined := by
  cases r with
  | alloc count =>
    rw [AllDefined, (perform_alloc_ok ok).2.2.2.1]
    exact all
  | string text =>
    rcases (perform_string_ok ok).2 with ⟨_, _, _, same⟩ | ⟨_, _, same⟩ <;>
    · rw [AllDefined, same]
      exact all
  | begin name params =>
    cases ok
    exact all
  | emit i =>
    cases ok
    exact Array.forall_mem_push.mpr ⟨defined, all⟩
  | openLoop =>
    cases ok
    exact Array.forall_mem_push.mpr ⟨rfl, Array.forall_mem_push.mpr ⟨rfl, all⟩⟩
  | patch place test target =>
    obtain ⟨c, patched, same⟩ := map_ok_iff.mp ok
    cases same
    rw [patch] at patched
    split at patched
    · cases patched
      exact forall_mem_set all _ defined
    · contradiction
  | closeLoop head =>
    obtain ⟨c, closed, same⟩ := map_ok_iff.mp ok
    cases same
    rw [closeLoop] at closed
    split at closed
    · cases closed
      exact forall_mem_set (Array.forall_mem_push.mpr ⟨rfl, all⟩) _ rfl
    · contradiction

theorem AllDefined.attempt {b : Builder} {r : Request} (all : b.AllDefined)
    (defined : r.isDefined = true) : (b.attempt r).AllDefined := by
  unfold Builder.attempt
  split
  · next ok => exact all.perform defined ok
  · exact all

theorem AllDefined.attempts {b : Builder} {requests : List Request} (all : b.AllDefined)
    (defined : ∀ r ∈ requests, r.isDefined = true) :
    (requests.foldl Builder.attempt b).AllDefined := by
  induction requests generalizing b with
  | nil => exact all
  | cons r rest ih =>
    obtain ⟨first, others⟩ := forall_mem_cons.mp defined
    exact ih (all.attempt first) others

theorem instructions_defined (settings : Settings) {requests : List Request}
    (defined : ∀ r ∈ requests, r.isDefined = true) :
    ∀ i ∈ instructions settings requests, i.isDefined = true := by
  have start : (Assembly.start settings).builder.AllDefined := by
    intro i member
    simp [Assembly.start, Settings.emptyProgram] at member
  intro i member
  exact start.attempts defined i (Array.mem_toList_iff.mp member)

end Builder

namespace Listing

open Builder

/-- A listing determines the code. Two rows of instructions that were made by requests with proper
codes, and that are shown by one text under the code base and the procedures of some program, are
equal one by one but for constants, which agree in their low sixteen bits. So in any program, with
whatever data and word size, one row does on the machine what the other does. -/
theorem code_determines_instructions {settings settings' : Settings}
    {requests requests' : List Request} (defined : ∀ r ∈ requests, r.isDefined = true)
    (defined' : ∀ r ∈ requests', r.isDefined = true) {p : Program} {text : Text}
    (shown : code (p.withCode (instructions settings requests)) = .ok text)
    (shown' : code (p.withCode (instructions settings' requests')) = .ok text) :
    (instructions settings requests).length = (instructions settings' requests').length ∧
      (instructions settings requests).map Instr.narrowed =
        (instructions settings' requests').map Instr.narrowed ∧
      ∀ q : Program, (q.withCode (instructions settings requests)).Indistinguishable
        (q.withCode (instructions settings' requests')) := by
  obtain ⟨parts, ok, joined⟩ := map_ok_iff.mp shown
  obtain ⟨parts', ok', joined'⟩ := map_ok_iff.mp shown'
  have procedures : (p.withCode (instructions settings requests)).procedures =
      (p.withCode (instructions settings' requests')).procedures := rfl
  have same := codeFrom_injective procedures (instructions_defined settings defined)
    (instructions_defined settings' defined') ok ok' (joined.trans joined'.symm)
  refine ⟨?_, same, fun q => q.indistinguishable_of_narrowed same⟩
  simpa using congrArg List.length same

/-- A loop and a call, with some constants. -/
def loopRequests (start step : Int) : List Request :=
  [.emit (.storeParam 0 0x2002), .emit (.load (.const start)), .emit (.jump .zero 0), .openLoop,
    .emit (.binary .sub (.const step)), .closeLoop 0x1003, .emit (.loadParam (-1) (.const step)),
    .patch 0x1002 .nonNegative 0x1007, .emit (.call (-0x20)), .emit (.loadIndirect .word),
    .emit .ret]

/-- A program with the code of `loopRequests`. -/
def loopProgram (start step : Int) : Program :=
  Program.withCode { procedures := [⟨"loop", 0x1000, 0⟩] }
    (instructions {} (loopRequests start step))

/-- How the code of `loopProgram` is shown. -/
def loopListing : Text :=
  ["; loop(0)", "$001000  str  r0,($2002)", "$001001  lda  #$0003", "$001002  jp   $001007",
    "$001003  for  $001007", "$001004  idx", "$001005  sub  #$ffff", "$001006  next $001004",
    "$001007  ldr  r-1,#$ffff", "$001008  jsr  $-00020", "$001009  lda  [a]",
    "$00100a  rts"].flatMap fun line => Text.ofString line ++ [10]

theorem code_determines_instructions_loop :
    code (loopProgram 3 (-1)) = .ok loopListing ∧
      code (loopProgram 65539 65535) = .ok loopListing ∧
      loopProgram 3 (-1) ≠ loopProgram 65539 65535 ∧
      (loopProgram 3 (-1)).Indistinguishable (loopProgram 65539 65535) := by
  have shown : code (loopProgram 3 (-1)) = .ok loopListing := ok_of_toOption (by decide +kernel)
  have shown' : code (loopProgram 65539 65535) = .ok loopListing :=
    ok_of_toOption (by decide +kernel)
  refine ⟨shown, shown', by decide +kernel, ?_⟩
  exact (code_determines_instructions (by decide) (by decide) shown shown').2.2 _

end Listing

end HighAsm
