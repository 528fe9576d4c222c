import HighAsm.IL

/-!
# Numbers can be read back

The text of a number, decimal or hexadecimal and with or without leading zeros, determines the
number. Labels and temporaries of the intermediate language are spelled with such numbers, so
different ones have different spellings.
-/

namespace HighAsm

namespace Text

/-- The integer that a numeral with an optional sign stands for. -/
def value? (base : Nat) (t : Text) : Option Int :=
  (digits? base (sign t).2).map fun n => if (sign t).1 then -(n : Int) else n

theorem ofChars_append (first second : List Char) :
    ofChars (first ++ second) = ofChars first ++ ofChars second :=
  List.flatMap_append

theorem digitsFrom?_append (base value : Nat) (first second : Text) :
    digitsFrom? base value (first ++ second) =
      (digitsFrom? base value first).bind (digitsFrom? base · second) := by
  induction first generalizing value with
  | nil => rfl
  | cons b rest ih =>
    rw [List.cons_append, digitsFrom?, digitsFrom?]
    split
    · split
      · exact ih _
      · rfl
    · rfl

section Digits

variable {base : Nat}

/-- A digit is one byte, which has its value. -/
theorem ofChars_digitChar {d : Nat} (small : d < 16) :
    ∃ b, ofChars [d.digitChar] = [b] ∧ digitValue? b = some d := by
  have read : ∀ d < 16, (ofChars [d.digitChar]).map digitValue? = [some d] := by decide
  exact List.map_eq_singleton_iff.mp (read d small)

theorem digitsFrom?_digitChar (small : base ≤ 16) (value : Nat) {d : Nat} (digit : d < base) :
    digitsFrom? base value (ofChars [d.digitChar]) = some (value * base + d) := by
  obtain ⟨b, one, same⟩ := ofChars_digitChar (Nat.lt_of_lt_of_le digit small)
  simp only [one, digitsFrom?, same, if_pos digit]

theorem digitsFrom?_toDigits (positive : 1 < base) (small : base ≤ 16) (n : Nat) :
    digitsFrom? base 0 (ofChars (Nat.toDigits base n)) = some n := by
  induction n using Nat.strongRecOn with
  | ind n ih =>
    rw [Nat.toDigits_eq_if positive]
    split
    · next digit => rw [digitsFrom?_digitChar small 0 digit, Nat.zero_mul, Nat.zero_add]
    · next large =>
      have fewer : n / base < n := Nat.div_lt_self (by omega) positive
      have digit : n % base < base := Nat.mod_lt n (by omega)
      rw [ofChars_append, digitsFrom?_append, ih _ fewer, Option.bind_some,
        digitsFrom?_digitChar small _ digit, Nat.mul_comm, Nat.div_add_mod]

theorem digitsFrom?_zeros (positive : 0 < base) (count : Nat) (t : Text) :
    digitsFrom? base 0 (ofChars (List.replicate count '0') ++ t) = digitsFrom? base 0 t := by
  induction count with
  | zero => rfl
  | succ count ih =>
    have first : digitsFrom? base 0 (ofChars (List.replicate (count + 1) '0') ++ t) =
        if 0 < base then digitsFrom? base (0 * base + 0) (ofChars (List.replicate count '0') ++ t)
        else none := rfl
    rw [first, if_pos positive, Nat.zero_mul, Nat.zero_add, ih]

section

variable {n : Nat} {t : Text} (nonempty : t ≠ []) (digits : digitsFrom? base 0 t = some n)
include nonempty digits

/-- A row of digits has no sign. -/
theorem value?_of_digits : value? base t = some (n : Int) := by
  have unsigned : sign t = (false, t) := by
    unfold sign
    split
    · contradiction
    · contradiction
    · rfl
  simp [value?, unsigned, digits?, nonempty, digits]

theorem value?_of_minus : value? base (45 :: t) = some (-(n : Int)) := by
  simp [value?, sign, digits?, nonempty, digits]

end

theorem toDigits_ne_nil (positive : 1 < base) (small : base ≤ 16) (n : Nat) :
    ofChars (Nat.toDigits base n) ≠ [] := by
  rw [Nat.toDigits_eq_if positive]
  split
  · next digit =>
    obtain ⟨b, one, -⟩ := ofChars_digitChar (Nat.lt_of_lt_of_le digit small)
    simp [one]
  · have digit : n % base < 16 := Nat.lt_of_lt_of_le (Nat.mod_lt n (by omega)) small
    obtain ⟨b, one, -⟩ := ofChars_digitChar digit
    simp [ofChars_append, one]

end Digits

theorem value?_ofNat (n : Nat) : value? 10 (ofNat n) = some (n : Int) :=
  value?_of_digits (toDigits_ne_nil (by decide) (by decide) n)
    (digitsFrom?_toDigits (by decide) (by decide) n)

theorem value?_ofInt (n : Int) : value? 10 (ofInt n) = some n := by
  have digits : digitsFrom? 10 0 (ofNat n.natAbs) = some n.natAbs :=
    digitsFrom?_toDigits (by decide) (by decide) n.natAbs
  have nonempty : ofNat n.natAbs ≠ [] := toDigits_ne_nil (by decide) (by decide) _
  unfold ofInt
  split
  · next negative =>
    have spelled : (("-" : Text) ++ ofNat n.natAbs) = 45 :: ofNat n.natAbs := rfl
    rw [spelled, value?_of_minus nonempty digits, Option.some.injEq]
    omega
  · next positive =>
    rw [value?_of_digits nonempty digits, Option.some.injEq]
    omega

theorem value?_hex (width : Nat) (n : Int) : value? 16 (hex width n) = some n := by
  have filled (zeros : Nat) :
      digitsFrom? 16 0 (ofChars (List.replicate zeros '0' ++ Nat.toDigits 16 n.natAbs)) =
        some n.natAbs := by
    rw [ofChars_append, digitsFrom?_zeros (by decide), digitsFrom?_toDigits (by decide) (by decide)]
  have nonempty (zeros : Nat) :
      ofChars (List.replicate zeros '0' ++ Nat.toDigits 16 n.natAbs) ≠ [] := by
    simp [ofChars_append, toDigits_ne_nil]
  unfold hex
  split
  · next negative =>
    refine (value?_of_minus (nonempty _) (filled _)).trans ?_
    rw [Option.some.injEq]
    omega
  · next positive =>
    rw [value?_of_digits (nonempty _) (filled _), Option.some.injEq]
    omega

theorem hex_injective (width : Nat) : Function.Injective (hex width) := by
  intro m n same
  have both := congrArg (value? 16) same
  rwa [value?_hex, value?_hex, Option.some.injEq] at both

end Text

namespace IL

/-- The label that a spelling stands for. -/
def Label.ofText? : Text → Option Label
  | 64 :: 97 :: rest => (Text.value? 16 rest).map code
  | t => if t = Text.ofString "@start" then some start else none

theorem Label.ofText?_render (l : Label) : ofText? l.render = some l := by
  cases l with
  | start => decide
  | code address =>
    have spelled : (code address).render = 64 :: 97 :: Text.hex 0 address := rfl
    rw [spelled, ofText?, Text.value?_hex, Option.map_some]

theorem Label.render_injective : Function.Injective Label.render := by
  intro l l' same
  have both := congrArg ofText? same
  rwa [ofText?_render, ofText?_render, Option.some.injEq] at both

/-- The temporary that a spelling stands for. -/
def Temp.ofText? : Text → Option Temp
  | 37 :: 97 :: rest => if rest = [99, 99] then some acc else (Text.value? 10 rest).map arg
  | 37 :: 116 :: rest =>
    if rest = [109, 112] then some tmp else (Text.value? 10 rest).map fun n => fresh n.toNat
  | 37 :: 114 :: rest => (Text.value? 10 rest).map param
  | 37 :: 102 :: 111 :: 114 :: rest => (Text.value? 16 rest).map counter
  | _ => none

theorem Temp.ofText?_render (t : Temp) : ofText? t.render = some t := by
  -- A number is not spelled with these letters.
  have isNumber {t letters : Text} {n : Int} (number : Text.value? 10 t = some n)
      (none_ : Text.value? 10 letters = none) : t ≠ letters := by
    rintro rfl
    rw [number] at none_
    contradiction
  cases t with
  | acc => decide
  | tmp => decide
  | arg register =>
    have spelled : (arg register).render = 37 :: 97 :: Text.ofInt register := rfl
    have number := Text.value?_ofInt register
    rw [spelled, ofText?, if_neg (isNumber number (by decide)), number, Option.map_some]
  | param register =>
    have spelled : (param register).render = 37 :: 114 :: Text.ofInt register := rfl
    rw [spelled, ofText?, Text.value?_ofInt, Option.map_some]
  | counter head =>
    have spelled : (counter head).render = 37 :: 102 :: 111 :: 114 :: Text.hex 0 head := rfl
    rw [spelled, ofText?, Text.value?_hex, Option.map_some]
  | fresh number =>
    have spelled : (fresh number).render = 37 :: 116 :: Text.ofNat number := rfl
    have value := Text.value?_ofNat number
    rw [spelled, ofText?, if_neg (isNumber value (by decide)), value, Option.map_some,
      Int.toNat_natCast]

theorem Temp.render_injective : Function.Injective Temp.render := by
  intro t t' same
  have both := congrArg ofText? same
  rwa [ofText?_render, ofText?_render, Option.some.injEq] at both

end IL

end HighAsm
