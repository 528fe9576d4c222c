import HighAsm.Text

/-!
# Numbers as text

Hexadecimal output with a fixed least width, and the integers that the command line and the
execution tests accept: decimal numerals, and numerals whose base is told by how they start.
No reader accepts a value outside the range of a signed 64-bit integer.
-/

namespace HighAsm.Text

/-- An integer in lower-case hexadecimal, filled with zeros to a least width. A minus sign counts
as one of the places. -/
def hex (width : Nat) (n : Int) : Text :=
  let digits := Nat.toDigits 16 n.natAbs
  if n < 0 then ofChars ('-' :: (List.replicate (width - 1 - digits.length) '0' ++ digits))
  else ofChars (List.replicate (width - digits.length) '0' ++ digits)

def hexBytes (bytes : List UInt8) : Text := bytes.flatMap fun b => hex 2 b.toNat

def isDigit (b : UInt8) : Bool := 48 ≤ b && b ≤ 57

def digitValue? (b : UInt8) : Option Nat :=
  if 48 ≤ b && b ≤ 57 then some (b.toNat - 48)
  else if 97 ≤ b && b ≤ 122 then some (b.toNat - 87)
  else if 65 ≤ b && b ≤ 90 then some (b.toNat - 55)
  else none

def hexDigit? (c : Char) : Option Nat :=
  if '0' ≤ c ∧ c ≤ '9' then some (c.toNat - 48)
  else if 'a' ≤ c ∧ c ≤ 'f' then some (c.toNat - 87)
  else if 'A' ≤ c ∧ c ≤ 'F' then some (c.toNat - 55)
  else none

def hexValue? (cs : List Char) : Option Nat :=
  cs.foldlM (fun n c => (hexDigit? c).map (16 * n + ·)) 0

def digitsFrom? (base value : Nat) : Text → Option Nat
  | [] => some value
  | b :: rest =>
    match digitValue? b with
    | some d => if d < base then digitsFrom? base (value * base + d) rest else none
    | none => none

def digits? (base : Nat) (t : Text) : Option Nat :=
  if t.isEmpty then none else digitsFrom? base 0 t

/-- Splits off an optional sign; the flag says whether it was a minus. -/
def sign (t : Text) : Bool × Text :=
  match t with
  | 43 :: rest => (false, rest)
  | 45 :: rest => (true, rest)
  | _ => (false, t)

inductive NumeralError
  | malformed
  | outOfRange
  deriving DecidableEq, Repr

/-- A magnitude with its sign, when it is in the range of a signed 64-bit integer. -/
def signed (negative : Bool) (magnitude : Nat) : Except NumeralError Int :=
  if negative then
    if magnitude ≤ 0x8000000000000000 then .ok (-(magnitude : Int)) else .error .outOfRange
  else if magnitude < 0x8000000000000000 then .ok magnitude else .error .outOfRange

def decimal? (t : Text) : Option Int :=
  let (negative, body) := sign t
  (digits? 10 body).bind fun n => (signed negative n).toOption

/-- The base that the start of a numeral announces, and the rest of the numeral. A numeral that
only starts with zero is octal. -/
def announcedBase (t : Text) : Nat × Text :=
  match t with
  | 48 :: mark :: d :: rest =>
    if mark = 98 || mark = 66 then (2, d :: rest)
    else if mark = 111 || mark = 79 then (8, d :: rest)
    else if mark = 120 || mark = 88 then (16, d :: rest)
    else (8, mark :: d :: rest)
  | 48 :: rest => (8, rest)
  | _ => (10, t)

/-- Whether every underscore of a numeral stands between two digits. The flag says whether a digit
stands before the text. -/
def separatorsBetweenDigits (hexadecimal afterDigit : Bool) : Text → Bool
  | [] => true
  | 95 :: rest =>
    afterDigit &&
      match rest with
      | [] => false
      | next :: _ => isDigitIn next && separatorsBetweenDigits hexadecimal false rest
  | b :: rest => separatorsBetweenDigits hexadecimal (isDigitIn b) rest
where
  isDigitIn (b : UInt8) : Bool :=
    match digitValue? b with
    | some d => d < 10 || (hexadecimal && d < 16)
    | none => false

/-- The value of digits in a base, continuing from a value read so far; underscores are left out.
Reading ends where the value no longer fits in 64 bits, whatever follows. -/
def magnitudeFrom (base value : Nat) : Text → Except NumeralError Nat
  | [] => .ok value
  | 95 :: rest => magnitudeFrom base value rest
  | b :: rest =>
    match digitValue? b with
    | some d =>
      if base ≤ d then .error .malformed
      else if 0x10000000000000000 ≤ value * base + d then .error .outOfRange
      else magnitudeFrom base (value * base + d) rest
    | none => .error .malformed

/-- A numeral with an optional sign whose base is told by `0x`, `0o`, `0b` or a leading zero, and
whose digits may be separated by single underscores, also right after the mark of the base. -/
def numeral (t : Text) : Except NumeralError Int := do
  let (negative, body) := sign t
  if body.isEmpty then throw .malformed
  let (base, digits) := announcedBase body
  let magnitude ← magnitudeFrom base 0 digits
  if separatorsBetweenDigits (base == 16) (digits.length < body.length) digits then
    signed negative magnitude
  else throw .malformed

/-- Whether `digits * 10 ^ exponent` is too large for a double-precision number. -/
def overflowsDouble (digits : Nat) (exponent : Int) : Bool :=
  let places : Int := (Nat.toDigits 10 digits).length + exponent
  if digits = 0 || places < 300 then false
  else if 320 < places then true
  else
    let limit := Nat.pow 2 1024 - Nat.pow 2 970
    if 0 ≤ exponent then decide (limit ≤ digits * Nat.pow 10 exponent.toNat)
    else decide (limit * Nat.pow 10 exponent.natAbs ≤ digits)

/-- The numerals of a list separated by commas. White space around a numeral and empty items are
left out. The failure is the first item that is no numeral. -/
def numerals (t : Text) : Except Text (List Int) :=
  let items := ((splitAt 44 t).map trim).filter fun item => !item.isEmpty
  items.mapM fun item =>
    match numeral item with
    | .ok n => .ok n
    | .error _ => .error item

end HighAsm.Text
