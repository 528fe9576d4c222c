import HighAsm.Yaml.Timestamp

/-!
# How plain scalars are read

A reader takes a plain scalar for a string unless it is something else: nothing at all, a truth
value, a number or a timestamp. Some readers also know words for yes and no, and numbers in base
sixty.
-/

namespace HighAsm.Yaml

/-- The words that stand for a missing value, a truth value or a special number. -/
def specialWords : List String :=
  ["", "~", "null", "Null", "NULL", "true", "True", "TRUE", "false", "False", "FALSE",
    ".nan", ".NaN", ".NAN", ".inf", ".Inf", ".INF", "+.inf", "+.Inf", "+.INF", "-.inf", "-.Inf",
    "-.INF"]

def yesNoWords : List String :=
  ["y", "Y", "yes", "Yes", "YES", "on", "On", "ON", "n", "N", "no", "No", "NO", "off", "Off", "OFF"]

/-! ## Decimals -/

/-- The parts of a decimal: its digits before and after the point, and its exponent. -/
structure Decimal where
  whole : Text
  fraction : Text
  exponent : Int

namespace Decimal

def exponent? (t : Text) : Option Int :=
  match t with
  | [] => some 0
  | e :: rest =>
    let (negative, digits) := Text.sign rest
    if e = 101 || e = 69 then
      (Text.digits? 10 digits).map fun n => if negative then -(n : Int) else n
    else none

/-- Reads a decimal with an optional sign, fraction and exponent. There is a digit on one side of
the point at least. -/
def parse? (t : Text) : Option Decimal := do
  let body := (Text.sign t).2
  let whole := body.takeWhile Text.isDigit
  let (fraction, rest) : Text × Text :=
    match body.dropWhile Text.isDigit with
    | 46 :: rest => (rest.takeWhile Text.isDigit, rest.dropWhile Text.isDigit)
    | rest => ([], rest)
  guard (!whole.isEmpty || !fraction.isEmpty)
  return ⟨whole, fraction, ← exponent? rest⟩

def inRange (d : Decimal) : Bool :=
  (Text.digits? 10 (d.whole ++ d.fraction)).any fun n =>
    !Text.overflowsDouble n (d.exponent - d.fraction.length)

end Decimal

def isDecimal (t : Text) : Bool := (Decimal.parse? t).any (·.inRange)

/-! ## Integers -/

/-- Whether a text is a binary or octal integer with a sign between its mark and its digits. -/
def isMarkedInteger (t : Text) : Bool :=
  match t with
  | 48 :: 98 :: rest => isSigned 2 rest
  | 48 :: 111 :: rest => isSigned 8 rest
  | _ => false
where
  isSigned (base : Nat) (t : Text) : Bool :=
    let (negative, digits) := Text.sign t
    (Text.digits? base digits).any fun n => (Text.signed negative n).toBool

/-- Whether a text without underscores is an integer. Only one without a sign may need all 64
bits. -/
def isInteger (t : Text) : Bool :=
  let (base, digits) := Text.announcedBase t
  (Text.numeral t).toBool || (!t.isEmpty && (Text.magnitudeFrom base 0 digits).toBool) ||
    isMarkedInteger t

/-! ## Numbers in base sixty -/

/-- Whether the pieces after the first colon of a text are digits in base sixty. -/
def areSixties : List Text → Bool
  | [] => false
  | [last] =>
    isSixty (last.takeWhile (· ≠ 46)) && ((last.dropWhile (· ≠ 46)).drop 1).all isFill
  | piece :: rest => isSixty piece && areSixties rest
where
  isSixty (t : Text) : Bool :=
    match t with
    | [b] => Text.isDigit b
    | [a, b] => 48 ≤ a && a ≤ 53 && Text.isDigit b
    | _ => false
  isFill (b : UInt8) : Bool := Text.isDigit b || b == 95

def isSexagesimal (t : Text) : Bool :=
  match Text.splitAt 58 (Text.sign t).2 with
  | first :: rest =>
    first.head?.any Text.isDigit && first.all (fun b => Text.isDigit b || b == 95) &&
      areSixties rest
  | [] => false

/-! ## All of them -/

/-- Whether a text that starts with a digit or a sign is read as a number or a timestamp.
Underscores in numbers are left out. -/
def isNumeric (t : Text) : Bool :=
  let plain := t.filter (· ≠ 95)
  isTimestamp t || isInteger plain || isDecimal plain || isSexagesimal t

/-- Whether a text that starts with a point is read as a number. Underscores stand only between
digits. -/
def isFractional (t : Text) : Bool :=
  Text.separatorsBetweenDigits false false t && isDecimal (t.filter (· ≠ 95))

/-- Whether a reader would take a plain text for something other than a string. -/
def isAmbiguous (t : Text) : Bool :=
  (specialWords ++ yesNoWords).any (fun w => Text.ofString w == t) ||
    match t with
    | [] => true
    | 46 :: _ => isFractional t
    | b :: _ => (Text.isDigit b || b == 43 || b == 45) && isNumeric t

end HighAsm.Yaml
