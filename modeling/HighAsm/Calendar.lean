import HighAsm.Text.Number

/-!
# Dates and times of day

What is left of a text after a date or a time of day at its start. The year has four digits. Months,
days, hours, minutes and seconds have two, or may have one digit only where a format allows it.
-/

namespace HighAsm.Calendar

def daysOf (year month : Nat) : Nat :=
  if month = 2 then
    if year % 4 = 0 && (year % 100 != 0 || year % 400 = 0) then 29 else 28
  else if [4, 6, 9, 11].contains month then 30
  else 31

def after? (b : UInt8) : Text → Option Text
  | c :: rest => if c = b then some rest else none
  | [] => none

/-- The one or two digits at the start of a text as a number, and what follows them. The flag says
whether one digit is enough. -/
def number? (isShort : Bool) (t : Text) : Option (Nat × Text) :=
  let digits := (t.take 2).takeWhile Text.isDigit
  if isShort || digits.length == 2 then
    (Text.digits? 10 digits).map fun n => (n, t.drop digits.length)
  else none

/-- A number below a limit at the start of a text, and what follows it. -/
def numberBelow? (isShort : Bool) (limit : Nat) (t : Text) : Option (Nat × Text) :=
  (number? isShort t).filter fun (n, _) => n < limit

def afterDate? (isShort : Bool) (t : Text) : Option Text := do
  let year ← Text.digits? 10 (t.take 4)
  let (month, rest) ← numberBelow? isShort 13 (← after? 45 (t.drop 4))
  let (day, rest) ← number? isShort (← after? 45 rest)
  guard (1 ≤ month ∧ 1 ≤ day ∧ day ≤ daysOf year month)
  return rest

def afterFraction (t : Text) : Text :=
  match t with
  | point :: digit :: rest =>
    if (point = 46 || point = 44) && Text.isDigit digit then rest.dropWhile Text.isDigit else t
  | _ => t

def afterTime? (isShort : Bool) (t : Text) : Option Text := do
  let (_, rest) ← numberBelow? isShort 24 t
  let (_, rest) ← numberBelow? isShort 60 (← after? 58 rest)
  let (_, rest) ← numberBelow? isShort 60 (← after? 58 rest)
  return afterFraction rest

/-- Whether a text is a zone: a `Z`, or hours and minutes of two digits with a sign. -/
def isZone (t : Text) : Bool :=
  match t with
  | [90] => true
  | [sign, a, b, 58, c, d] =>
    (sign = 43 || sign = 45) && (Text.digits? 10 [a, b]).any (· ≤ 24) &&
      (Text.digits? 10 [c, d]).any (· ≤ 60)
  | _ => false

end HighAsm.Calendar
