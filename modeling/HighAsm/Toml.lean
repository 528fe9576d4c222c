import HighAsm.Calendar
import HighAsm.Toml.Quoted

/-!
# The statements of a TOML document

A settings file is a TOML document: comments, table headers and assignments, one to a line. This
module reads a document into its statements in order; what they define together is the matter of
`HighAsm.Toml.Document`.

Values are integers, floats, strings, booleans, dates, arrays and inline tables. Which number a
float is and which day a date is plays no part in any setting, so they keep nothing but their being
one.
-/

namespace HighAsm.Toml

/-- A value of a document. The members of an inline table keep the order they are written in. -/
inductive Value
  | integer (n : Int)
  | float
  | string (s : String)
  | boolean (b : Bool)
  | date
  | array (items : List Value)
  | table (members : List (Path × Value))

def Value.isArray : Value → Bool
  | array _ => true
  | _ => false

/-- A line of a document that says something. -/
inductive Statement
  /-- The assignments that follow are made inside this table. -/
  | header (path : Path)
  /-- The assignments that follow are made inside a new table of this array. -/
  | itemHeader (path : Path)
  | assign (path : Path) (value : Value)

/-! ## Numbers -/

/-- Whether underscores in a numeral stand only between digits. -/
def separated (digits : List Char) : Bool :=
  digits.head? != some '_' && digits.getLast? != some '_' &&
    (digits.zip digits.tail).all fun (a, b) => a != '_' || b != '_'

def digitsValue (base : Nat) (digits : List Char) : Nat :=
  (digits.filterMap Text.hexDigit?).foldl (fun n d => base * n + d) 0

def inRange? (n : Int) : Option Value :=
  if -0x8000000000000000 ≤ n ∧ n < 0x8000000000000000 then some (.integer n) else none

def basedInteger? (base : Nat) (cs : List Char) : Option (Value × List Char) :=
  let isDigit (c : Char) := (Text.hexDigit? c).any (· < base)
  let digits := cs.takeWhile fun c => isDigit c || c == '_'
  if digits.isEmpty || !separated digits then none
  else (inRange? (digitsValue base digits)).map fun v => (v, cs.drop digits.length)

def isDecimalPart (c : Char) : Bool := ('0' ≤ c && c ≤ '9') || c == '_'

/-- Whether decimal digits may stand before a point or an exponent, or be an integer. -/
def isWhole (digits : List Char) : Bool :=
  !digits.isEmpty && separated digits && (digits.length == 1 || digits.head? != some '0')

/-- Whether decimal digits may stand after a point or as an exponent. -/
def isFraction (digits : List Char) : Bool := !digits.isEmpty && separated digits

/-- A float after its sign: digits, then a fraction or an exponent or both. -/
def float? (cs : List Char) : Option (Value × List Char) := do
  let whole := cs.takeWhile isDecimalPart
  let rest := cs.drop whole.length
  let (fraction, rest) ←
    match rest with
    | '.' :: rest =>
      let digits := rest.takeWhile isDecimalPart
      if isFraction digits then some (digits, rest.drop digits.length) else none
    | _ => some ([], rest)
  let (exponent, rest) ← exponent? rest
  guard (isWhole whole)
  guard !(Text.overflowsDouble (digitsValue 10 (whole ++ fraction))
    (exponent - (fraction.filter (· ≠ '_')).length))
  return (.float, rest)
where
  /-- The exponent, which is zero when there is none. -/
  exponent? : List Char → Option (Int × List Char)
    | 'e' :: rest | 'E' :: rest =>
      let (negative, rest) :=
        match rest with
        | '-' :: rest => (true, rest)
        | '+' :: rest => (false, rest)
        | _ => (false, rest)
      let digits := rest.takeWhile isDecimalPart
      let size : Int := digitsValue 10 digits
      if isFraction digits then
        some (if negative then -size else size, rest.drop digits.length)
      else none
    | rest => some (0, rest)

/-- A decimal integer or a float after its sign, or one of the words that stand for a float. -/
def decimal? (negative : Bool) (cs : List Char) : Option (Value × List Char) :=
  match cs with
  | 'i' :: 'n' :: 'f' :: rest | 'n' :: 'a' :: 'n' :: rest => some (.float, rest)
  | _ =>
    let whole := cs.takeWhile isDecimalPart
    let rest := cs.drop whole.length
    if rest.head?.any fun c => c == '.' || c == 'e' || c == 'E' then float? cs
    else if isWhole whole then
      let size : Int := digitsValue 10 whole
      (inRange? (if negative then -size else size)).map fun v => (v, rest)
    else none

/-! ## Dates -/

def isDatePart (c : Char) : Bool :=
  ('0' ≤ c && c ≤ '9') || ['-', ':', 'T', 't', ' ', '.', 'Z', 'z', '+'].contains c

/-- Whether a text is a date, a time of day, or both, then with a zone or without. -/
def isDate (t : Text) : Bool :=
  match Calendar.afterDate? false t with
  | some [] => true
  | some (84 :: rest) =>
    (Calendar.afterTime? false rest).any fun zone => zone.isEmpty || Calendar.isZone zone
  | some _ => false
  | none => Calendar.afterTime? false t == some []

/-- A date. Its letters may be small ones, and a space may stand for the letter before a time. -/
def date? (cs : List Char) : Option (Value × List Char) :=
  let chars := cs.takeWhile isDatePart
  let trimmed := (chars.reverse.dropWhile (· == ' ')).reverse
  let capital (c : Char) : Char := if c == 't' || c == ' ' then 'T' else if c == 'z' then 'Z' else c
  if isDate (Text.ofChars (trimmed.map capital)) then some (.date, cs.drop chars.length) else none

/-- Whether digits are followed by a separator of dates. A zero alone is no part of a date. -/
def startsDate (cs : List Char) : Bool :=
  let digits := cs.takeWhile Char.isDigit
  digits != [] && digits != ['0'] && (cs.drop digits.length).head?.any fun c => c == '-' || c == ':'

/-! ## Values -/

def scalar? (cs : List Char) : Option (Value × List Char) :=
  match cs with
  | '"' :: '"' :: '"' :: rest => (basicLines? rest).map fun (s, rest) => (.string s, rest)
  | '"' :: rest => (basicString? rest).map fun (s, rest) => (.string s, rest)
  | '\'' :: '\'' :: '\'' :: rest => (literalLines? rest).map fun (s, rest) => (.string s, rest)
  | '\'' :: rest => (literalString? rest).map fun (s, rest) => (.string s, rest)
  | 't' :: 'r' :: 'u' :: 'e' :: rest => some (.boolean true, rest)
  | 'f' :: 'a' :: 'l' :: 's' :: 'e' :: rest => some (.boolean false, rest)
  | '0' :: 'x' :: rest => basedInteger? 16 rest
  | '0' :: 'o' :: rest => basedInteger? 8 rest
  | '0' :: 'b' :: rest => basedInteger? 2 rest
  | '-' :: rest => decimal? true rest
  | '+' :: rest => decimal? false rest
  | _ => if startsDate cs then date? cs else decimal? false cs

mutual

/-- A value. The fuel bounds how deep arrays and inline tables nest and how long they are. -/
def value? : Nat → List Char → Option (Value × List Char)
  | 0, _ => none
  | fuel + 1, cs =>
    match skipGap cs with
    | '[' :: rest => (items? fuel rest).map fun (items, rest) => (.array items, rest)
    | '\x7b' :: rest => (firstMember? fuel rest).map fun (members, rest) => (.table members, rest)
    | cs => scalar? cs

/-- The items of an array up to its closing bracket; a comma may follow the last one. -/
def items? : Nat → List Char → Option (List Value × List Char)
  | 0, _ => none
  | fuel + 1, cs =>
    match skipFiller false cs with
    | ']' :: rest => some ([], rest)
    | cs => do
      let (item, rest) ← value? fuel cs
      match skipFiller false rest with
      | ',' :: rest =>
        let (items, rest) ← items? fuel rest
        return (item :: items, rest)
      | ']' :: rest => return ([item], rest)
      | _ => none

def firstMember? : Nat → List Char → Option (List (Path × Value) × List Char)
  | 0, _ => none
  | fuel + 1, cs =>
    match skipGap cs with
    | '\x7d' :: rest => some ([], rest)
    | cs => members? fuel cs

/-- The members of an inline table up to its closing brace; no comma follows the last one. -/
def members? : Nat → List Char → Option (List (Path × Value) × List Char)
  | 0, _ => none
  | fuel + 1, cs => do
    let (path, rest) ← path? '=' (cs.length + 1) cs
    let (value, rest) ← value? fuel rest
    match skipGap rest with
    | ',' :: rest =>
      let (members, rest) ← members? fuel rest
      return ((path, value) :: members, rest)
    | '\x7d' :: rest => return ([(path, value)], rest)
    | _ => none

end

/-! ## Statements -/

def statement? (cs : List Char) : Option (Statement × List Char) := do
  let fuel := cs.length + 1
  match cs with
  | '[' :: '[' :: rest =>
    match ← path? ']' fuel rest with
    | (path, ']' :: rest) => return (.itemHeader path, ← lineEnd? rest)
    | _ => none
  | '[' :: rest =>
    let (path, rest) ← path? ']' fuel rest
    return (.header path, ← lineEnd? rest)
  | _ =>
    let (path, rest) ← path? '=' fuel cs
    let (value, rest) ← value? (2 * fuel) rest
    return (.assign path value, ← lineEnd? rest)

/-- The statements of a list of characters. The fuel bounds their number. -/
def statementsOf? : Nat → List Char → Option (List Statement)
  | 0, _ => none
  | fuel + 1, cs =>
    match skipFiller false cs with
    | [] => some []
    | cs => do
      let (statement, rest) ← statement? cs
      let statements ← statementsOf? fuel rest
      return statement :: statements

def statements? (t : Text) : Option (List Statement) :=
  (characters? t).bind fun cs => statementsOf? (cs.length + 1) cs

end HighAsm.Toml
