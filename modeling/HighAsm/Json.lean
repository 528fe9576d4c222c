import HighAsm.Text.Number

/-!
# JSON documents

Values are printed with two spaces of indentation for each level. Reading follows the grammar
strictly, except that a stray byte or half of a surrogate pair is read as the replacement
character. A number is kept as it is written.
-/

namespace HighAsm

/-- A JSON value. The members of an object keep their order. -/
inductive Json
  | null
  | bool (b : Bool)
  | number (literal : String)
  | string (s : String)
  | array (items : List Json)
  | object (members : List (String × Json))

namespace Json

/-! ## Printing -/

def writeChar (c : Char) : Text :=
  match c with
  | '"' => "\\\""
  | '\\' => "\\\\"
  | '\n' => "\\n"
  | '\x0d' => "\\r"
  | '\t' => "\\t"
  | c =>
    if c.toNat < 32 then "\\u" ++ Text.hex 4 c.toNat else Text.ofChars [c]

def writeString (s : String) : Text := Text.join ["\"", s.toList.flatMap writeChar, "\""]

def line (level : Nat) : Text := Text.newline :: Text.spaces (2 * level)

/-- Elements between brackets, each on a line of its own. -/
def enclose (left right : String) (level : Nat) (elements : List Text) : Text :=
  if elements.isEmpty then Text.join [left, right]
  else
    Text.join [left, line (level + 1), Text.joinWith ("," ++ line (level + 1)) elements,
      line level, right]

mutual

def render (level : Nat) : Json → Text
  | null => "null"
  | bool b => if b then "true" else "false"
  | number literal => literal
  | string s => writeString s
  | array items => enclose "[" "]" level (renderItems (level + 1) items)
  | object members => enclose "\x7b" "\x7d" level (renderMembers (level + 1) members)

def renderItems (level : Nat) : List Json → List Text
  | [] => []
  | item :: rest => render level item :: renderItems level rest

def renderMembers (level : Nat) : List (String × Json) → List Text
  | [] => []
  | (key, value) :: rest =>
    Text.join [writeString key, ": ", render level value] :: renderMembers level rest

end

/-! ## Reading -/

def skip (cs : List Char) : List Char :=
  cs.dropWhile fun c => c == ' ' || c == '\t' || c == '\n' || c == '\x0d'

/-- A character of a string in which the halves of surrogate pairs are still apart. -/
inductive Unit16
  | char (c : Char)
  | surrogate (n : Nat)

def Unit16.ofNat (n : Nat) : Unit16 :=
  if 0xd800 ≤ n ∧ n < 0xe000 then surrogate n else char (Char.ofNat n)

/-- Joins surrogate pairs; a half without the other is the replacement character. -/
def joinPairs : List Unit16 → List Char
  | [] => []
  | .surrogate high :: .surrogate low :: rest =>
    if high < 0xdc00 ∧ 0xdc00 ≤ low then
      Char.ofNat (0x10000 + (high - 0xd800) * 1024 + (low - 0xdc00)) :: joinPairs rest
    else Text.replacement :: joinPairs (.surrogate low :: rest)
  | .surrogate _ :: rest => Text.replacement :: joinPairs rest
  | .char c :: rest => c :: joinPairs rest

def escape? : Char → Option Char
  | '"' => some '"'
  | '\\' => some '\\'
  | '/' => some '/'
  | 'b' => some '\x08'
  | 'f' => some '\x0c'
  | 'n' => some '\n'
  | 'r' => some '\x0d'
  | 't' => some '\t'
  | _ => none

def units? : List Char → Option (List Unit16 × List Char)
  | '"' :: rest => some ([], rest)
  | '\\' :: 'u' :: a :: b :: c :: d :: rest => do
    let n ← Text.hexValue? [a, b, c, d]
    let (units, rest) ← units? rest
    return (.ofNat n :: units, rest)
  | '\\' :: c :: rest => do
    let char ← escape? c
    let (units, rest) ← units? rest
    return (.char char :: units, rest)
  | c :: rest => do
    guard (32 ≤ c.toNat ∧ c ≠ '\\')
    let (units, rest) ← units? rest
    return (.char c :: units, rest)
  | [] => none

def string? (cs : List Char) : Option (String × List Char) :=
  (units? cs).map fun (units, rest) => (String.ofList (joinPairs units), rest)

def digits? (cs : List Char) : Option (List Char × List Char) :=
  let digits := cs.takeWhile fun c => '0' ≤ c && c ≤ '9'
  if digits.isEmpty then none else some (digits, cs.drop digits.length)

/-- The digits before the point: zero alone, or digits that do not start with zero. -/
def whole? : List Char → Option (List Char × List Char)
  | '0' :: rest => some (['0'], rest)
  | cs => digits? cs

def fraction? : List Char → Option (List Char × List Char)
  | '.' :: rest => (digits? rest).map fun (digits, rest) => ('.' :: digits, rest)
  | cs => some ([], cs)

def exponent? : List Char → Option (List Char × List Char)
  | c :: rest =>
    if c == 'e' || c == 'E' then
      match rest with
      | '+' :: rest => (digits? rest).map fun (digits, rest) => (c :: '+' :: digits, rest)
      | '-' :: rest => (digits? rest).map fun (digits, rest) => (c :: '-' :: digits, rest)
      | rest => (digits? rest).map fun (digits, rest) => (c :: digits, rest)
    else some ([], c :: rest)
  | [] => some ([], [])

def number? (cs : List Char) : Option (Json × List Char) := do
  let (sign, rest) :=
    match cs with
    | '-' :: rest => (['-'], rest)
    | _ => ([], cs)
  let (whole, rest) ← whole? rest
  let (fraction, rest) ← fraction? rest
  let (exponent, rest) ← exponent? rest
  return (.number (String.ofList (sign ++ whole ++ fraction ++ exponent)), rest)

mutual

/-- A value. The fuel bounds how deep arrays and objects nest and how long they are. -/
def value? : Nat → List Char → Option (Json × List Char)
  | 0, _ => none
  | fuel + 1, cs =>
    match skip cs with
    | '\x7b' :: rest =>
      match skip rest with
      | '\x7d' :: rest => some (.object [], rest)
      | rest => (members? fuel rest).map fun (members, rest) => (.object members, rest)
    | '[' :: rest =>
      match skip rest with
      | ']' :: rest => some (.array [], rest)
      | rest => (items? fuel rest).map fun (items, rest) => (.array items, rest)
    | '"' :: rest => (string? rest).map fun (s, rest) => (.string s, rest)
    | 'n' :: 'u' :: 'l' :: 'l' :: rest => some (.null, rest)
    | 't' :: 'r' :: 'u' :: 'e' :: rest => some (.bool true, rest)
    | 'f' :: 'a' :: 'l' :: 's' :: 'e' :: rest => some (.bool false, rest)
    | cs => number? cs

def items? : Nat → List Char → Option (List Json × List Char)
  | 0, _ => none
  | fuel + 1, cs => do
    let (item, rest) ← value? fuel cs
    match skip rest with
    | ',' :: rest =>
      let (items, rest) ← items? fuel rest
      return (item :: items, rest)
    | ']' :: rest => return ([item], rest)
    | _ => none

def members? : Nat → List Char → Option (List (String × Json) × List Char)
  | 0, _ => none
  | fuel + 1, cs => do
    let (key, rest) ←
      match skip cs with
      | '"' :: rest => string? rest
      | _ => none
    let rest ←
      match skip rest with
      | ':' :: rest => some rest
      | _ => none
    let (value, rest) ← value? fuel rest
    match skip rest with
    | ',' :: rest =>
      let (members, rest) ← members? fuel rest
      return ((key, value) :: members, rest)
    | '\x7d' :: rest => return ([(key, value)], rest)
    | _ => none

end

def maxNesting : Nat := 10000

/-- The largest number of arrays and objects that are open at one place, going on from the number
that is open and the largest so far. -/
def nesting (inString : Bool) (depth most : Nat) : List Char → Nat
  | [] => most
  | '\\' :: _ :: rest => nesting inString depth most rest
  | c :: rest =>
    if c = '"' then nesting (!inString) depth most rest
    else if inString then nesting inString depth most rest
    else if c = '[' ∨ c = '\x7b' then nesting inString (depth + 1) (max most (depth + 1)) rest
    else if c = ']' ∨ c = '\x7d' then nesting inString (depth - 1) most rest
    else nesting inString depth most rest

def parse? (t : Text) : Option Json := do
  let cs := Text.chars t
  guard (nesting false 0 0 cs ≤ maxNesting)
  let (value, rest) ← value? (cs.length + 1) cs
  guard (skip rest).isEmpty
  return value

end Json

end HighAsm
