import HighAsm.Text.Number

/-!
# Characters, strings and keys of TOML

A document is a text in UTF-8 without control characters. A line ends with a line feed, which may
follow a carriage return. Strings stand on one line between single quotes, or on several lines
between triple quotes; in double quotes a backslash has a meaning, in single quotes it has none.
Keys are bare or strings on one line, and dots join them to paths.
-/

namespace HighAsm.Toml

abbrev Path := List String

/-! ## Characters -/

def isBare (c : Char) : Bool :=
  ('A' ≤ c && c ≤ 'Z') || ('a' ≤ c && c ≤ 'z') || ('0' ≤ c && c ≤ '9') || c == '_' || c == '-'

def isGap (c : Char) : Bool := c == ' ' || c == '\t'

def isLineEnd (c : Char) : Bool := c == '\n' || c == '\x0d'

/-- Whether a character is forbidden everywhere in a document. -/
def isControl (c : Char) : Bool :=
  (c.toNat < 32 && c != '\t' && !isLineEnd c) || c.toNat == 127

/-- Whether a line feed follows every carriage return. -/
def returnsEndLines : List Char → Bool
  | '\x0d' :: rest => rest.head? == some '\n' && returnsEndLines rest
  | _ :: rest => returnsEndLines rest
  | [] => true

/-- The marks of a byte order that a document may start with. -/
def byteOrderMarks : List Text := [[0xff, 0xfe], [0xfe, 0xff], [0xef, 0xbb, 0xbf]]

def unmarked (t : Text) : Text :=
  match byteOrderMarks.find? (·.isPrefixOf t) with
  | some mark => t.drop mark.length
  | none => t

/-- The characters of a document: nothing when it is not valid UTF-8, or holds a control character
or a carriage return inside a line. -/
def characters? (t : Text) : Option (List Char) :=
  let runes := Text.runes (unmarked t)
  let chars := runes.map (·.char)
  if runes.all (·.valid) && !chars.any isControl && returnsEndLines chars then some chars else none

def skipGap (cs : List Char) : List Char := cs.dropWhile isGap

def skipFiller (inComment : Bool) : List Char → List Char
  | [] => []
  | c :: rest =>
    if isLineEnd c then skipFiller false rest
    else if inComment then skipFiller true rest
    else if isGap c then skipFiller false rest
    else if c == '#' then skipFiller true rest
    else c :: rest

/-- Skips to the end of a line: only spaces, tabs and a comment may come before it. -/
def lineEnd? (cs : List Char) : Option (List Char) :=
  match skipGap cs with
  | [] => some []
  | '#' :: rest => some (rest.dropWhile (!isLineEnd ·))
  | c :: rest => if isLineEnd c then some rest else none

/-! ## Escapes -/

/-- The character of a code point written in hexadecimal; surrogates are no characters. -/
def codePoint? (digits : List Char) : Option Char :=
  (Text.hexValue? digits).bind fun n => if n.isValidChar then some (Char.ofNat n) else none

def escaped? : Char → Option Char
  | 'b' => some '\x08'
  | 't' => some '\t'
  | 'n' => some '\n'
  | 'f' => some '\x0c'
  | 'r' => some '\x0d'
  | '"' => some '"'
  | '\\' => some '\\'
  | _ => none

def unescape? : List Char → Option (List Char)
  | '\\' :: 'u' :: a :: b :: c :: d :: rest => do
    return (← codePoint? [a, b, c, d]) :: (← unescape? rest)
  | '\\' :: 'U' :: a :: b :: c :: d :: e :: f :: g :: h :: rest => do
    return (← codePoint? [a, b, c, d, e, f, g, h]) :: (← unescape? rest)
  | '\\' :: c :: rest => do return (← escaped? c) :: (← unescape? rest)
  | '\\' :: [] => none
  | c :: rest => (unescape? rest).map (c :: ·)
  | [] => some []

/-! ## Strings on one line -/

/-- The characters up to the quote that closes a string on one line, and what follows it. The flag
says whether a backslash takes away the meaning of a quote. -/
def line? (quote : Char) (escapes : Bool) : List Char → Option (List Char × List Char)
  | [] => none
  | c :: rest =>
    if c == quote then some ([], rest)
    else if isLineEnd c then none
    else if escapes && c == '\\' then
      match rest with
      | [] => none
      | d :: rest => do
        let (chars, rest) ← line? quote escapes rest
        return (c :: d :: chars, rest)
    else do
      let (chars, rest) ← line? quote escapes rest
      return (c :: chars, rest)

def basicString? (cs : List Char) : Option (String × List Char) := do
  let (chars, rest) ← line? '"' true cs
  return (String.ofList (← unescape? chars), rest)

def literalString? (cs : List Char) : Option (String × List Char) := do
  let (chars, rest) ← line? '\'' false cs
  return (String.ofList chars, rest)

/-! ## Strings on several lines -/

/-- Whether no quote may be added to the characters read so far, the last of which comes first: two
quotes may stand before the closing ones. In double quotes one after a backslash does not count. -/
def isFull (quote : Char) : List Char → Bool
  | a :: b :: before =>
    a == quote && b == quote && !(quote == '"' && before.head? == some '\\')
  | _ => false

/-- The characters up to the three quotes that close a string on several lines, and what follows
them. Those read so far are given with the last one first. -/
def lines? (quote : Char) (escapes : Bool) (before : List Char) :
    List Char → Option (List Char × List Char)
  | [] => none
  | c :: rest =>
    if c == quote then
      match rest with
      | a :: b :: more =>
        if a == quote && b == quote then
          if more.head? == some quote then
            if isFull quote before then none else lines? quote escapes (c :: before) rest
          else some (before.reverse, more)
        else lines? quote escapes (c :: before) rest
      | _ => none
    else if escapes && c == '\\' then
      match rest with
      | [] => none
      | d :: rest => lines? quote escapes (d :: c :: before) rest
    else lines? quote escapes (c :: before) rest

/-- The characters of a string on several lines; a line end right after the opening quotes is not
one of them. -/
def withoutFirstLineEnd : List Char → List Char
  | '\n' :: rest => rest
  | '\x0d' :: '\n' :: rest => rest
  | cs => cs

/-- Whether nothing but white space stands before the next line. -/
def isLineDone (cs : List Char) : Bool :=
  (cs.takeWhile fun c => isGap c || isLineEnd c).contains '\n'

inductive Before
  | text
  /-- A backslash that gives the character a meaning. -/
  | backslash
  /-- A backslash at the end of a line, and nothing but white space after it. -/
  | lineEnd
  deriving DecidableEq, Repr

/-- Takes out every backslash at the end of a line together with the white space after it. -/
def joinLines (before : Before) : List Char → List Char
  | [] => []
  | c :: rest =>
    if before = .lineEnd ∧ (isGap c || isLineEnd c) then joinLines .lineEnd rest
    else if c = '\\' ∧ before ≠ .backslash then
      if isLineDone rest then joinLines .lineEnd rest else c :: joinLines .backslash rest
    else c :: joinLines .text rest

def basicLines? (cs : List Char) : Option (String × List Char) := do
  let (chars, rest) ← lines? '"' true [] cs
  return (String.ofList (← unescape? (joinLines .text (withoutFirstLineEnd chars))), rest)

def literalLines? (cs : List Char) : Option (String × List Char) := do
  let (chars, rest) ← lines? '\'' false [] cs
  return (String.ofList (withoutFirstLineEnd chars), rest)

/-! ## Keys -/

def keyPart? (cs : List Char) : Option (String × List Char) :=
  match cs with
  | '"' :: rest => basicString? rest
  | '\'' :: rest => literalString? rest
  | _ =>
    let name := cs.takeWhile isBare
    if name.isEmpty then none else some (String.ofList name, cs.dropWhile isBare)

/-- Keys joined by dots up to a closing character. The fuel bounds the number of keys. -/
def path? (close : Char) : Nat → List Char → Option (Path × List Char)
  | 0, _ => none
  | fuel + 1, cs => do
    let (key, rest) ← keyPart? (skipGap cs)
    match skipGap rest with
    | '.' :: rest =>
      let (keys, rest) ← path? close fuel rest
      return (key :: keys, rest)
    | c :: rest => if c = close then some ([key], rest) else none
    | [] => none

end HighAsm.Toml
