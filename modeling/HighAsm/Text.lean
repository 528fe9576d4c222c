import HighAsm.Text.Class
import HighAsm.Text.Case

/-!
# Texts

A text is a sequence of bytes. Source lines, string constants, messages and printed pages are
texts, because nothing promises that the bytes of a source file are valid UTF-8. Names that went
through the scanner are valid, and those are kept as `String`s.

A text read as UTF-8 is a list of `Rune`s: a run of bytes that encodes a character, or a single
byte that starts no valid encoding and stands for the replacement character U+FFFD.
-/

namespace HighAsm

abbrev Text := List UInt8

namespace Text

def ofChars (cs : List Char) : Text := cs.flatMap String.utf8EncodeChar

def ofString (s : String) : Text := ofChars s.toList

instance : Coe String Text := ⟨ofString⟩

def ofNat (n : Nat) : Text := ofChars (Nat.toDigits 10 n)

def ofInt (n : Int) : Text := if n < 0 then "-" ++ ofNat n.natAbs else ofNat n.natAbs

def join (parts : List Text) : Text := parts.flatten

def joinWith (separator : Text) (parts : List Text) : Text := (parts.intersperse separator).flatten

/-- The escape sequence that sets the colour of what follows; zero ends all colours. -/
def colour (code : Nat) : Text := join [[27], "[", ofNat code, "m"]

def repeated (n : Nat) (byte : UInt8) : Text := List.replicate n byte

def spaces (n : Nat) : Text := repeated n 32

def newline : UInt8 := 10

def untab (t : Text) : Text := t.map fun b => if b = 9 then 32 else b

/-- The text cut at every occurrence of a byte; there is always at least one piece. -/
def splitAt (separator : UInt8) : Text → List Text
  | [] => [[]]
  | b :: rest =>
    if b = separator then [] :: splitAt separator rest
    else
      match splitAt separator rest with
      | [] => [[b]]
      | piece :: pieces => (b :: piece) :: pieces

def cut? (separator : Text) : Text → Option (Text × Text)
  | [] => if separator.isEmpty then some ([], []) else none
  | b :: rest =>
    if separator.isPrefixOf (b :: rest) then some ([], (b :: rest).drop separator.length)
    else (cut? separator rest).map fun (before, after) => (b :: before, after)

def holds (part whole : Text) : Bool := (cut? part whole).isSome

def dropEnd (tail t : Text) : Text :=
  if tail.isSuffixOf t then t.take (t.length - tail.length) else t

def trimStart (drop : UInt8 → Bool) (t : Text) : Text := t.dropWhile drop

def trimEnd (drop : UInt8 → Bool) (t : Text) : Text := (t.reverse.dropWhile drop).reverse

def lines (t : Text) : List Text :=
  match trimEnd (· = newline) t with
  | [] => []
  | body => splitAt newline body

/-- The text with something put after every line feed, as when a block is indented. -/
def afterNewlines (indent : Text) (t : Text) : Text :=
  t.flatMap fun b => if b = newline then newline :: indent else [b]

/-- The replacement character that stands for a byte outside any valid encoding. -/
def replacement : Char := Char.ofNat 0xfffd

def isTail (b : UInt8) : Bool := 0x80 ≤ b && b ≤ 0xbf

def tailBits (b : UInt8) : Nat := b.toNat % 64

/-- The smallest and largest second byte that may follow a leading byte of three or four. -/
def secondRange (lead : UInt8) : UInt8 × UInt8 :=
  if lead = 0xe0 then (0xa0, 0xbf)
  else if lead = 0xed then (0x80, 0x9f)
  else if lead = 0xf0 then (0x90, 0xbf)
  else if lead = 0xf4 then (0x80, 0x8f)
  else (0x80, 0xbf)

def isSecond (lead b : UInt8) : Bool := (secondRange lead).1 ≤ b && b ≤ (secondRange lead).2

/-- The character that starts at a byte, with the number of bytes after the first that it takes.
Nothing is returned for a byte that starts no valid encoding. -/
def leading? (b : UInt8) (rest : Text) : Option (Char × Nat) :=
  if b < 0x80 then some (Char.ofNat b.toNat, 0)
  else if 0xc2 ≤ b && b ≤ 0xdf then
    match rest with
    | c :: _ => if isTail c then some (Char.ofNat (b.toNat % 32 * 64 + tailBits c), 1) else none
    | _ => none
  else if 0xe0 ≤ b && b ≤ 0xef then
    match rest with
    | c :: d :: _ =>
      if isSecond b c && isTail d then
        some (Char.ofNat (b.toNat % 16 * 4096 + tailBits c * 64 + tailBits d), 2)
      else none
    | _ => none
  else if 0xf0 ≤ b && b ≤ 0xf4 then
    match rest with
    | c :: d :: e :: _ =>
      if isSecond b c && isTail d && isTail e then
        some (Char.ofNat
          (b.toNat % 8 * 262144 + tailBits c * 4096 + tailBits d * 64 + tailBits e), 3)
      else none
    | _ => none
  else none

/-- One character of a text together with the bytes it was read from. -/
structure Rune where
  char : Char
  bytes : Text
  /-- Whether the bytes encode the character; otherwise they are one stray byte. -/
  valid : Bool

def runes (t : Text) : List Rune :=
  match t with
  | [] => []
  | b :: rest =>
    match leading? b rest with
    | some (c, n) => ⟨c, b :: rest.take n, true⟩ :: runes (rest.drop n)
    | none => ⟨replacement, [b], false⟩ :: runes rest
termination_by t.length
decreasing_by all_goals (simp only [List.length_drop, List.length_cons]; omega)

def chars (t : Text) : List Char := (runes t).map (·.char)

def decoded (t : Text) : String := String.ofList (chars t)

def charCount (t : Text) : Nat := (runes t).length

def isValid (t : Text) : Bool := (runes t).all (·.valid)

def ofRunes (rs : List Rune) : Text := rs.flatMap (·.bytes)

def trimList {α : Type} (drop : α → Bool) (xs : List α) : List α :=
  ((xs.dropWhile drop).reverse.dropWhile drop).reverse

def trim (t : Text) : Text := ofRunes (trimList (fun r => isBlank r.char) (runes t))

/-- The words of a list of runes: its maximal runs without white space. -/
def wordsOf : List Rune → List Text
  | [] => []
  | r :: rest =>
    if isBlank r.char then wordsOf rest
    else
      match rest, wordsOf rest with
      | next :: _, word :: words =>
        if isBlank next.char then r.bytes :: word :: words else (r.bytes ++ word) :: words
      | _, words => r.bytes :: words

def words (t : Text) : List Text := wordsOf (runes t)

/-- The text in lower case. A text of ASCII keeps its bytes' number; in any other text a stray byte
turns into the replacement character. -/
def lower (t : Text) : Text := ofChars ((chars t).map lowerChar)

def padRight (width : Nat) (t : Text) : Text := t ++ spaces (width - charCount t)

end Text

end HighAsm
