import HighAsm.Text.Base64
import HighAsm.Yaml.Reading

/-!
# Scalars of YAML

A string is written plainly when it can be: when a reader would not take it for something else, and
when the syntax of plain scalars allows its characters where they stand. A string of another meaning
is written in double quotes, and so is one with characters that have to be escaped; a string that
only breaks the syntax is written in single quotes. A string with line feeds is written line by line
where that is possible. Bytes that are no UTF-8 are written in base 64 with a tag.
-/

namespace HighAsm.Yaml

def isPrintable (c : Char) : Bool :=
  let n := c.toNat
  c == '\n' || (0x20 ≤ n && n ≤ 0x7e) || (0xa0 ≤ n && n ≤ 0xfffd && n != 0xfeff)

def isBreak (c : Char) : Bool := ['\n', '\x0d', '\u0085', '\u2028', '\u2029'].contains c

def isGap (c : Char) : Bool := c == ' ' || c == '\t'

def indicators : List Char :=
  ['#', ',', '[', ']', '\x7b', '\x7d', '&', '*', '!', '|', '>', '\'', '"', '%', '@', '\x60']

def mayStart : List Char → Bool
  | '-' :: '-' :: '-' :: _ | '.' :: '.' :: '.' :: _ => false
  | c :: rest =>
    c != ' ' && !indicators.contains c && !(['?', ':', '-'].contains c && rest.head?.all isGap)
  | [] => true

/-- Whether characters may go on a plain scalar: no colon stands before a gap or at the end, no `#`
behind a gap, and no space at the end. -/
def mayFollow (afterGap : Bool) : List Char → Bool
  | [] => true
  | c :: rest =>
    !(c == ':' && rest.head?.all isGap) && !(c == '#' && afterGap) && !(c == ' ' && rest.isEmpty) &&
      mayFollow (isGap c) rest

def byteOrderMark : Char := '\ufeff'

/-- A character between double quotes. The flag says whether it is escaped even if it could be
written as it is. -/
def escaped (always : Bool) (c : Char) : Text :=
  match c with
  | '\x00' => "\\0"
  | '\x07' => "\\a"
  | '\x08' => "\\b"
  | '\t' => "\\t"
  | '\n' => "\\n"
  | '\x0b' => "\\v"
  | '\x0c' => "\\f"
  | '\x0d' => "\\r"
  | '\x1b' => "\\e"
  | '"' => "\\\""
  | '\\' => "\\\\"
  | c =>
    let n := c.toNat
    if n = 0x85 then "\\N"
    else if n = 0x2028 then "\\L"
    else if n = 0x2029 then "\\P"
    else if isPrintable c && !always then Text.ofChars [c]
    else if n = 0xa0 then "\\_"
    else if n ≤ 0xff then Text.join ["\\x", code 2 n]
    else if n ≤ 0xffff then Text.join ["\\u", code 4 n]
    else Text.join ["\\U", code 8 n]
where
  code (width n : Nat) : Text :=
    let digits := (Nat.toDigits 16 n).map Char.toUpper
    Text.ofChars (List.replicate (width - digits.length) '0' ++ digits)

/-! ## Styles -/

inductive Style
  | plain
  | single
  | double
  | literal
  deriving DecidableEq, Repr

/-- Whether a character of one kind stands right before one of another kind. -/
def adjoin (p q : Char → Bool) (cs : List Char) : Bool :=
  (cs.zip cs.tail).any fun (a, b) => p a && q b

/-- Whether characters have to be escaped, wherever they stand; tabs do not count. -/
def needEscapes (cs : List Char) : Bool :=
  !cs.all (fun c => isPrintable c || c == '\t') || adjoin (· == ' ') isBreak cs

def mayBeSingle (cs : List Char) : Bool :=
  !needEscapes cs && !cs.contains '\t' && !adjoin isBreak (· == ' ') cs

def mayBeLiteral (cs : List Char) : Bool := !needEscapes cs && cs.getLast? != some ' '

def mayBePlain (cs : List Char) : Bool :=
  mayBeSingle cs && !cs.any isBreak && mayStart cs && mayFollow true cs

/-- The style of a string, which may not be plain if it could be taken for something else. -/
def styleOf (isAmbiguous : Bool) (cs : List Char) : Style :=
  if cs.contains '\n' then if mayBeLiteral cs then .literal else .double
  else if isAmbiguous then .double
  else if mayBePlain cs then .plain
  else if mayBeSingle cs then .single
  else .double

/-! ## Writing -/

/-- Characters between single quotes. A line goes on after spaces. -/
def singleQuoted (indent : Nat) (afterBreak : Bool) : List Char → Text
  | [] => []
  | c :: rest =>
    let margin : Text := if afterBreak && !isBreak c then List.replicate indent 32 else []
    let written : Text := if c = '\'' then "''" else Text.ofChars [c]
    margin ++ written ++ singleQuoted indent (isBreak c) rest

/-- The lines of a string after their mark. Every line starts with spaces, unless it is empty. -/
def literalLines (indent : Nat) (afterBreak : Bool) : List Char → Text
  | [] => []
  | c :: rest =>
    let margin : Text := if afterBreak && !isBreak c then List.replicate indent 32 else []
    margin ++ Text.ofChars [c] ++ literalLines indent (isBreak c) rest

/-- Characters between double quotes. After a byte order mark at the start all are escaped. -/
def doubleQuoted (cs : List Char) : Text :=
  cs.flatMap (escaped (cs.head? == some byteOrderMark))

def levelWidth : Nat := 4

/-- The mark of a string that is written line by line: how far it is indented, when its first
character would hide that, and whether its last line ends with a break, or with several. -/
def literalMark (cs : List Char) : Text :=
  let hidden := cs.head?.any fun c => c == ' ' || isBreak c
  let breaks := (cs.reverse.takeWhile isBreak).length
  Text.join ["|", if hidden then Text.ofNat levelWidth else [],
    if breaks = 0 then "-" else if breaks = 1 && 1 < cs.length then [] else "+"]

/-- A string in a style, with the end of its last line. Lines after the first are indented by a
number of spaces. -/
def render (indent : Nat) (style : Style) (cs : List Char) : Text :=
  match style with
  | .plain => Text.join [Text.ofChars cs, "\n"]
  | .single => Text.join ["'", singleQuoted indent false cs, "'\n"]
  | .double => Text.join ["\"", doubleQuoted cs, "\"\n"]
  | .literal =>
    Text.join [literalMark cs, if cs.head?.any isBreak then [] else "\n",
      literalLines indent true cs, if cs.getLast?.any isBreak then [] else "\n"]

def maxDigits : Nat := 70

/-- Digits in base 64, cut into lines that all have an end. The number says how many more digits a
line can take. -/
def cutDigits : Nat → Text → Text
  | _, [] => [10]
  | 0, b :: rest => 10 :: b :: cutDigits (maxDigits - 1) rest
  | room + 1, b :: rest => b :: cutDigits room rest

/-- Digits in base 64 as one line, or as several lines that all have an end. -/
def digitLines (digits : Text) : Text :=
  if digits.length < maxDigits then digits else cutDigits maxDigits digits

def scalar (indent : Nat) (t : Text) : Text :=
  if t.isValid then
    let cs := Text.chars t
    render indent (styleOf (isAmbiguous t) cs) cs
  else
    let cs := Text.chars (digitLines (Text.base64 t))
    "!!binary " ++ render indent (styleOf false cs) cs

end HighAsm.Yaml
