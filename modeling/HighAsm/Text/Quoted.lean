import HighAsm.Text.Number

/-!
# Quoted texts

Messages show a piece of input between double quotes, so that its ends and its odd characters can
be seen. A printable character stands for itself; any other is written as a short escape, as a
code point, or, when it is a stray byte, as that byte.
-/

namespace HighAsm.Text

def shortEscape? (c : Char) : Option String :=
  match c.toNat with
  | 7 => some "\\a"
  | 8 => some "\\b"
  | 9 => some "\\t"
  | 10 => some "\\n"
  | 11 => some "\\v"
  | 12 => some "\\f"
  | 13 => some "\\r"
  | _ => none

def quoteRune (r : Rune) : Text :=
  if !r.valid then "\\x" ++ hexBytes r.bytes
  else if r.char = '"' ∨ r.char = '\\' then ofChars ['\\', r.char]
  else if isPrintable r.char then r.bytes
  else
    match shortEscape? r.char with
    | some escape => escape
    | none =>
      let n := r.char.toNat
      if n < 32 || n = 127 then "\\x" ++ hex 2 n
      else if n < 0x10000 then "\\u" ++ hex 4 n
      else "\\U" ++ hex 8 n

def quoted (t : Text) : Text := join ["\"", (runes t).flatMap quoteRune, "\""]

end HighAsm.Text
