import HighAsm.Text

/-!
# Wrapping a text into lines

The words of a text are put on lines one after the other, separated by single spaces, and a line
ends where the next word would make it too long. A word longer than a line stands on a line of its
own. Lengths are counted in bytes.
-/

namespace HighAsm.Text

/-- Puts words on lines, where the first line has been begun. -/
def fill (width : Nat) (line : Text) : List Text → List Text
  | [] => [line]
  | word :: words =>
    if line.length + word.length + 1 ≤ width then fill width (line ++ 32 :: word) words
    else line :: fill width word words

/-- The lines of a text of the given width. A text without words has no lines, and without a
positive width it is left as it is. -/
def wrap (width : Int) (t : Text) : List Text :=
  if width ≤ 0 then [t]
  else
    match words t with
    | [] => []
    | word :: rest => fill width.toNat word rest

end HighAsm.Text
