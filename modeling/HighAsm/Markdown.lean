import HighAsm.Text

/-!
# Headings and fences of a Markdown document

Of a Markdown document only headings and fenced code blocks matter here. A heading is a line of one
to six `#` and a title. A fence opens with at least three backticks or tildes and runs to a line of
at least as many, or to the end of the document; what follows the opening marks is its info string,
whose first word names the language of the block. Both may be indented by up to three spaces.
-/

namespace HighAsm.Markdown

/-- A heading or a fence, with the number of the line that it begins on. The line of a fence is the
line of its first content, and zero when it has none. -/
inductive Block
  | heading (line : Nat) (title : Text)
  | fence (line : Nat) (language content : Text)
  deriving DecidableEq, Repr

def isGap (b : UInt8) : Bool := b = 32 || b = 9

/-- Whether a byte is white space: a space, a tab, or a part of a line end. -/
def isSpace (b : UInt8) : Bool := isGap b || b = 10 || b = 13

def trimmed (t : Text) : Text := Text.trimList isSpace t

def linesOf (t : Text) : List Text :=
  let pieces := Text.splitAt Text.newline t
  let whole := pieces.dropLast.map (· ++ [Text.newline])
  match pieces.getLast? with
  | some last => if last.isEmpty then whole else whole ++ [last]
  | none => whole

def indentation (line : Text) : Nat × Text :=
  let depth := (line.takeWhile (· = 32)).length
  (depth, line.drop depth)

/-- A title without the run of `#` that may close it. -/
def withoutClosing (title : Text) : Text :=
  let before := Text.trimEnd (· = 35) title
  match before.getLast? with
  | none => []
  | some b => if before.length < title.length && isSpace b then trimmed before else title

def heading? (line : Text) : Option Text :=
  let (depth, body) := indentation line
  let marks := (body.takeWhile (· = 35)).length
  let rest := body.drop marks
  if 3 < depth || marks = 0 || 6 < marks then none
  else if rest.isEmpty then some []
  else if rest.head?.any isSpace then some (withoutClosing (trimmed rest))
  else none

structure Fence where
  mark : UInt8
  width : Nat
  indent : Nat
  language : Text

/-- The fence that a line opens. The info string after backticks holds none. -/
def fence? (line : Text) : Option Fence :=
  let (indent, body) := indentation line
  match body with
  | [] => none
  | mark :: _ =>
    let width := (body.takeWhile (· = mark)).length
    let rest := body.drop width
    let info := if rest.length ≤ 1 then [] else trimmed rest
    if 3 < indent || !(mark = 96 || mark = 126) || width < 3 then none
    else if mark = 96 && info.contains 96 then none
    else some ⟨mark, width, indent, info.takeWhile (· ≠ 32)⟩

namespace Fence

def closedBy (f : Fence) (line : Text) : Bool :=
  let (depth, body) := indentation line
  let width := (body.takeWhile (· = f.mark)).length
  depth ≤ 3 && f.width ≤ width && (body.drop width).all isSpace

/-- The rest of a line after white space from one column up to another, and how many columns the
last tab goes beyond it. A tab ends at a multiple of four columns. -/
def afterColumns? (last column : Nat) (line : Text) : Option (Nat × Text) :=
  if last ≤ column then some (column - last, line)
  else
    match line with
    | 32 :: rest => afterColumns? last (column + 1) rest
    | 9 :: rest => afterColumns? last (column + (4 - column % 4)) rest
    | _ => none

/-- A line of a fence as content: without as much of its indentation as the fence itself has, and
with a line feed. Of a line that is indented less, a blank one stays as it is and any other loses
its indentation. -/
def content (f : Fence) (line : Text) : Text :=
  let body := line.dropWhile isGap
  let kept : Text :=
    match afterColumns? f.indent 0 line with
    | some (surplus, rest) => Text.spaces surplus ++ rest
    | none => if body.head?.all (· = Text.newline) then line else body
  if kept.getLast?.all (· = Text.newline) then kept else kept ++ [Text.newline]

end Fence

/-- The blocks of a list of lines, the first of which has the given number. -/
def blocksFrom (number : Nat) (lines : List Text) : List Block :=
  match lines with
  | [] => []
  | line :: rest =>
    match fence? line with
    | some f =>
      let inside := rest.takeWhile fun l => !f.closedBy l
      let first := if inside.isEmpty then 0 else number + 1
      .fence first f.language (inside.flatMap f.content) ::
        blocksFrom (number + inside.length + 2) (rest.drop (inside.length + 1))
    | none =>
      match heading? line with
      | some title => .heading number title :: blocksFrom (number + 1) rest
      | none => blocksFrom (number + 1) rest
termination_by lines.length
decreasing_by all_goals (simp only [List.length_drop, List.length_cons]; omega)

def blocks (t : Text) : List Block := blocksFrom 1 (linesOf t)

end HighAsm.Markdown
