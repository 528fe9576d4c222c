import HighAsm.Text

/-!
# Paths as text

A path is a text whose components are separated by slashes. These functions look at the text alone
and never at the files.
-/

namespace HighAsm.Path

def slash : UInt8 := 47

/-- The components of a path; two slashes in a row have an empty one between them. -/
def components (p : Text) : List Text := Text.splitAt slash p

def split (p : Text) : Text × Text :=
  let name := (p.reverse.takeWhile (· ≠ slash)).reverse
  (p.take (p.length - name.length), name)

/-- The last component from its last dot on; nothing when it has no dot. -/
def extension (p : Text) : Text :=
  let name := (split p).2.reverse
  if name.contains 46 then 46 :: (name.takeWhile (· ≠ 46)).reverse else []

def stem (p : Text) : Text := Text.dropEnd (extension p) p

def base (p : Text) : Text :=
  if p.isEmpty then "."
  else
    match (split (Text.trimEnd (· = slash) p)).2 with
    | [] => [slash]
    | name => name

/-- Takes one component on top of those taken so far, the last first: dots are dropped, and two dots
take back a component, but never above the root. -/
def step (rooted : Bool) (taken : List Text) (component : Text) : List Text :=
  let up : Text := ".."
  if component.isEmpty || component == Text.ofString "." then taken
  else if component = up then
    match taken with
    | top :: rest => if top = up then up :: taken else rest
    | [] => if rooted then [] else [up]
  else component :: taken

def clean (p : Text) : Text :=
  let rooted := p.head? = some slash
  let body := Text.joinWith [slash] ((components p).foldl (step rooted) []).reverse
  if rooted then slash :: body else if body.isEmpty then "." else body

def join (directory name : Text) : Text := clean (Text.join [directory, [slash], name])

end HighAsm.Path
