import HighAsm.CommandLine
import HighAsm.Text.Wrap

/-!
# Usage and help pages

A page lists flags in two columns: how the flag is written, and what it does. The first column is
as wide as its longest entry; the second is wrapped to the width of the terminal. A third column
shows defaults. Flags are listed by name, and groups of switches follow under their headings.
-/

namespace HighAsm.CommandLine

structure Tool where
  name : Text
  synopsis : Text := []
  description : Text := []
  authors : List Text := []
  repository : Text := []
  since : Int := 0

/-- The width of pages: that of the terminal, but never below 20, and 80 without a terminal. -/
def pageWidth (terminal? : Option Int) : Int :=
  match terminal? with
  | none => 80
  | some width => if width < 20 then 20 else width

def indentAt (level : Nat) : Text := Text.spaces (4 * level)

def Flag.written (f : Flag) : Text :=
  let value : Text := if f.isSwitch then [] else Text.join [" <", f.expects, ">"]
  let short : Text :=
    if f.shorthand.isEmpty then [] else Text.join ["-", f.shorthand, value, ", "]
  let long : Text :=
    if f.isSwitch || f.expects.isEmpty then []
    else if f.shorthand.isEmpty then "=" ++ f.expects
    else value
  Text.join [short, "--", f.name, long]

def FlagSet.isGrouped (s : FlagSet) (name : Text) : Bool :=
  s.groups.any fun g => g.entries.any fun e => name == e.enabling || name == e.disabling

def byName {α : Type} (name : α → Text) (xs : List α) : List α :=
  xs.mergeSort fun a b => !decide (name b < name a)

def FlagSet.options (s : FlagSet) : List Flag :=
  byName Flag.name (s.flags.filter fun f => !s.isGrouped f.name)

structure Layout where
  page : Int
  left : Nat
  usage : Nat

def widest (ts : List Text) : Nat := ts.foldl (fun n t => max n t.length) 0

def FlagSet.layout (s : FlagSet) (page : Int) : Layout :=
  let groupLeft (g : FlagGroup) : List Text :=
    match g.entries with
    | [] => []
    | e :: _ => Text.join ["-", e.mark, "no-<", g.kind, ">"] :: g.entries.map (·.name)
  { page
    left := widest (s.options.map Flag.written ++ s.groups.flatMap groupLeft)
    usage := widest (s.options.map (·.usage) ++
      s.groups.flatMap fun g => g.entries.map (·.usage)) }

namespace Layout

/-- One entry: how it is written, what it does, and what stands on the right of its first line. -/
def entry (l : Layout) (left usage right : Text) : Text :=
  let indent := indentAt 2
  let room := max 10 (l.page - indent.length - l.left - 1 - right.length - 2)
  let lines := Text.wrap room usage
  let first := lines.headD []
  let head :=
    if right.isEmpty then Text.join [indent, left.padRight l.left, " ", first, "\n"]
    else
      Text.join [indent, left.padRight l.left, " ",
        first.padRight (min (l.usage : Int) room).toNat, "  ", right, "\n"]
  let more (line : Text) : Text := Text.join [indent, Text.spaces (l.left + 1), line, "\n"]
  head ++ (lines.drop 1).flatMap more

def flag (l : Layout) (f : Flag) : Text :=
  let right : Text :=
    if f.isSwitch || f.initial.isEmpty || f.initial == Text.ofString "[]" then []
    else Text.join ["|", f.initial, "|"]
  l.entry f.written f.usage right

def options (l : Layout) (s : FlagSet) : Text :=
  match s.options with
  | [] => []
  | flags => Text.join ["\n", indentAt 1, "Options\n", flags.flatMap l.flag]

def group (l : Layout) (g : FlagGroup) : Text :=
  match g.entries with
  | [] => []
  | e :: _ =>
    let kind : Text := if g.kind.isEmpty then "flag" else g.kind
    let enable : Text := Text.join ["-", e.mark, "<", kind, ">"]
    let disable : Text := Text.join ["-", e.mark, "no-<", kind, ">"]
    let heading : Text :=
      if g.heading.isEmpty then [] else Text.join [indentAt 1, g.heading, "\n"]
    let line (e : GroupEntry) : Text :=
      l.entry e.name e.usage (if e.initially then "|x|" else "|-|")
    Text.join ["\n", indentAt 1, g.name, "\n",
      indentAt 2, enable.padRight l.left, " Enable a specific ", kind, "\n",
      indentAt 2, disable.padRight l.left, " Disable a specific ", kind, "\n",
      heading, (byName GroupEntry.name g.entries).flatMap line]

end Layout

namespace Tool

def usage (tool : Tool) (s : FlagSet) (width : Int) : Text :=
  Text.join ["Usage: ", tool.name, " ", tool.synopsis, "\n", (s.layout width).options s,
    "\nRun '", tool.name, " --help' for all available options and flags.\n"]

def help (tool : Tool) (s : FlagSet) (width : Int) : Text :=
  let layout := s.layout width
  let repository : Text :=
    if tool.repository.isEmpty then []
    else Text.join [indentAt 1, "For more details refer to ", tool.repository, "\n"]
  let synopsis : Text :=
    if tool.synopsis.isEmpty then []
    else
      Text.join ["\n", indentAt 1, "Synopsis\n", indentAt 2, tool.name, " ", tool.synopsis, "\n"]
  let descriptionLine (line : Text) : Text := Text.join [indentAt 2, line, "\n"]
  let description : Text :=
    if tool.description.isEmpty then []
    else
      Text.join ["\n", indentAt 1, "Description\n",
        (Text.wrap (width - (indentAt 2).length) tool.description).flatMap descriptionLine]
  Text.join ["\n", indentAt 1, "Copyright (c) ", Text.ofInt tool.since, ": ",
    Text.joinWith ", " tool.authors, " and contributors\n", repository, synopsis, description,
    layout.options s, (byName FlagGroup.name s.groups).flatMap layout.group]

end Tool

end HighAsm.CommandLine
