import HighAsm.Toml

/-!
# What a TOML document defines

The statements of a document put values and tables at places. Tables on the way to a place are
implied by it. A place is given a value once, with two exceptions: an implied table may be given
something later, and then stays as it is, and a place whose value was an array may be given anything
instead.

An inline table is built up twice: by its assignments in the document, one after the other, and by
itself, where the later of two assignments wins. The document keeps the table that it has built up.
Only in the place of an array it takes the other one, and from then on the two are one table,
whether it is reached in the document or in the inline table around it.

A document also keeps the paths its statements name, in the order they are written in: the path of
a header before the members of its table, and the path of an inline table before its members. The
tables on the way to a dotted key are not named.
-/

namespace HighAsm.Toml

inductive Error
  | malformed
  | duplicate (path : Path)
  | noTable (path : Path)
  | mismatch (path : Path)
  deriving DecidableEq, Repr

def quotedChar (c : Char) : Text :=
  match c with
  | '"' => "\\\""
  | '\\' => "\\\\"
  | '\x08' => "\\b"
  | '\t' => "\\t"
  | '\n' => "\\n"
  | '\x0c' => "\\f"
  | '\x0d' => "\\r"
  | c =>
    if c.toNat < 32 || c.toNat == 127 then "\\u" ++ Text.hex 4 c.toNat else Text.ofChars [c]

def renderKey (key : String) : Text :=
  if !key.isEmpty && key.toList.all isBare then key
  else Text.join ["\"", key.toList.flatMap quotedChar, "\""]

def renderPath (path : Path) : Text := Text.joinWith "." (path.map renderKey)

def Error.message : Error → Text
  | malformed => "toml: malformed document"
  | duplicate path => Text.join ["toml: key '", renderPath path, "' is already defined"]
  | noTable path => Text.join ["toml: key '", renderPath path, "' is not a table"]
  | mismatch path => Text.join ["toml: key '", renderPath path, "' has a value of the wrong type"]

inductive Node
  | value (v : Value)
  /-- A table. The flag says whether it is an inline table that took the place of an array. -/
  | table (isInline : Bool) (members : List (String × Node))
  /-- An array of tables. Statements only reach the last of them. -/
  | tables (last : List (String × Node))

abbrev Members := List (String × Node)

namespace Members

def insert (m : Members) (key : String) (node : Node) : Members :=
  if (m.lookup key).isSome then m.map fun (k, old) => (k, if k = key then node else old)
  else m ++ [(key, node)]

def find? : Path → Members → Option Node
  | [], _ => none
  | [key], m => m.lookup key
  | key :: rest, m =>
    match m.lookup key with
    | some (.table _ inner) | some (.tables inner) => find? rest inner
    | _ => none

/-- Changes the members of the table at a path, which leads on to a place. -/
def changeAt (place : Path) (f : Members → Members) : Path → Members → Except Error Members
  | [], m => .ok (f m)
  | key :: rest, m =>
    match m.lookup key with
    | some (.table isInline inner) => do
      return m.insert key (.table isInline (← changeAt place f rest inner))
    | some (.tables inner) => do return m.insert key (.tables (← changeAt place f rest inner))
    | _ => .error (.noTable place)

/-- Writes something at a path of an inline table, over what stands there. Missing tables on the way
are made. The members that the document has built up are given first; where they hold an inline
table, it is this one that is written to, and both sides have it afterwards. -/
def write (node : Node) : Path → Members → Members → Except Error (Members × Members)
  | [], built, own => .ok (built, own)
  | [key], built, own => .ok (built, own.insert key node)
  | key :: rest, built, own =>
    match built.lookup key with
    | some (.table true inner) => do
      let (_, inner) ← write node rest [] inner
      return (built.insert key (.table true inner), own.insert key (.table true inner))
    | some (.table false inner) => do
      let (inner, ownInner) ← write node rest inner (← tableAt own key)
      return (built.insert key (.table false inner), own.insert key (.table false ownInner))
    | _ => do
      let (_, ownInner) ← write node rest [] (← tableAt own key)
      return (built, own.insert key (.table false ownInner))
where
  tableAt (m : Members) (key : String) : Except Error Members :=
    match m.lookup key with
    | none => .ok []
    | some (.table _ inner) => .ok inner
    | some _ => .error (.noTable [key])

end Members

structure Document where
  root : Members := []
  /-- The places of tables that were only implied. -/
  implied : List Path := []
  /-- The places whose last value was an array. -/
  arrays : List Path := []
  /-- The paths that the statements name, in their order. -/
  keys : List Path := []

namespace Document

def node? (d : Document) (path : Path) : Option Node := Members.find? path d.root

def placeOf (context : Path) (key : String) : Path := context ++ [key]

def store (d : Document) (context : Path) (key : String) (node : Node) :
    Except Error Document := do
  let change (m : Members) : Members := m.insert key node
  return { d with root := ← d.root.changeAt (placeOf context key) change context }

/-- Gives something to a key of a table. A place whose last value was an array takes it; a table
that was only implied stays, but is no longer implied only; no other place can be given anything
again. -/
def put (d : Document) (context : Path) (key : String) (node : Node) : Except Error Document :=
  let place := placeOf context key
  let settled := { d with implied := d.implied.filter (· ≠ place) }
  if (d.node? place).isNone then d.store context key node
  else if d.arrays.contains place then settled.store context key node
  else if d.implied.contains place then .ok settled
  else .error (.duplicate place)

def note (d : Document) (place : Path) (isArray : Bool) : Document :=
  let others := d.arrays.filter (· ≠ place)
  { d with arrays := if isArray then place :: others else others }

/-- The place that the value of a key of a table is noted for. Below the top, a key without
characters counts as its table. -/
def notedPlace (context : Path) (key : String) : Path :=
  if key.isEmpty && !context.isEmpty then context else placeOf context key

def name (d : Document) (path : Path) : Document := { d with keys := d.keys ++ [path] }

def imply (d : Document) (place : Path) : Document := { d with implied := place :: d.implied }

def enter (d : Document) (context : Path) (key : String) : Except Error Document :=
  (d.imply (placeOf context key)).put context key (.table false [])

/-- The keys of a path, each with the path in front of it. -/
def stations (inside : Path) : Path → List (Path × String)
  | [] => []
  | key :: rest => (inside, key) :: stations (inside ++ [key]) rest

/-- The table that a path is in, and its key there. -/
def split (inside path : Path) : Path × String :=
  (inside ++ path.dropLast, path.getLastD "")

/-- Goes to the table that the last key of an assignment is in, and names its place. -/
def approach (d : Document) (inside path : Path) : Except Error Document := do
  let d ← (stations inside path.dropLast).foldlM (fun d (context, key) => d.enter context key) d
  return d.name (inside ++ path)

/-- Makes the missing tables on the way to a header. -/
def reach (d : Document) (path : Path) : Except Error Document :=
  (stations [] path.dropLast).foldlM reachOne d
where
  reachOne (d : Document) (station : Path × String) : Except Error Document :=
    let (context, key) := station
    let place := placeOf context key
    if (d.node? place).isSome then .ok d
    else (d.imply place).store context key (.table false [])

def addTable (d : Document) (path : Path) : Except Error Document := do
  let d ← d.reach path
  match d.node? path with
  | none | some (.tables _) => d.store path.dropLast (path.getLastD "") (.tables [])
  | some _ => .error (.duplicate path)

def membersAt (d : Document) (path : Path) : Members :=
  match d.node? path with
  | some (.table _ members) | some (.tables members) => members
  | _ => []

/-- Writes something at a path of the inline table at a place. -/
def writeInline (d : Document) (place path : Path) (node : Node) (own : Members) :
    Except Error (Document × Members) := do
  let (built, own) ← Members.write node path (d.membersAt place) own
  return ({ d with root := ← d.root.changeAt place (fun _ => built) place }, own)

mutual

/-- Goes through a value that a key of a table is given, and returns what it is by itself. The flag
says whether the value is an item of an array. -/
def evaluate (d : Document) (context : Path) (key : String) (isItem : Bool) :
    Value → Except Error (Document × Node)
  | .array items => do
    let d ← evaluateItems (d.note (notedPlace context key) true) context key items
    return (d, .value (.array items))
  | .table members => do
    let place := placeOf context key
    let d ←
      if isItem then (d.imply place).addTable place
      else d.enter context key
    let (d, written) ← evaluateMembers d place [] members
    return (d, .table true written)
  | v => .ok (d, .value v)

def evaluateItems (d : Document) (context : Path) (key : String) :
    List Value → Except Error Document
  | [] => .ok d
  | v :: rest => do
    let (d, _) ← evaluate d context key true v
    evaluateItems d context key rest

/-- Goes through the members of an inline table, and returns those that it has by itself. -/
def evaluateMembers (d : Document) (inside : Path) (written : Members) :
    List (Path × Value) → Except Error (Document × Members)
  | [] => .ok (d, written)
  | (path, v) :: rest => do
    let (context, key) := split inside path
    let (d, node) ← evaluate (← d.approach inside path) context key false v
    let d := (← d.put context key node).note (notedPlace context key) v.isArray
    let (d, written) ← d.writeInline inside path node written
    evaluateMembers d inside written rest

end

def assign (d : Document) (inside path : Path) (v : Value) : Except Error Document := do
  let (context, key) := split inside path
  let (d, node) ← evaluate (← d.approach inside path) context key false v
  return (← d.put context key node).note (notedPlace context key) v.isArray

def defineTable (d : Document) (path : Path) : Except Error Document := do
  let (context, key) := split [] path
  let d ← (← d.reach path).put context key (.table false [])
  return (d.note path false).name path

def defineItem (d : Document) (path : Path) : Except Error Document := do
  return ((← d.addTable path).note path false).name path

/-- Adds what the statements define; the path is the table of the last header. -/
def addAll (d : Document) (inside : Path) : List Statement → Except Error Document
  | [] => .ok d
  | .header path :: rest => do addAll (← d.defineTable path) path rest
  | .itemHeader path :: rest => do addAll (← d.defineItem path) path rest
  | .assign path v :: rest => do addAll (← d.assign inside path v) inside rest

def parse (t : Text) : Except Error Document :=
  match statements? t with
  | none => .error .malformed
  | some statements => addAll {} [] statements

end Document

end HighAsm.Toml
