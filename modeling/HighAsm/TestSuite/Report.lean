import HighAsm.Json
import HighAsm.TestSuite

/-!
# Reports of test suites

A report is a JSON object with a member for every file. Fields that say nothing are left out. When
a report is read again, keys are matched without regard to case, and a field of the wrong type
makes the whole report unreadable. A field that is given again is read over its earlier value, so
that what the new value leaves open stays: null leaves everything but a list as it was, and the
items of a list are read over the earlier items.
-/

namespace HighAsm.TestSuite

/-! ## Writing -/

def caseJson (c : TestResult) : Json :=
  let failures := c.failures.map fun f => Json.string f.decoded
  .object (("name", .string c.name.decoded) ::
    if failures.isEmpty then [] else [("failures", .array failures)])

def fileJson (r : FileResult) : Json :=
  .object ([("file", .string r.file.decoded), ("hash", .string r.hash.decoded),
      ("status", .string r.status.name)] ++
    (if r.message.isEmpty then [] else [("message", .string r.message.decoded)]) ++
    [("duration", .number (toString r.duration))] ++
    (if r.cached then [("cached", .bool true)] else []) ++
    if r.cases.isEmpty then [] else [("cases", .array (r.cases.map caseJson))])

/-- The report of a suite, by file; of two results for one file the later is kept. -/
def report (results : List FileResult) : Text :=
  let files := (results.map (·.file)).eraseDups.mergeSort fun a b => !decide (b < a)
  let last (file : Text) : Option (String × Json) :=
    (results.reverse.find? (·.file == file)).map fun r => (file.decoded, fileJson r)
  Json.render 0 (.object (files.filterMap last))

/-! ## Reading -/

/-- Items that can be read over: all that were ever read, and how many of them count. -/
structure Overlay (α : Type) where
  items : List α := []
  count : Nat := 0

namespace Overlay

variable {α : Type}

def shown (o : Overlay α) : List α := o.items.take o.count

/-- Reads values over earlier items, in order. A value without an earlier item is read over a fresh
one. -/
def readItems? (fresh : α) (item? : α → Json → Option α) : List α → List Json → Option (List α)
  | _, [] => some []
  | earlier, value :: rest => do
    let item ← item? (earlier.headD fresh) value
    let items ← readItems? fresh item? earlier.tail rest
    return item :: items

/-- Reads a list over earlier items. Those behind its end no longer count, but a longer list will
find them again; a list of nothing forgets them all. -/
def read? (fresh : α) (item? : α → Json → Option α) (o : Overlay α) : Json → Option (Overlay α)
  | .null | .array [] => some {}
  | .array values => do
    let items ← readItems? fresh item? o.items values
    return ⟨items ++ o.items.drop items.length, items.length⟩
  | _ => none

end Overlay

def readText? (earlier : Text) : Json → Option Text
  | .null => some earlier
  | .string s => some s
  | _ => none

def readBool? (earlier : Bool) : Json → Option Bool
  | .null => some earlier
  | .bool b => some b
  | _ => none

/-- Reads an integer, written without fraction or exponent, over an earlier one. -/
def readInt? (earlier : Int) : Json → Option Int
  | .null => some earlier
  | .number literal => Text.decimal? literal
  | _ => none

/-- Reads the members of an object over an earlier value, in order and each by its key without
regard to case. -/
def readObject? {α : Type} (member? : α → String → Json → Option α) (earlier : α) :
    Json → Option α
  | .null => some earlier
  | .object members =>
    members.foldlM (fun a (key, value) =>
      member? a (String.ofList (key.toList.map foldChar)) value) earlier
  | _ => none

structure CaseEntry where
  name : Text := []
  failures : Overlay Text := {}

def CaseEntry.member? (c : CaseEntry) (key : String) (value : Json) : Option CaseEntry :=
  match key with
  | "name" => (readText? c.name value).map fun t => { c with name := t }
  | "failures" => (c.failures.read? [] readText? value).map fun o => { c with failures := o }
  | _ => some c

def CaseEntry.result (c : CaseEntry) : TestResult := ⟨c.name, c.failures.shown⟩

structure FileEntry where
  file : Text := []
  hash : Text := []
  status : Text := []
  message : Text := []
  duration : Int := 0
  cached : Bool := false
  cases : Overlay CaseEntry := {}

namespace FileEntry

def member? (f : FileEntry) (key : String) (value : Json) : Option FileEntry :=
  match key with
  | "file" => (readText? f.file value).map fun t => { f with file := t }
  | "hash" => (readText? f.hash value).map fun t => { f with hash := t }
  | "status" => (readText? f.status value).map fun t => { f with status := t }
  | "message" => (readText? f.message value).map fun t => { f with message := t }
  | "duration" => (readInt? f.duration value).map fun n => { f with duration := n }
  | "cached" => (readBool? f.cached value).map fun b => { f with cached := b }
  | "cases" =>
    (f.cases.read? {} (readObject? CaseEntry.member?) value).map fun o => { f with cases := o }
  | _ => some f

/-- The result that was read, when the file passed; another is of no use. -/
def result? (f : FileEntry) : Option FileResult :=
  if f.status = Text.ofString Status.pass.name then
    some
      { file := f.file, hash := f.hash, status := .pass, message := f.message,
        duration := f.duration, cached := f.cached, cases := f.cases.shown.map CaseEntry.result }
  else none

end FileEntry

def readFile? : Json → Option (Option FileEntry)
  | .null => some none
  | value => (readObject? FileEntry.member? {} value).map some

/-- The results of a report that may be used again, and the files that it names without a result; of
two members of one name the later counts. Nothing is returned for a text that is no report. -/
def readReport? (t : Text) : Option Earlier := do
  match ← Json.parse? t with
  | .null => return []
  | .object members =>
    let files ← members.mapM fun (key, value) =>
      (readFile? value).map fun f? => (Text.ofString key, f?)
    let last := files.reverse.foldl (fun known (key, f?) =>
      if known.any (·.1 == key) then known else known ++ [(key, f?)]) []
    return last.filterMap fun (key, f?) =>
      match f? with
      | some f => f.result?.map fun r => (key, some r)
      | none => some (key, none)
  | _ => none

end HighAsm.TestSuite
