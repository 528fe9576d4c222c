import HighAsm.Settings
import HighAsm.Toml.Document

/-!
# Settings files

A settings file overrides sizes, bases, the name of the loop index and the switches, and may name
a target. Its keys are matched exactly or, failing that, without regard to the case of letters.
Only when every key is known are the overrides applied, one after the other: when one of them is
rejected, those before it stay in force. The switches of a table have no order of their own.
-/

namespace HighAsm

/-- The switches of a table, each of which is named once. -/
structure SwitchTable where
  entries : List (String × Bool) := []
  distinct : (entries.map (·.1)).Nodup := by exact .nil

/-- A switch takes the place of another one of its name. -/
def SwitchTable.put (t : SwitchTable) (entry : String × Bool) : SwitchTable where
  entries := t.entries.filter (fun e => e.1 ≠ entry.1) ++ [entry]
  distinct := by
    have others : ((t.entries.filter fun e => e.1 ≠ entry.1).map (·.1)).Nodup :=
      t.distinct.sublist (List.filter_sublist.map _)
    rw [List.map_append, List.nodup_append]
    refine ⟨others, by simp, ?_⟩
    simp +contextual

structure Overrides where
  wordSize? : Option Int := none
  maxParams? : Option Int := none
  codeBase? : Option Int := none
  dataBase? : Option Int := none
  indexName? : Option String := none
  target? : Option String := none
  features : SwitchTable := {}
  warnings : SwitchTable := {}

/-- The order in which the switches of each table are applied, which may be any. -/
structure Overrides.Order where
  features : List (String × Bool) → List (String × Bool)
  warnings : List (String × Bool) → List (String × Bool)
  features_perm : ∀ entries, (features entries).Perm entries
  warnings_perm : ∀ entries, (warnings entries).Perm entries

/-- Switches are applied as they are written. -/
def Overrides.Order.written : Order := ⟨id, id, .refl, .refl⟩

inductive SettingsError
  | toml (cause : Toml.Error)
  | unknownKey (path : Toml.Path)
  | badWordSize (size : Int)
  | negativeMaxParams
  | unknownFeature (name : String)
  | unknownWarning (name : String)
  deriving DecidableEq, Repr

def SettingsError.message : SettingsError → Text
  | toml cause => cause.message
  | unknownKey path => Text.join ["unknown key '", Toml.renderPath path, "'"]
  | badWordSize size => "word_size must be 1 or 2, got " ++ Text.ofInt size
  | negativeMaxParams => "max_params must not be negative"
  | unknownFeature name => Text.join ["unknown feature '", name, "'"]
  | unknownWarning name => Text.join ["unknown warning '", name, "'"]

namespace Overrides

inductive Field
  | wordSize | maxParams | codeBase | dataBase | indexName | target | features | warnings
  deriving DecidableEq, Repr

def Field.key : Field → String
  | wordSize => "word_size"
  | maxParams => "max_params"
  | codeBase => "code_base"
  | dataBase => "data_base"
  | indexName => "index_name"
  | target => "target"
  | features => "features"
  | warnings => "warnings"

def Field.all : List Field :=
  [wordSize, maxParams, codeBase, dataBase, indexName, target, features, warnings]

def Field.isTable : Field → Bool
  | features | warnings => true
  | _ => false

def Field.ofKey? (key : String) : Option Field :=
  match all.find? fun f => f.key == key with
  | some f => some f
  | none => all.find? fun f => f.key.toList == key.toList.map foldChar

/-- Whether a path of a settings file means something. A member of a table of switches does, unless
the table gave way to something else. -/
def isKnown (d : Toml.Document) (path : Toml.Path) : Bool :=
  match path with
  | [key] => (Field.ofKey? key).isSome
  | [key, name] =>
    (Field.ofKey? key).any Field.isTable &&
      match d.node? [key] with
      | some (.table _ members) => (members.lookup name).isSome
      | _ => false
  | _ => false

/-- The switches of what stands at a key. Only a table has any. -/
def switches (key : String) : Toml.Node → Except Toml.Error (List (String × Bool))
  | .table _ members =>
    members.mapM fun (name, node) =>
      match node with
      | .value (.boolean on) => .ok (name, on)
      | _ => .error (.mismatch [key, name])
  | _ => .ok []

/-- Takes over what stands at a key. Tables of switches under several spellings of their key are
taken together. -/
def take (o : Overrides) (entry : String × Toml.Node) : Except Toml.Error Overrides :=
  let (key, node) := entry
  match Field.ofKey? key, node with
  | none, _ => .ok o
  | some .wordSize, .value (.integer n) => .ok { o with wordSize? := some n }
  | some .maxParams, .value (.integer n) => .ok { o with maxParams? := some n }
  | some .codeBase, .value (.integer n) => .ok { o with codeBase? := some n }
  | some .dataBase, .value (.integer n) => .ok { o with dataBase? := some n }
  | some .indexName, .value (.string s) => .ok { o with indexName? := some s }
  | some .target, .value (.string s) => .ok { o with target? := some s }
  | some .features, _ =>
    (switches key node).map fun on => { o with features := on.foldl .put o.features }
  | some .warnings, _ =>
    (switches key node).map fun on => { o with warnings := on.foldl .put o.warnings }
  | some _, _ => .error (.mismatch [key])

/-- The overrides of a settings file. A value of the wrong type is found before an unknown key. -/
def parse (t : Text) : Except SettingsError Overrides := do
  let d ← (Toml.Document.parse t).mapError .toml
  let o ← (d.root.foldlM take {}).mapError .toml
  match d.keys.find? fun path => !isKnown d path with
  | some path => .error (.unknownKey path)
  | none => .ok o

end Overrides

namespace Settings

/-- Settings that are being overridden; those made before an error stay. -/
abbrev Update := EStateM SettingsError Settings

/-- Applies overrides, and returns the target that the file names. Only the order within the tables
is left open. -/
def override (order : Overrides.Order) (o : Overrides) : Update Text := do
  if let some n := o.wordSize? then
    unless n = 1 ∨ n = 2 do throw (.badWordSize n)
    modify fun s => { s with wordSize := n }
  if let some n := o.maxParams? then
    if n < 0 then throw .negativeMaxParams
    modify fun s => { s with maxParams := n }
  if let some n := o.codeBase? then modify fun s => { s with codeBase := n }
  if let some n := o.dataBase? then modify fun s => { s with dataBase := n }
  if let some name := o.indexName? then
    modify fun s => { s with indexName := String.ofList (name.toList.map lowerChar) }
  for (name, on) in order.features o.features.entries do
    match Feature.ofName? name with
    | some f => modify fun s => s.setFeature f on
    | none => throw (.unknownFeature name)
  for (name, on) in order.warnings o.warnings.entries do
    match Warning.ofName? name with
    | some w => modify fun s => s.setWarning w on
    | none => throw (.unknownWarning name)
  return Text.ofString (o.target?.getD "")

def load (t : Text) (order : Overrides.Order := .written) : Update Text :=
  match Overrides.parse t with
  | .ok o => override order o
  | .error e => throw e

end Settings

end HighAsm
