import HighAsm.SymbolTable
import HighAsm.Yaml

/-!
# Module interfaces

What a module publishes for those that are linked with it: the name of the module, and its shared
symbols with their addresses, as a small YAML document.
-/

namespace HighAsm.Interface

def field (indent : Nat) (name : String) (value : Text) : Text :=
  Text.join [name, ": ", Yaml.scalar (Yaml.levelWidth * (indent / Yaml.levelWidth + 1)) value]

/-- One shared symbol. The number of parameters is left out when it is zero. -/
def entry (s : Symbol) : Text :=
  Text.join ["    - ", field 6 "name" s.name, "      ", field 6 "kind" s.kindName,
    "      ", field 6 "address" ("0x" ++ Text.hex 4 s.value),
    if s.params = 0 then [] else Text.join ["      params: ", Text.ofInt s.params, "\n"]]

def render (name : Text) (table : SymbolTable) : Text :=
  field 0 "module" name ++
    match table.shared with
    | [] => "exports: []\n"
    | symbols => "exports:\n" ++ symbols.flatMap entry

end HighAsm.Interface
