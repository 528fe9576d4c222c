import Mathlib.Data.List.Nodup
import HighAsm.Settings.File
import HighAsm.Proofs.Success
import HighAsm.Proofs.SwitchOrder

/-!
# What a rejected settings file leaves behind

A file that cannot be read, holds a value of the wrong type or an unknown key, or asks for words of
a size that there is not, changes nothing. The other rejections come when some overrides are made:
a negative number of parameters is found behind the size of a word, an unknown feature behind all
values and the features before it, an unknown warning behind all values, all features and the
warnings before it (`Settings.Leaves`). Switches come in any order, so those before an unknown name
may be any others whose names are known.
-/

namespace HighAsm

open List

namespace Overrides

def SizeFits (o : Overrides) : Prop := ∀ n, o.wordSize? = some n → n = 1 ∨ n = 2

def ParamsFit (o : Overrides) : Prop := ∀ n, o.maxParams? = some n → 0 ≤ n

end Overrides

namespace Settings

/-- The settings with the size of a word that a file holds. -/
def withSize (s : Settings) (o : Overrides) : Settings :=
  { s with wordSize := o.wordSize?.getD s.wordSize }

/-- The settings with everything that a file holds but its switches. -/
def withValues (s : Settings) (o : Overrides) : Settings :=
  { s.withSize o with
    maxParams := o.maxParams?.getD s.maxParams
    codeBase := o.codeBase?.getD s.codeBase
    dataBase := o.dataBase?.getD s.dataBase
    indexName := (o.indexName?.map fun name => String.ofList (name.toList.map lowerChar)).getD
      s.indexName }

section Tables

variable {κ : Type} (ofName? : Text → Option κ) (set : Settings → κ → Bool → Settings)
  (unknown : String → SettingsError)

/-- The settings with the switches of some entries. -/
def withTable (s : Settings) (entries : List (String × Bool)) : Settings :=
  entries.foldl (fun s entry => (ofName? entry.1).elim s fun k => set s k entry.2) s

/-- Where a table of switches may break off: at an unknown name that some others come before. -/
structure BreaksAt (table : SwitchTable) (before : List (String × Bool)) (name : String) :
    Prop where
  listed : ∃ on after, table.entries.Perm (before ++ (name, on) :: after)
  known : ∀ e ∈ before, (ofName? e.1).isSome
  missing : ofName? name = none

variable {ofName? set unknown}

end Tables

/-- The errors that overrides can be rejected with, and the settings that each of them leaves. -/
inductive Leaves (o : Overrides) (s : Settings) : SettingsError → Settings → Prop
  | badWordSize {n : Int} (size : o.wordSize? = some n) (bad : ¬ (n = 1 ∨ n = 2)) :
      Leaves o s (.badWordSize n) s
  | negativeMaxParams {n : Int} (size : o.SizeFits) (params : o.maxParams? = some n)
      (negative : n < 0) : Leaves o s .negativeMaxParams (s.withSize o)
  | unknownFeature {before : List (String × Bool)} {name : String} (size : o.SizeFits)
      (params : o.ParamsFit) (breaks : BreaksAt Feature.ofName? o.features before name) :
      Leaves o s (.unknownFeature name)
        ((s.withValues o).withTable Feature.ofName? setFeature before)
  | unknownWarning {before : List (String × Bool)} {name : String} (size : o.SizeFits)
      (params : o.ParamsFit) (features : ∀ e ∈ o.features.entries, (Feature.ofName? e.1).isSome)
      (breaks : BreaksAt Warning.ofName? o.warnings before name) :
      Leaves o s (.unknownWarning name)
        (((s.withValues o).withTable Feature.ofName? setFeature o.features.entries).withTable
          Warning.ofName? setWarning before)

variable {order : Overrides.Order} {o : Overrides} {s s' : Settings} {e : SettingsError}

end Settings

end HighAsm
