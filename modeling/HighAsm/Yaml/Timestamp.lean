import HighAsm.Calendar

/-!
# Timestamps of YAML

A plain scalar may be a date, alone or with a time of day. Between a `T` and the end stands a time
with a zone; after spaces stands a time without one. Months, days, hours, minutes and seconds have
one digit or two.
-/

namespace HighAsm.Yaml

def isTimestamp (t : Text) : Bool :=
  match Calendar.afterDate? true t with
  | none => false
  | some [] => true
  | some (84 :: rest) | some (116 :: rest) =>
    (Calendar.afterTime? true rest).any Calendar.isZone
  | some (32 :: rest) => Calendar.afterTime? true (rest.dropWhile (· = 32)) == some []
  | some _ => false

end HighAsm.Yaml
