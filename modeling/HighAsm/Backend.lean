import HighAsm.Listing
import HighAsm.Lowering

/-!
# Forms of output

A program is printed as a listing or in the intermediate language. Both may turn out impossible,
for a reason that can be told or because the program breaks a rule of the format.
-/

namespace HighAsm

inductive Backend
  | listing | il
  deriving DecidableEq, Repr

namespace Backend

/-- The form of a name; the listing is used when no name is given. -/
def ofName? (name : Text) : Option Backend :=
  if name.isEmpty || name == Text.ofString "listing" then some listing
  else if name == Text.ofString "qbe" then some il
  else none

def unsupported (name : Text) : Text := Text.join ["unsupported backend '", name, "'"]

def render (p : Program) : Backend → Except LoweringError Text
  | listing => (Listing.render p).mapError .crash
  | il => (Lowering.program p).map IL.Module.render

end Backend

end HighAsm
