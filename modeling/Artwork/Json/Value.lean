/-!
# JSON values

JSON values over a number type, and the three ways in which reading one can fail.
-/

namespace Artwork

/-- Why a text is not what a reader wants. -/
inductive Fault
  /-- The text ends inside a value. -/
  | cut
  /-- The text is not JSON, or goes on where the value is complete. -/
  | malformed
  /-- The text is JSON so far, and not a value of the wanted shape. -/
  | mismatch
deriving DecidableEq, Repr

/-- A JSON value.  The members of an object keep their order, and a key may come twice. -/
inductive Json (α : Type)
  | null
  | bool (b : Bool)
  | number (x : α)
  | string (s : String)
  | array (items : List (Json α))
  | object (members : List (String × Json α))

instance {α : Type} : Inhabited (Json α) := ⟨.null⟩

end Artwork
