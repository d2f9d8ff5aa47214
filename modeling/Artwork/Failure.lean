import Artwork.Decimal.Notation
import Artwork.Json.Value

/-!
# Failures

Why an import fails.

Only the page's source can fail, and the caller can cancel; whatever is wrong inside the listings is
passed over while the page is drawn.
-/

namespace Artwork

inductive Failure (α : Type)
  | page (reason : String)
  | operatorList (reason : String)
  | textContent (reason : String)
  /-- A page size, in millimetres, that is not finite and positive. -/
  | invalidSize (width height : α)
  | cancelled
  | io (reason : String)
  /-- The text of a page document that cannot be read. -/
  | document (fault : Fault)
deriving DecidableEq

namespace Failure

variable {α : Type}

/-- Whether the source could not supply the page. -/
def isSourceFailure : Failure α → Bool
  | cancelled => false
  | _ => true

/-- What is reported of a failure.  Behind `malformed page document` a colon and the reader's own
reason follow in print, with the line and column at which it stopped.  A fault keeps neither, so the
message ends in front of them. -/
def message [Written α] : Failure α → String
  | page reason => "page unavailable: " ++ reason
  | operatorList reason => "operator list unavailable: " ++ reason
  | textContent reason => "text content unavailable: " ++ reason
  | invalidSize w h =>
    String.join ["invalid page geometry: ", Written.plain w, " x ", Written.plain h]
  | cancelled => "import cancelled"
  | io reason => "io error: " ++ reason
  | document _ => "malformed page document"

end Failure
end Artwork
