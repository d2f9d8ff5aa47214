import Artwork.Failure
import Artwork.Operand
import Artwork.Text.Run

/-!
# Pages and sources

Pages and where they come from.

A source supplies the size of a page, its operator list and its text listing, or fails to.  A page
document is a source that holds all three.
-/

namespace Artwork

/-- The size of a page, in millimetres. -/
structure PageSize (α : Type) where
  width : α
  height : α
deriving DecidableEq

namespace PageSize

variable {α : Type} [Scalar α]

def isUsable (v : α) : Bool := Scalar.isFinite v && decide ((0.0 : α) < v)

/-- A size in millimetres, if it is finite and positive. -/
def ofMillimetres (w h : α) : Except (Failure α) (PageSize α) :=
  if isUsable w && isUsable h then .ok ⟨w, h⟩ else .error (.invalidSize w h)

def ofPoints (w h : α) : Except (Failure α) (PageSize α) :=
  ofMillimetres (millimetres w) (millimetres h)

end PageSize

structure Source (α : Type) where
  size : Except (Failure α) (PageSize α)
  operators : Except (Failure α) (List (Entry α))
  texts : Except (Failure α) (List (TextRun α))

/-- A page written down: its size in points, and its listings unless they are missing. -/
structure PageDocument (α : Type) where
  width : α
  height : α
  operators : Option (List (Entry α))
  texts : Option (List (TextRun α))

namespace PageDocument

variable {α : Type} [Scalar α]

def source (d : PageDocument α) : Source α where
  size := PageSize.ofPoints d.width d.height
  operators :=
    match d.operators with
    | some entries => .ok entries
    | none => .error (.operatorList "page has no operator list")
  texts :=
    match d.texts with
    | some runs => .ok runs
    | none => .error (.textContent "page has no text content")

end PageDocument
end Artwork
