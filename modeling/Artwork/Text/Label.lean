import Artwork.Scalar
import Artwork.Text.Genuine
import Artwork.Text.Run

/-!
# Labels

The genuine runs of a page's text listing become labels, placed in millimetres.
-/

namespace Artwork

structure Label (α : Type) where
  text : String
  x : α
  y : α
  /-- In canvas font units, which are points. -/
  fontSize : α
  width : α
  height : α
deriving DecidableEq

namespace Label

variable {α : Type} [Scalar α]

/-- Millimetres per font unit. -/
def fontUnit : α := 0.3528

/-- The height of a line in font sizes. -/
def lineHeight : α := 1.3

/-- The least width of a label, in millimetres. -/
def minWidth : α := 10.0

/-- The least height of a label, in millimetres. -/
def minHeight : α := 3.0

/-- Places a run on a page of the given height.  The size of its font is read off the horizontal
scale of its matrix. -/
def ofRun (run : TextRun α) (pageHeight : α) : Label α :=
  let corner := Point.onCanvas ⟨run.transform.e, run.transform.f⟩ pageHeight
  let size := millimetres (Scalar.magnitude run.transform.a) / fontUnit
  { text := run.text
    x := corner.x
    y := corner.y
    fontSize := Scalar.greatest (Scalar.round size) 1.0
    width := Scalar.greatest (millimetres run.width) minWidth
    height := Scalar.greatest (size * fontUnit * lineHeight) minHeight }

/-- The labels of the genuine runs, in order. -/
def ofRuns (runs : List (TextRun α)) (pageHeight : α) : List (Label α) :=
  (runs.filter fun r => Text.isGenuine r.text).map (ofRun · pageHeight)

end Label
end Artwork
