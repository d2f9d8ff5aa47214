import Artwork.Color
import Artwork.Geometry.Matrix
import Artwork.Operator

/-!
# Graphics state

The parameters that affect how a path is painted.
-/

namespace Artwork

structure GraphicsState (α : Type) where
  /-- The current transformation matrix, from user space to page points. -/
  ctm : Matrix α
  fill : Option (Color α)
  stroke : Option (Color α)
  /-- In points. -/
  lineWidth : α
deriving DecidableEq

namespace ColorSpace

variable {α : Type} [Scalar α]

/-- The colour that exactly the wanted count of numbers gives. -/
def color? : ColorSpace → List α → Option (Color α)
  | rgb, [r, g, b] => some (.ofRgb r g b)
  | gray, [g] => some (.ofGray g)
  | cmyk, [c, m, y, k] => some (.ofCmyk c m y k)
  | _, _ => none

end ColorSpace

namespace GraphicsState

variable {α : Type} [Scalar α]

/-- A fresh state: nothing transformed, all painted black, lines one point wide. -/
def initial : GraphicsState α := ⟨.identity, some .black, some .black, 1.0⟩

/-- A colour that is not set paints black. -/
def fillColor (s : GraphicsState α) : Color α := s.fill.getD .black

/-- A colour that is not set paints black. -/
def strokeColor (s : GraphicsState α) : Color α := s.stroke.getD .black

/-- The state in which what goes through `m` goes on through the present matrix. -/
def transform (s : GraphicsState α) (m : Matrix α) : GraphicsState α :=
  { s with ctm := m.followedBy s.ctm }

def setColor (s : GraphicsState α) (ink : Ink) (c : Color α) : GraphicsState α :=
  match ink with
  | .stroke => { s with stroke := some c }
  | .fill => { s with fill := some c }

end GraphicsState
end Artwork
