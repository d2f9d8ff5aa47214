import Artwork.Geometry.Box
import Artwork.Machine

/-!
# Shapes

A shape is one painted path, or several that have been merged.  A collector is the device that keeps
the shape of every painted path.
-/

namespace Artwork

structure Shape (α : Type) where
  segments : List (Segment α)
  fill : Option (Color α)
  stroke : Option (Color α)
  /-- In millimetres. -/
  strokeWidth : α
  box : Box α
deriving DecidableEq

namespace Shape

variable {α : Type} [Scalar α]

/-- The shape of a painted path; none for a path without a box, such as one of closes only. -/
def ofPaint? (s : GraphicsState α) (style : PaintStyle) (path : List (Segment α)) :
    Option (Shape α) :=
  (Box.ofSegments? path).map fun box =>
    { segments := path
      fill := if style.fill then some s.fillColor else none
      stroke := if style.stroke then some s.strokeColor else none
      strokeWidth := millimetres s.lineWidth
      box }

end Shape

structure Collector (α : Type) where
  /-- The shapes painted so far, newest first. -/
  trail : List (Shape α)
deriving DecidableEq

namespace Collector

variable {α : Type}

def empty : Collector α := ⟨[]⟩

def shapes (c : Collector α) : List (Shape α) := c.trail.reverse

instance [Scalar α] : PaintDevice α (Collector α) where
  paint c s style path := ⟨(Shape.ofPaint? s style path).toList ++ c.trail⟩

@[simp]
theorem shapes_paint [Scalar α] (c : Collector α) (s : GraphicsState α) (style : PaintStyle)
    (path : List (Segment α)) :
    (PaintDevice.paint c s style path).shapes =
      c.shapes ++ (Shape.ofPaint? s style path).toList := by
  cases h : Shape.ofPaint? s style path <;> simp [shapes, PaintDevice.paint, h]

end Collector

end Artwork
