import Artwork.Geometry.Segment

/-!
# Boxes

An axis-aligned box is given by its top left corner and its size.  `Box.ofSegments?` is the tight
box around every point of a path, never thinner than `Box.minSide`.
-/

namespace Artwork

structure Box (α : Type) where
  x : α
  y : α
  w : α
  h : α
deriving DecidableEq, Repr

namespace Box

variable {α : Type} [Scalar α]

/-- The least width and height of a painted path's box, in millimetres. -/
def minSide : α := 0.5

def right (b : Box α) : α := b.x + b.w

def bottom (b : Box α) : α := b.y + b.h

/-- The corner opposite to the origin. -/
def corner (b : Box α) : Point α := ⟨b.right, b.bottom⟩

/-- Widens a side that is too thin, or that is no number, and keeps the origin. -/
def widened (b : Box α) : Box α :=
  { b with w := Scalar.greatest b.w minSide, h := Scalar.greatest b.h minSide }

/-- The box around some points; none when they have no horizontal or no vertical extent. -/
def ofPoints? (ps : List (Point α)) : Option (Box α) := do
  let x₀ ← Scalar.lowest? (ps.map Point.x)
  let x₁ ← Scalar.highest? (ps.map Point.x)
  let y₀ ← Scalar.lowest? (ps.map Point.y)
  let y₁ ← Scalar.highest? (ps.map Point.y)
  return ⟨x₀, y₀, x₁ - x₀, y₁ - y₀⟩

def ofSegments? (path : List (Segment α)) : Option (Box α) :=
  (ofPoints? (path.flatMap Segment.points)).map widened

/-- The smallest box around two. -/
def union (b c : Box α) : Box α :=
  let x := Scalar.least b.x c.x
  let y := Scalar.least b.y c.y
  ⟨x, y, Scalar.greatest b.right c.right - x, Scalar.greatest b.bottom c.bottom - y⟩

/-- Whether `b`, grown by `gap` on all sides, touches `c`. -/
def isNear (b c : Box α) (gap : α) : Bool :=
  decide (b.x - gap ≤ c.right ∧ c.x ≤ b.right + gap ∧
    b.y - gap ≤ c.bottom ∧ c.y ≤ b.bottom + gap)

/-- Whether a point lies in the box, up to some slack. -/
def containsPoint (b : Box α) (p : Point α) (slack : α) : Bool :=
  decide (b.x - slack ≤ p.x ∧ p.x ≤ b.right + slack ∧
    b.y - slack ≤ p.y ∧ p.y ≤ b.bottom + slack)

/-- Whether a box lies in the box, up to some slack. -/
def contains (b c : Box α) (slack : α) : Bool :=
  b.containsPoint ⟨c.x, c.y⟩ slack && b.containsPoint c.corner slack

end Box
end Artwork
