import Artwork.Geometry.Matrix

/-!
# Path segments

The pieces of a path, in canvas millimetres.
-/

namespace Artwork

inductive Segment (α : Type)
  | moveTo (p : Point α)
  | lineTo (p : Point α)
  /-- A cubic curve with two control points. -/
  | curveTo (c₁ c₂ p : Point α)
  | close
deriving DecidableEq, Repr

namespace Segment

variable {α : Type}

/-- Every point the segment names, control points included. -/
def points : Segment α → List (Point α)
  | moveTo p | lineTo p => [p]
  | curveTo c₁ c₂ p => [c₁, c₂, p]
  | close => []

/-- The letter of the segment's kind in data files. -/
def letter : Segment α → String
  | moveTo _ => "M"
  | lineTo _ => "L"
  | curveTo .. => "C"
  | close => "Z"

def coordinates (s : Segment α) : List α := s.points.flatMap fun p => [p.x, p.y]

/-- The segment with a letter and exactly the coordinates that its kind takes. -/
def ofLetter? (letter : String) (coordinates : List α) : Option (Segment α) :=
  match letter, coordinates with
  | "M", [x, y] => some (moveTo ⟨x, y⟩)
  | "L", [x, y] => some (lineTo ⟨x, y⟩)
  | "C", [x₁, y₁, x₂, y₂, x₃, y₃] => some (curveTo ⟨x₁, y₁⟩ ⟨x₂, y₂⟩ ⟨x₃, y₃⟩)
  | "Z", [] => some close
  | _, _ => none

theorem ofLetter?_letter (s : Segment α) : ofLetter? s.letter s.coordinates = some s := by
  cases s <;> rfl

end Segment
end Artwork
