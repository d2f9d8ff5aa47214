import Artwork.Geometry.Segment
import Artwork.Operator

/-!
# Paths under construction

The segments of a path are on the canvas already, whatever happens to the graphics state later.
Beside them the path keeps its current point and the start of its current subpath, to which a close
returns.
-/

namespace Artwork

/-- One step of construction, in user space. -/
inductive PathStep (α : Type)
  | moveTo (p : Point α)
  | lineTo (p : Point α)
  | curveTo (c₁ c₂ p : Point α)
  /-- The first control point is the current point. -/
  | curveFromCurrent (c₂ p : Point α)
  /-- The second control point is the end. -/
  | curveToEnd (c₁ p : Point α)
  | close
  | rectangle (p : Point α) (w h : α)
deriving DecidableEq

namespace PathVerb

variable {α : Type}

/-- The step that a word and its coordinates make; none when there are not just as many as the word
takes. -/
def step? : PathVerb → List α → Option (PathStep α)
  | moveTo, [x, y] => some (.moveTo ⟨x, y⟩)
  | lineTo, [x, y] => some (.lineTo ⟨x, y⟩)
  | curveTo, [x₁, y₁, x₂, y₂, x₃, y₃] => some (.curveTo ⟨x₁, y₁⟩ ⟨x₂, y₂⟩ ⟨x₃, y₃⟩)
  | curveFromCurrent, [x₂, y₂, x₃, y₃] => some (.curveFromCurrent ⟨x₂, y₂⟩ ⟨x₃, y₃⟩)
  | curveToEnd, [x₁, y₁, x₃, y₃] => some (.curveToEnd ⟨x₁, y₁⟩ ⟨x₃, y₃⟩)
  | closePath, [] => some .close
  | rectangle, [x, y, w, h] => some (.rectangle ⟨x, y⟩ w h)
  | _, _ => none

end PathVerb

structure Path (α : Type) where
  /-- The segments, newest first. -/
  trail : List (Segment α)
  current : Option (Point α)
  /-- The start of the current subpath. -/
  start : Option (Point α)
deriving DecidableEq

namespace Path

variable {α : Type}

/-- The segments in the order of construction. -/
def segments (q : Path α) : List (Segment α) := q.trail.reverse

def empty : Path α := ⟨[], none, none⟩

/-- Begins a subpath at a point of the canvas. -/
def moveTo (q : Path α) (p : Point α) : Path α := ⟨.moveTo p :: q.trail, some p, some p⟩

def lineTo (q : Path α) (p : Point α) : Path α :=
  { q with trail := .lineTo p :: q.trail, current := some p }

def curveTo (q : Path α) (c₁ c₂ p : Point α) : Path α :=
  { q with trail := .curveTo c₁ c₂ p :: q.trail, current := some p }

def close (q : Path α) : Path α := { q with trail := .close :: q.trail, current := q.start }

@[simp]
theorem segments_empty : (empty : Path α).segments = [] := rfl

@[simp]
theorem segments_moveTo (q : Path α) (p : Point α) :
    (q.moveTo p).segments = q.segments ++ [.moveTo p] := by
  simp [segments, moveTo]

@[simp]
theorem segments_lineTo (q : Path α) (p : Point α) :
    (q.lineTo p).segments = q.segments ++ [.lineTo p] := by
  simp [segments, lineTo]

@[simp]
theorem segments_curveTo (q : Path α) (c₁ c₂ p : Point α) :
    (q.curveTo c₁ c₂ p).segments = q.segments ++ [.curveTo c₁ c₂ p] := by
  simp [segments, curveTo]

@[simp]
theorem segments_close (q : Path α) : q.close.segments = q.segments ++ [.close] := by
  simp [segments, close]

/-- Closes the path unless there is nothing to close. -/
def closeIfOpen (q : Path α) : Path α := if q.trail.isEmpty then q else q.close

variable [Scalar α]

/-- Adds a step; `place` maps user space to the canvas.  Where there is no current point, a curve
starts out from the origin of user space. -/
def add (place : Point α → Point α) (q : Path α) : PathStep α → Path α
  | .moveTo p => q.moveTo (place p)
  | .lineTo p => q.lineTo (place p)
  | .curveTo c₁ c₂ p => q.curveTo (place c₁) (place c₂) (place p)
  | .curveFromCurrent c₂ p => q.curveTo (q.current.getD (place .origin)) (place c₂) (place p)
  | .curveToEnd c₁ p => q.curveTo (place c₁) (place p) (place p)
  | .close => q.close
  | .rectangle p w h =>
    ((((q.moveTo (place p)).lineTo (place ⟨p.x + w, p.y⟩)).lineTo
      (place ⟨p.x + w, p.y + h⟩)).lineTo (place ⟨p.x, p.y + h⟩)).close

end Path
end Artwork
