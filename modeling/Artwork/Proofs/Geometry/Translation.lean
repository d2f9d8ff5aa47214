import Mathlib.Tactic.Ring
import Artwork.Proofs.Geometry.Hull

/-!
# Moved boxes

What boxes are made of, joined to and compared with moves along when everything is moved by one
vector of the canvas: the edges of a box move, its sides stay.
-/

namespace Artwork

namespace Scalar

theorem least_add (a b c : Rat) : least (a + c) (b + c) = least a b + c := by
  rw [least_exact, least_exact, min_add_add_right]

theorem greatest_add (a b c : Rat) : greatest (a + c) (b + c) = greatest a b + c := by
  rw [greatest_exact, greatest_exact, max_add_add_right]

theorem lowest?_map_add (xs : List Rat) (c : Rat) :
    lowest? (xs.map (· + c)) = (lowest? xs).map (· + c) := by
  unfold lowest?
  rw [filter_isNumber_exact, filter_isNumber_exact]
  cases xs with
  | nil => rfl
  | cons x rest =>
    refine congrArg some ?_
    rw [List.foldl_map]
    exact List.foldl_hom (· + c) fun a b => least_add a b c

theorem highest?_map_add (xs : List Rat) (c : Rat) :
    highest? (xs.map (· + c)) = (highest? xs).map (· + c) := by
  unfold highest?
  rw [filter_isNumber_exact, filter_isNumber_exact]
  cases xs with
  | nil => rfl
  | cons x rest =>
    refine congrArg some ?_
    rw [List.foldl_map]
    exact List.foldl_hom (· + c) fun a b => greatest_add a b c

end Scalar

namespace Point

/-- The point moved by a vector. -/
def shift (p v : Point Rat) : Point Rat := ⟨p.x + v.x, p.y + v.y⟩

end Point

namespace Segment

/-- The segment with all its points moved by a vector. -/
def shift (s : Segment Rat) (v : Point Rat) : Segment Rat :=
  match s with
  | moveTo p => moveTo (p.shift v)
  | lineTo p => lineTo (p.shift v)
  | curveTo c₁ c₂ p => curveTo (c₁.shift v) (c₂.shift v) (p.shift v)
  | close => close

theorem points_shift (s : Segment Rat) (v : Point Rat) :
    (s.shift v).points = s.points.map (·.shift v) := by
  cases s <;> rfl

end Segment

namespace Box

/-- The box at another place, with the same sides. -/
def shift (b : Box Rat) (v : Point Rat) : Box Rat := { b with x := b.x + v.x, y := b.y + v.y }

variable (b c : Box Rat) (v : Point Rat)

theorem right_shift : (b.shift v).right = b.right + v.x := add_right_comm b.x v.x b.w

theorem bottom_shift : (b.shift v).bottom = b.bottom + v.y := add_right_comm b.y v.y b.h

theorem ofPoints?_shift (ps : List (Point Rat)) :
    ofPoints? (ps.map (·.shift v)) = (ofPoints? ps).map (·.shift v) := by
  have hx : (ps.map (·.shift v)).map Point.x = (ps.map Point.x).map (· + v.x) := by
    rw [List.map_map, List.map_map]
    rfl
  have hy : (ps.map (·.shift v)).map Point.y = (ps.map Point.y).map (· + v.y) := by
    rw [List.map_map, List.map_map]
    rfl
  unfold ofPoints?
  rw [hx, hy, Scalar.lowest?_map_add, Scalar.highest?_map_add, Scalar.lowest?_map_add,
    Scalar.highest?_map_add]
  cases Scalar.lowest? (ps.map Point.x) with
  | none => rfl
  | some x₀ =>
  cases Scalar.highest? (ps.map Point.x) with
  | none => rfl
  | some x₁ =>
  cases Scalar.lowest? (ps.map Point.y) with
  | none => rfl
  | some y₀ =>
  cases Scalar.highest? (ps.map Point.y) with
  | none => rfl
  | some y₁ =>
    show some (Box.mk (x₀ + v.x) (y₀ + v.y) (x₁ + v.x - (x₀ + v.x)) (y₁ + v.y - (y₀ + v.y))) =
      some ⟨x₀ + v.x, y₀ + v.y, x₁ - x₀, y₁ - y₀⟩
    rw [add_sub_add_right_eq_sub, add_sub_add_right_eq_sub]

theorem ofSegments?_shift (path : List (Segment Rat)) :
    ofSegments? (path.map (·.shift v)) = (ofSegments? path).map (·.shift v) := by
  have hpoints : (path.map (·.shift v)).flatMap Segment.points =
      (path.flatMap Segment.points).map (·.shift v) := by
    rw [List.flatMap_map, List.map_flatMap]
    exact congrArg path.flatMap (funext fun s => s.points_shift v)
  rw [ofSegments?, ofSegments?, hpoints, ofPoints?_shift, Option.map_map, Option.map_map]
  rfl

theorem union_shift : (b.shift v).union (c.shift v) = (b.union c).shift v := by
  unfold union
  rw [right_shift, right_shift, bottom_shift, bottom_shift, Scalar.greatest_add,
    Scalar.greatest_add]
  show Box.mk (Scalar.least (b.x + v.x) (c.x + v.x)) (Scalar.least (b.y + v.y) (c.y + v.y))
    (Scalar.greatest b.right c.right + v.x - Scalar.least (b.x + v.x) (c.x + v.x))
    (Scalar.greatest b.bottom c.bottom + v.y - Scalar.least (b.y + v.y) (c.y + v.y)) = _
  rw [Scalar.least_add, Scalar.least_add, add_sub_add_right_eq_sub, add_sub_add_right_eq_sub]
  rfl

theorem isNear_shift (gap : Rat) : (b.shift v).isNear (c.shift v) gap = b.isNear c gap := by
  unfold isNear
  rw [right_shift, right_shift, bottom_shift, bottom_shift]
  refine decide_eq_decide.mpr ?_
  show (b.x + v.x - gap ≤ c.right + v.x ∧ c.x + v.x ≤ b.right + v.x + gap ∧
    b.y + v.y - gap ≤ c.bottom + v.y ∧ c.y + v.y ≤ b.bottom + v.y + gap) ↔ _
  rw [add_sub_right_comm, add_sub_right_comm, add_right_comm, add_right_comm b.bottom,
    add_le_add_iff_right, add_le_add_iff_right, add_le_add_iff_right, add_le_add_iff_right]

end Box
end Artwork
