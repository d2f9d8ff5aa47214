import Artwork.Proofs.Double.Extremes
import Artwork.Geometry.Box

/-!
# How far a path reaches

In doubles the points of a path can be infinite or undefined.  The box of a path is what one pass
over its points finds that starts from the infinities (`ofSegments?_eq_box?`), and the path has none
just when one of the two directions has no number at all.  Its origin is made of the least numbers
and its sides lead to the greatest ones, so that neither the order of the segments nor a close
matters (`ofSegments?_extremes`).
-/

namespace Artwork

open Double

/-! ## One pass over the points -/

/-- The least and the greatest coordinates met so far. -/
structure Reach where
  low : Point Float
  high : Point Float

namespace Reach

/-- Before a point is met, the ends lie the wrong way round. -/
def start : Reach := ⟨⟨Float.inf, Float.inf⟩, ⟨-Float.inf, -Float.inf⟩⟩

def meet (r : Reach) (p : Point Float) : Reach where
  low := ⟨Scalar.least r.low.x p.x, Scalar.least r.low.y p.y⟩
  high := ⟨Scalar.greatest r.high.x p.x, Scalar.greatest r.high.y p.y⟩

/-- The box between the ends, unless they lie the wrong way round in one of the directions. -/
def box? (r : Reach) : Option (Box Float) :=
  if r.high.x < r.low.x ∨ r.high.y < r.low.y then none
  else some (Box.mk r.low.x r.low.y (r.high.x - r.low.x) (r.high.y - r.low.y)).widened

theorem foldl_meet (r : Reach) (ps : List (Point Float)) :
    ps.foldl meet r =
      { low := ⟨(ps.map Point.x).foldl Scalar.least r.low.x,
          (ps.map Point.y).foldl Scalar.least r.low.y⟩
        high := ⟨(ps.map Point.x).foldl Scalar.greatest r.high.x,
          (ps.map Point.y).foldl Scalar.greatest r.high.y⟩ } := by
  induction ps generalizing r with
  | nil => rfl
  | cons p rest ih => rw [List.foldl_cons, ih]; rfl

theorem box?_foldl_meet (ps : List (Point Float)) :
    (ps.foldl meet start).box? = (Box.ofPoints? ps).map Box.widened := by
  have hstart : -Float.inf < Float.inf := by decide
  rw [foldl_meet, start, foldl_least_inf, foldl_least_inf, foldl_greatest_neg_inf,
    foldl_greatest_neg_inf]
  unfold box? Box.ofPoints?
  rcases ends (ps.map Point.x) with ⟨hlow, hhigh, -⟩ | ⟨x₀, x₁, hx₀, hx₁, hlow, hhigh⟩
  · rw [hlow, hhigh]
    exact if_pos (.inl hstart)
  · rcases ends (ps.map Point.y) with ⟨hlow', hhigh', -⟩ | ⟨y₀, y₁, hy₀, hy₁, hlow', hhigh'⟩
    · rw [hx₀, hx₁, hlow', hhigh']
      exact if_pos (.inr hstart)
    · have hx : x₀ ≤ x₁ := hlow.rel x₁ hhigh.mem hhigh.ne_nan
      have hy : y₀ ≤ y₁ := hlow'.rel y₁ hhigh'.mem hhigh'.ne_nan
      rw [hx₀, hx₁, hy₀, hy₁]
      exact if_neg (not_or_intro (not_lt_of_le hx) (not_lt_of_le hy))

end Reach

/-! ## The box of a path -/

/-- An origin and a side around the numbers of a list: the origin is the least of them, and the side
is the difference to the greatest one, raised to 0.5 when it is smaller or no number. -/
def Spans (xs : List Float) (origin side : Float) : Prop :=
  IsExtreme (· ≤ ·) xs origin ∧ ∃ far, IsExtreme (· ≥ ·) xs far ∧
    side = if far - origin < 0.5 ∨ far - origin = Float.nan then 0.5 else far - origin

theorem greatest_half (s : Float) :
    Scalar.greatest s 0.5 = if s < 0.5 ∨ s = Float.nan then 0.5 else s :=
  if_congr (or_congr Iff.rfl (le_self_iff.not.trans not_not)) rfl rfl

theorem greatest_half_congr {s t : Float} (h : Same s t) :
    Scalar.greatest s 0.5 = Scalar.greatest t 0.5 := by
  have hzero {z : Float} (hz : IsZero z) : Scalar.greatest z 0.5 = 0.5 := by
    rcases hz with rfl | rfl <;> decide
  rcases h with rfl | ⟨hs, ht⟩
  · rfl
  · rw [hzero hs, hzero ht]

/-- What spans the same numbers has the same side, and the same origin up to the sign of a zero. -/
theorem Spans.same {xs ys : List Float} {origin side origin' side' : Float}
    (h : Spans xs origin side) (h' : Spans ys origin' side') (hmem : ∀ x, x ∈ xs ↔ x ∈ ys) :
    Same origin origin' ∧ side = side' := by
  obtain ⟨hlow, far, hfar, rfl⟩ := h
  obtain ⟨hlow', far', hfar', rfl⟩ := h'
  obtain ⟨p, hp, hp'⟩ := hlow.exists_at hlow' (fun h h' => ⟨h, h'⟩) hmem
  obtain ⟨q, hq, hq'⟩ := hfar.exists_at hfar' (fun h h' => ⟨h', h⟩) hmem
  refine ⟨hp.same hp', ?_⟩
  rw [← greatest_half, ← greatest_half]
  exact greatest_half_congr (hq.same_sub hq' hp hp')

namespace Box

/-- The same box, up to the sign of a zero in its origin. -/
structure Alike (b c : Box Float) : Prop where
  x : Same b.x c.x
  y : Same b.y c.y
  w : b.w = c.w
  h : b.h = c.h

theorem ofSegments?_eq_box? (path : List (Segment Float)) :
    ofSegments? path = ((path.flatMap Segment.points).foldl Reach.meet Reach.start).box? :=
  (Reach.box?_foldl_meet _).symm

/-- Either one direction has no number, or the box spans the numbers of both. -/
theorem ofSegments?_cases (path : List (Segment Float)) :
    (ofSegments? path = none ∧ ((∀ p ∈ path.flatMap Segment.points, p.x = Float.nan) ∨
        ∀ p ∈ path.flatMap Segment.points, p.y = Float.nan)) ∨
      ∃ b, ofSegments? path = some b ∧
        Spans ((path.flatMap Segment.points).map Point.x) b.x b.w ∧
        Spans ((path.flatMap Segment.points).map Point.y) b.y b.h := by
  unfold ofSegments? ofPoints?
  generalize path.flatMap Segment.points = ps
  rcases ends (ps.map Point.x) with ⟨hlow, -, hnan⟩ | ⟨x₀, x₁, hx₀, hx₁, hlow, hhigh⟩
  · rw [hlow]
    exact .inl ⟨rfl, .inl (List.forall_mem_map.mp hnan)⟩
  · rcases ends (ps.map Point.y) with ⟨hlow', -, hnan⟩ | ⟨y₀, y₁, hy₀, hy₁, hlow', hhigh'⟩
    · rw [hx₀, hx₁, hlow']
      exact .inl ⟨rfl, .inr (List.forall_mem_map.mp hnan)⟩
    · rw [hx₀, hx₁, hy₀, hy₁]
      exact .inr ⟨_, rfl, ⟨hlow, x₁, hhigh, greatest_half _⟩, hlow', y₁, hhigh', greatest_half _⟩

variable {path path' : List (Segment Float)}

theorem spans_of_ofSegments? {b : Box Float} (h : ofSegments? path = some b) :
    Spans ((path.flatMap Segment.points).map Point.x) b.x b.w ∧
      Spans ((path.flatMap Segment.points).map Point.y) b.y b.h := by
  rcases ofSegments?_cases path with ⟨hnone, -⟩ | ⟨c, hc, hspans⟩
  · cases hnone.symm.trans h
  · obtain rfl := Option.some_inj.mp (hc.symm.trans h)
    exact hspans

theorem ofSegments?_eq_none_iff :
    ofSegments? path = none ↔ (∀ p ∈ path.flatMap Segment.points, p.x = Float.nan) ∨
      ∀ p ∈ path.flatMap Segment.points, p.y = Float.nan := by
  rcases ofSegments?_cases path with ⟨hnone, hnan⟩ | ⟨b, hb, hx, hy⟩
  · exact iff_of_true hnone hnan
  · refine iff_of_false (by rw [hb]; exact Option.some_ne_none b) ?_
    rintro (hnan | hnan)
    · obtain ⟨p, hp, hpx⟩ := List.mem_map.mp hx.1.mem
      exact hx.1.ne_nan (hpx ▸ hnan p hp)
    · obtain ⟨p, hp, hpy⟩ := List.mem_map.mp hy.1.mem
      exact hy.1.ne_nan (hpy ▸ hnan p hp)

/-- The points alone make the box, in whatever order and however often they are named. -/
theorem alike_of_mem_iff
    (hmem : ∀ p, p ∈ path.flatMap Segment.points ↔ p ∈ path'.flatMap Segment.points) :
    Option.Rel Alike (ofSegments? path) (ofSegments? path') := by
  have hmap (f : Point Float → Float) (x : Float) :
      x ∈ (path.flatMap Segment.points).map f ↔ x ∈ (path'.flatMap Segment.points).map f := by
    simp only [List.mem_map, hmem]
  have hnone : ofSegments? path = none ↔ ofSegments? path' = none := by
    simp only [ofSegments?_eq_none_iff, hmem]
  cases h : ofSegments? path with
  | none =>
    rw [hnone.mp h]
    exact .none
  | some b =>
    obtain ⟨c, hc⟩ : ∃ c, ofSegments? path' = some c :=
      Option.ne_none_iff_exists'.mp (hnone.not.mp (by rw [h]; exact Option.some_ne_none b))
    obtain ⟨hx, hy⟩ := spans_of_ofSegments? h
    obtain ⟨hx', hy'⟩ := spans_of_ofSegments? hc
    obtain ⟨hleft, hw⟩ := hx.same hx' (hmap Point.x)
    obtain ⟨htop, hh⟩ := hy.same hy' (hmap Point.y)
    rw [hc]
    exact .some ⟨hleft, htop, hw, hh⟩

theorem flatMap_points_filter (path : List (Segment Float)) :
    (path.filter (· ≠ .close)).flatMap Segment.points = path.flatMap Segment.points := by
  induction path with
  | nil => rfl
  | cons s rest ih =>
    by_cases hs : s = .close
    · rw [List.filter_cons_of_neg (by simp [hs]), ih, hs]
      rfl
    · rw [List.filter_cons_of_pos (by simp [hs]), List.flatMap_cons, List.flatMap_cons, ih]

/-- The box of a path in doubles.  One pass from the infinities finds it, it is missing when one
direction has no number, its origin and sides come from the least and greatest numbers, and neither
the order of the segments nor the closes among them change it. -/
theorem ofSegments?_extremes :
    (∀ path : List (Segment Float),
      ofSegments? path = ((path.flatMap Segment.points).foldl Reach.meet Reach.start).box? ∧
      (ofSegments? path = none ↔ (∀ p ∈ path.flatMap Segment.points, p.x = Float.nan) ∨
        ∀ p ∈ path.flatMap Segment.points, p.y = Float.nan) ∧
      ∀ b, ofSegments? path = some b →
        Spans ((path.flatMap Segment.points).map Point.x) b.x b.w ∧
          Spans ((path.flatMap Segment.points).map Point.y) b.y b.h) ∧
      (∀ n, ofSegments? (List.replicate n (.close : Segment Float)) = none) ∧
      ∀ path path' : List (Segment Float),
        (path.filter (· ≠ .close)).Perm (path'.filter (· ≠ .close)) →
          Option.Rel Alike (ofSegments? path) (ofSegments? path') := by
  refine ⟨fun path => ⟨ofSegments?_eq_box? path, ofSegments?_eq_none_iff,
    fun b => spans_of_ofSegments?⟩, fun n => ?_, fun path path' hperm => ?_⟩
  · refine ofSegments?_eq_none_iff.mpr (.inl fun p hp => ?_)
    obtain ⟨s, hs, hps⟩ := List.mem_flatMap.mp hp
    rw [List.eq_of_mem_replicate hs] at hps
    cases hps
  · have hpoints := hperm.flatMap_right Segment.points
    rw [flatMap_points_filter, flatMap_points_filter] at hpoints
    exact alike_of_mem_iff fun p => hpoints.mem_iff

/-- A path with an undefined and an infinite coordinate, and the same segments backwards: the least
`y` is a zero of either sign. -/
theorem ofSegments?_extremes_overflowed :
    let path : List (Segment Float) := [.moveTo ⟨Float.nan, 3⟩, .lineTo ⟨2, 0⟩, .close,
      .curveTo ⟨5, -0.0⟩ ⟨Float.inf, Float.nan⟩ ⟨4, 1⟩]
    let path' : List (Segment Float) := [.close,
      .curveTo ⟨5, -0.0⟩ ⟨Float.inf, Float.nan⟩ ⟨4, 1⟩, .lineTo ⟨2, 0⟩, .moveTo ⟨Float.nan, 3⟩]
    ofSegments? path = some ⟨2, 0, Float.inf, 3⟩ ∧
      ofSegments? path' = some ⟨2, -0.0, Float.inf, 3⟩ ∧
      (Spans [Float.nan, 2, 5, Float.inf, 4] 2 Float.inf ∧ Spans [3, 0, -0.0, Float.nan, 1] 0 3) ∧
      (path.filter (· ≠ .close)).Perm (path'.filter (· ≠ .close)) ∧
      Option.Rel Alike (ofSegments? path) (ofSegments? path') := by
  intro path path'
  have hbox : ofSegments? path = some ⟨2, 0, Float.inf, 3⟩ := by decide +kernel
  have hbox' : ofSegments? path' = some ⟨2, -0.0, Float.inf, 3⟩ := by decide +kernel
  have hperm : (path.filter (· ≠ .close)).Perm (path'.filter (· ≠ .close)) := by decide +kernel
  obtain ⟨hall, -, halike⟩ := ofSegments?_extremes
  exact ⟨hbox, hbox', (hall path).2.2 _ hbox, hperm, halike path path' hperm⟩

end Box

end Artwork
