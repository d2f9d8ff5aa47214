import Mathlib.Algebra.Order.Field.Rat
import Mathlib.Tactic.Linarith
import Artwork.Geometry.Box
import Artwork.Scalar.Exact

/-!
# Boxes around boxes

On exact coordinates the box of a path holds every point of the path, and the union of boxes is the
smallest box around them: a box encloses a chain of unions just when it encloses all that went in
(`encloses_foldl_union_iff`).
-/

namespace Artwork

namespace Scalar

theorem isNumber_exact (q : Rat) : isNumber q = true := decide_eq_true (le_refl q)

theorem least_exact (a b : Rat) : least a b = min a b := by
  unfold least
  rcases lt_or_ge b a with h | h
  · rw [if_pos (.inl h), min_eq_right h.le]
  · rw [if_neg (by simp [h]), min_eq_left h]

theorem greatest_exact (a b : Rat) : greatest a b = max a b := by
  unfold greatest
  rcases lt_or_ge a b with h | h
  · rw [if_pos (.inl h), max_eq_right h.le]
  · rw [if_neg (by simp [h]), max_eq_left h]

theorem le_greatest_left (a b : Rat) : a ≤ greatest a b := by
  rw [greatest_exact]
  exact le_max_left a b

theorem filter_isNumber_exact (xs : List Rat) : xs.filter isNumber = xs :=
  List.filter_eq_self.mpr fun q _ => isNumber_exact q

theorem lowest?_exact (xs : List Rat) : lowest? xs = xs.min? := by
  have hleast : (least : Rat → Rat → Rat) = min := funext₂ least_exact
  rw [lowest?, filter_isNumber_exact, hleast]
  cases xs <;> rfl

theorem highest?_exact (xs : List Rat) : highest? xs = xs.max? := by
  have hgreatest : (greatest : Rat → Rat → Rat) = max := funext₂ greatest_exact
  rw [highest?, filter_isNumber_exact, hgreatest]
  cases xs <;> rfl

theorem lowest?_le {xs : List Rat} {m x : Rat} (h : lowest? xs = some m) (hx : x ∈ xs) : m ≤ x := by
  rw [lowest?_exact, List.min?_eq_some_iff] at h
  exact h.2 x hx

theorem le_highest? {xs : List Rat} {m x : Rat} (h : highest? xs = some m) (hx : x ∈ xs) :
    x ≤ m := by
  rw [highest?_exact, List.max?_eq_some_iff] at h
  exact h.2 x hx

end Scalar

namespace Box

variable {b c d : Box Rat} {p : Point Rat}

/-! ## Boxes and points -/

theorem containsPoint_exact_iff :
    b.containsPoint p 0 = true ↔
      (b.x ≤ p.x ∧ p.x ≤ b.right) ∧ (b.y ≤ p.y ∧ p.y ≤ b.bottom) := by
  unfold containsPoint
  rw [decide_eq_true_iff, sub_zero, sub_zero, add_zero, add_zero, and_assoc]

theorem containsPoint_widened (h : b.containsPoint p 0 = true) :
    b.widened.containsPoint p 0 = true := by
  rw [containsPoint_exact_iff] at h ⊢
  obtain ⟨⟨hleft, hright⟩, htop, hbottom⟩ := h
  have hw : b.w ≤ b.widened.w := Scalar.le_greatest_left b.w minSide
  have hh : b.h ≤ b.widened.h := Scalar.le_greatest_left b.h minSide
  exact ⟨⟨hleft, hright.trans (add_le_add_right hw b.x)⟩,
    htop, hbottom.trans (add_le_add_right hh b.y)⟩

theorem containsPoint_of_ofPoints? {ps : List (Point Rat)} (h : ofPoints? ps = some b)
    (hp : p ∈ ps) : b.containsPoint p 0 = true := by
  obtain ⟨x₀, hx₀, h⟩ := Option.bind_eq_some_iff.mp h
  obtain ⟨x₁, hx₁, h⟩ := Option.bind_eq_some_iff.mp h
  obtain ⟨y₀, hy₀, h⟩ := Option.bind_eq_some_iff.mp h
  obtain ⟨y₁, hy₁, h⟩ := Option.bind_eq_some_iff.mp h
  cases h
  have hx : p.x ∈ ps.map Point.x := List.mem_map_of_mem hp
  have hy : p.y ∈ ps.map Point.y := List.mem_map_of_mem hp
  rw [containsPoint_exact_iff, right, bottom, add_sub_cancel, add_sub_cancel]
  exact ⟨⟨Scalar.lowest?_le hx₀ hx, Scalar.le_highest? hx₁ hx⟩,
    Scalar.lowest?_le hy₀ hy, Scalar.le_highest? hy₁ hy⟩

/-- The box of a path holds all its points, control points included. -/
theorem containsPoint_of_ofSegments? {path : List (Segment Rat)} (h : ofSegments? path = some b)
    (hp : p ∈ path.flatMap Segment.points) : b.containsPoint p 0 = true := by
  obtain ⟨tight, htight, rfl⟩ := Option.map_eq_some_iff.mp h
  exact containsPoint_widened (containsPoint_of_ofPoints? htight hp)

/-! ## Boxes and boxes -/

/-- No edge of `c` lies outside `b`. -/
structure Encloses (b c : Box Rat) : Prop where
  left : b.x ≤ c.x
  right : c.right ≤ b.right
  top : b.y ≤ c.y
  bottom : c.bottom ≤ b.bottom

/-- Neither side is negative. -/
def Proper (b : Box Rat) : Prop := 0 ≤ b.w ∧ 0 ≤ b.h

theorem Encloses.refl (b : Box Rat) : b.Encloses b := ⟨le_refl _, le_refl _, le_refl _, le_refl _⟩

theorem Encloses.containsPoint (h : b.Encloses c) (hp : c.containsPoint p 0 = true) :
    b.containsPoint p 0 = true := by
  rw [containsPoint_exact_iff] at hp ⊢
  exact ⟨⟨h.left.trans hp.1.1, hp.1.2.trans h.right⟩,
    h.top.trans hp.2.1, hp.2.2.trans h.bottom⟩

theorem Encloses.proper (h : b.Encloses c) (hc : c.Proper) : b.Proper := by
  obtain ⟨hleft, hright, htop, hbottom⟩ := h
  unfold Box.right at hright
  unfold Box.bottom at hbottom
  exact ⟨by linarith [hc.1], by linarith [hc.2]⟩

theorem encloses_of_contains (h : b.contains c 0 = true) : b.Encloses c := by
  rw [contains, Bool.and_eq_true, containsPoint_exact_iff, containsPoint_exact_iff] at h
  obtain ⟨⟨⟨hleft, -⟩, htop, -⟩, ⟨-, hright⟩, -, hbottom⟩ := h
  exact ⟨hleft, hright, htop, hbottom⟩

/-- A box with sides contains its own origin, so that only the edges matter. -/
theorem contains_exact_iff (hc : c.Proper) : b.contains c 0 = true ↔ b.Encloses c := by
  refine ⟨encloses_of_contains, fun h => ?_⟩
  have horigin : c.containsPoint ⟨c.x, c.y⟩ 0 = true :=
    containsPoint_exact_iff.mpr ⟨⟨le_refl _, le_add_of_nonneg_right hc.1⟩,
      le_refl _, le_add_of_nonneg_right hc.2⟩
  have hcorner : c.containsPoint c.corner 0 = true :=
    containsPoint_exact_iff.mpr ⟨⟨le_add_of_nonneg_right hc.1, le_refl _⟩,
      le_add_of_nonneg_right hc.2, le_refl _⟩
  rw [contains, h.containsPoint horigin, h.containsPoint hcorner]
  rfl

theorem right_union (b c : Box Rat) : (b.union c).right = max b.right c.right := by
  rw [← Scalar.greatest_exact]
  exact add_sub_cancel (b.union c).x _

theorem bottom_union (b c : Box Rat) : (b.union c).bottom = max b.bottom c.bottom := by
  rw [← Scalar.greatest_exact]
  exact add_sub_cancel (b.union c).y _

theorem encloses_union_iff : d.Encloses (b.union c) ↔ d.Encloses b ∧ d.Encloses c := by
  have hx : (b.union c).x = min b.x c.x := Scalar.least_exact b.x c.x
  have hy : (b.union c).y = min b.y c.y := Scalar.least_exact b.y c.y
  constructor
  · rintro ⟨hleft, hright, htop, hbottom⟩
    rw [hx, le_min_iff] at hleft
    rw [right_union, max_le_iff] at hright
    rw [hy, le_min_iff] at htop
    rw [bottom_union, max_le_iff] at hbottom
    exact ⟨⟨hleft.1, hright.1, htop.1, hbottom.1⟩, hleft.2, hright.2, htop.2, hbottom.2⟩
  · rintro ⟨hb, hc⟩
    constructor
    · rw [hx]
      exact le_min hb.left hc.left
    · rw [right_union]
      exact max_le hb.right hc.right
    · rw [hy]
      exact le_min hb.top hc.top
    · rw [bottom_union]
      exact max_le hb.bottom hc.bottom

theorem encloses_foldl_union_iff {cs : List (Box Rat)} :
    d.Encloses (cs.foldl union b) ↔ d.Encloses b ∧ ∀ c ∈ cs, d.Encloses c := by
  induction cs generalizing b with
  | nil => simp
  | cons c rest ih => rw [List.foldl_cons, ih, encloses_union_iff, List.forall_mem_cons, and_assoc]

/-- The box contains each of some boxes, and every box that does so contains it. -/
structure IsHull (b : Box Rat) (cs : List (Box Rat)) : Prop where
  contains : ∀ c ∈ cs, b.contains c 0 = true
  least : ∀ d : Box Rat, (∀ c ∈ cs, d.contains c 0 = true) → d.contains b 0 = true

/-- The union that begins with one of the boxes is their hull, whatever their order. -/
theorem isHull_foldl_union {cs : List (Box Rat)} (hproper : ∀ c ∈ cs, c.Proper) (hb : b ∈ cs) :
    (cs.foldl union b).IsHull cs := by
  have hall := (encloses_foldl_union_iff (d := cs.foldl union b)).mp (.refl _)
  constructor
  · intro c hc
    exact (contains_exact_iff (hproper c hc)).mpr (hall.2 c hc)
  · intro d hd
    have hencl : ∀ c ∈ cs, d.Encloses c := fun c hc => encloses_of_contains (hd c hc)
    rw [contains_exact_iff (hall.1.proper (hproper b hb)), encloses_foldl_union_iff]
    exact ⟨hencl b hb, hencl⟩

end Box
end Artwork
