import Artwork.Proofs.Double.Range

/-!
# Extremes of doubles

The least and the greatest number of a list of doubles, infinities included.  What is no number is
passed over, so that a fold that starts at the far infinity ends at the extreme number, or where it
started when there is none (`Chooses.foldl_eq_getD`).  Lists with the same members have the same
extremes, but for the sign of a zero (`IsExtreme.exists_at`, `At.same`).
-/

namespace Artwork
namespace Double

open Float.Model Float.Model.UnpackedFloat

variable {x y : Float} {p q : ℚ}

/-! ## Numbers and places -/

/-- The numbers among the doubles are those that have a place. -/
theorem ne_nan_iff : x ≠ Float.nan ↔ ∃ q, At x q := by
  have hnan : x = Float.nan ↔ x.toModel.unpack = .notANumber :=
    ⟨fun h => by rw [h]; rfl, fun h => eq_of_unpack_eq h⟩
  rw [ne_eq, hnan]
  refine ⟨(undefined_or_at x).resolve_left, fun ⟨q, hq⟩ hundefined => ?_⟩
  rw [At, hundefined] at hq
  cases hq with
  | finite hu _ => cases hu

theorem At.ne_nan (h : At x q) : x ≠ Float.nan := ne_nan_iff.mpr ⟨q, h⟩

theorem le_self_iff : x ≤ x ↔ x ≠ Float.nan := by
  refine ⟨fun h => ne_nan_iff.mpr (at_left_of_le h), fun h => ?_⟩
  obtain ⟨q, hq⟩ := ne_nan_iff.mp h
  exact (hq.le_iff hq).mpr (le_refl q)

theorem isNumber_iff : Scalar.isNumber x = true ↔ x ≠ Float.nan :=
  decide_eq_true_iff.trans le_self_iff

theorem not_lt_nan : ¬ x < Float.nan := by
  intro h
  exact le_self_iff.mp (le_self_of_le (le_of_lt h)) rfl

theorem not_nan_lt : ¬ Float.nan < x := by
  intro h
  obtain ⟨q, hq⟩ := at_left_of_le (le_of_lt h)
  exact hq.ne_nan rfl

theorem not_lt_of_le (h : x ≤ y) : ¬ y < x := by
  obtain ⟨p, hp⟩ := at_left_of_le h
  obtain ⟨q, hq⟩ := at_right_of_le h
  rw [hq.lt_iff hp]
  exact not_lt.mpr ((hp.le_iff hq).mp h)

/-! ## Doubles at one place -/

/-- One of the two zeros. -/
def IsZero (x : Float) : Prop := x = 0.0 ∨ x = -0.0

/-- The same double, up to the sign of a zero. -/
def Same (x y : Float) : Prop := x = y ∨ IsZero x ∧ IsZero y

theorem At.isZero (h : At x 0) : IsZero x := by
  have hholds := Stored.holds h (by rw [abs_zero]; exact limit_pos)
  generalize hu : x.toModel.unpack = u at hholds
  generalize hq : (0 : ℚ) = q at hholds
  cases hholds with
  | zero s =>
    cases s with
    | positive => exact .inl (eq_of_unpack_eq hu)
    | negative => exact .inr (eq_of_unpack_eq hu)
  | finite s m e hm he =>
    have hsize : |(0 : ℚ)| = |(s.apply m * 2 ^ e : ℚ)| := by rw [hq]
    rw [apply_eq_mul, abs_apply_mul, abs_zero] at hsize
    exact absurd hsize (abs_pos_of_pos (value_pos hm e)).ne

/-- An infinity is told by its place. -/
theorem At.unpack_of_limit_le (h : At x q) (hlimit : limit ≤ |q|) :
    x.toModel.unpack = .infinity (if 0 < q then .positive else .negative) := by
  unfold At at h
  generalize x.toModel.unpack = u at h
  cases h with
  | finite _ hlt => exact absurd hlimit hlt.not_ge
  | infinity s =>
    have hpos := limit_pos
    cases s with
    | positive => rw [if_pos (by simpa [Sign.apply] using hpos)]
    | negative => rw [if_neg (by simpa [Sign.apply] using hpos.le)]

theorem At.eq_of_ne_zero (hx : At x q) (hy : At y q) (hq : q ≠ 0) : x = y := by
  rcases lt_or_ge |q| limit with hlt | hge
  · exact hx.eq hy hq hlt
  · exact eq_of_unpack_eq ((hx.unpack_of_limit_le hge).trans (hy.unpack_of_limit_le hge).symm)

theorem At.same (hx : At x q) (hy : At y q) : Same x y := by
  rcases eq_or_ne q 0 with rfl | hq
  · exact .inr ⟨hx.isZero, hy.isZero⟩
  · exact .inl (hx.eq_of_ne_zero hy hq)

theorem At.sub_left (hx : At x p) (hp : |p| < limit) (hy : At y q) :
    At (x - y) (total p (-q)) := by
  have hsum := Stored.add hx hp (Stored.neg hy)
  rw [← unpackedSub_eq] at hsum
  exact hsum

/-- Differences of doubles at the same places are the same.  The difference of two infinities need
not have a place, but then there is one double only at either place. -/
theorem At.same_sub {x' y' : Float} (hx : At x p) (hx' : At x' p) (hy : At y q) (hy' : At y' q) :
    Same (x - y) (x' - y') := by
  rcases lt_or_ge |q| limit with hq | hq
  · exact (hx.sub hy hq).same (hx'.sub hy' hq)
  · rcases lt_or_ge |p| limit with hp | hp
    · exact (hx.sub_left hp hy).same (hx'.sub_left hp hy')
    · have hne {r : ℚ} (hr : limit ≤ |r|) : r ≠ 0 := abs_pos.mp (limit_pos.trans_le hr)
      rw [hx.eq_of_ne_zero hx' (hne hp), hy.eq_of_ne_zero hy' (hne hq)]
      exact .inl rfl

/-! ## Extremes -/

/-- The value is a number of the list, and stands in the relation to all numbers of the list. -/
structure IsExtreme (R : Float → Float → Prop) (xs : List Float) (m : Float) : Prop where
  mem : m ∈ xs
  ne_nan : m ≠ Float.nan
  rel : ∀ x ∈ xs, x ≠ Float.nan → R m x

/-- Of two numbers, one that stands in the relation to both is chosen.  What is no number is not
chosen in place of a number. -/
structure Chooses (R : Float → Float → Prop) (choose : Float → Float → Float) : Prop where
  refl : ∀ {x}, x ≠ Float.nan → R x x
  trans : ∀ {x y z}, R x y → R y z → R x z
  eq_or_eq : ∀ x y, choose x y = x ∨ choose x y = y
  rel_left : ∀ {x y}, x ≠ Float.nan → y ≠ Float.nan → R (choose x y) x
  rel_right : ∀ {x y}, x ≠ Float.nan → y ≠ Float.nan → R (choose x y) y
  passes : ∀ {x}, x ≠ Float.nan → choose x Float.nan = x

theorem chooses_least : Chooses (· ≤ ·) Scalar.least where
  refl := le_self_iff.mpr
  trans := le_trans
  eq_or_eq _ _ := (ite_eq_or_eq _ _ _).symm
  rel_left hx hy := by
    unfold Scalar.least
    split_ifs with h
    · exact le_of_lt (h.resolve_right (not_not_intro (le_self_iff.mpr hx)))
    · exact le_self_iff.mpr hx
  rel_right hx hy := least_le_right (le_self_iff.mpr hx) (le_self_iff.mpr hy)
  passes hx := if_neg (not_or_intro not_nan_lt (not_not_intro (le_self_iff.mpr hx)))

theorem chooses_greatest : Chooses (· ≥ ·) Scalar.greatest where
  refl := le_self_iff.mpr
  trans hxy hyz := le_trans hyz hxy
  eq_or_eq _ _ := (ite_eq_or_eq _ _ _).symm
  rel_left hx hy := by
    unfold Scalar.greatest
    split_ifs with h
    · exact le_of_lt (h.resolve_right (not_not_intro (le_self_iff.mpr hx)))
    · exact le_self_iff.mpr hx
  rel_right hx hy := le_greatest_right (le_self_iff.mpr hx) (le_self_iff.mpr hy)
  passes hx := if_neg (not_or_intro not_lt_nan (not_not_intro (le_self_iff.mpr hx)))

/-- The extreme number of a list, if it holds a number. -/
def extreme? (choose : Float → Float → Float) (xs : List Float) : Option Float :=
  match xs.filter Scalar.isNumber with
  | [] => none
  | x :: rest => some (rest.foldl choose x)

theorem lowest?_eq (xs : List Float) : Scalar.lowest? xs = extreme? Scalar.least xs := by
  unfold Scalar.lowest? extreme?
  cases xs.filter Scalar.isNumber <;> rfl

theorem highest?_eq (xs : List Float) : Scalar.highest? xs = extreme? Scalar.greatest xs := by
  unfold Scalar.highest? extreme?
  cases xs.filter Scalar.isNumber <;> rfl

section Extreme

variable {R : Float → Float → Prop} {choose : Float → Float → Float} {xs ys : List Float}
  {m n : Float}

theorem mem_numbers : x ∈ xs.filter Scalar.isNumber ↔ x ∈ xs ∧ x ≠ Float.nan := by
  rw [List.mem_filter, isNumber_iff]

theorem extreme?_eq_none_iff : extreme? choose xs = none ↔ ∀ x ∈ xs, x = Float.nan := by
  have hnumbers : xs.filter Scalar.isNumber = [] ↔ ∀ x ∈ xs, x = Float.nan := by
    simp only [List.filter_eq_nil_iff, isNumber_iff, not_not]
  rw [← hnumbers]
  unfold extreme?
  cases xs.filter Scalar.isNumber <;> simp

theorem Chooses.ne_nan (h : Chooses R choose) (hx : x ≠ Float.nan) (hy : y ≠ Float.nan) :
    choose x y ≠ Float.nan := by
  rcases h.eq_or_eq x y with heq | heq
  · rwa [heq]
  · rwa [heq]

/-- A fold over numbers ends at an extreme of its start and the list. -/
theorem Chooses.isExtreme_foldl (h : Chooses R choose) (hx : x ≠ Float.nan)
    (hxs : ∀ y ∈ xs, y ≠ Float.nan) : IsExtreme R (x :: xs) (xs.foldl choose x) := by
  induction xs generalizing x with
  | nil =>
    refine ⟨List.mem_singleton_self x, hx, fun y hy _ => ?_⟩
    rw [List.mem_singleton.mp hy]
    exact h.refl hx
  | cons y rest ih =>
    obtain ⟨hy, hrest⟩ := List.forall_mem_cons.mp hxs
    have hchosen := h.ne_nan hx hy
    obtain ⟨hmem, hne, hrel⟩ := ih hchosen hrest
    have hreach := hrel _ List.mem_cons_self hchosen
    refine ⟨?_, hne, fun z hz hznumber => ?_⟩
    · rw [List.foldl_cons]
      rcases List.mem_cons.mp hmem with hstart | hlater
      · rw [hstart]
        rcases h.eq_or_eq x y with heq | heq <;> simp [heq]
      · exact List.mem_cons_of_mem _ (List.mem_cons_of_mem _ hlater)
    · rcases List.mem_cons.mp hz with rfl | hz
      · exact h.trans hreach (h.rel_left hx hy)
      · rcases List.mem_cons.mp hz with rfl | hz
        · exact h.trans hreach (h.rel_right hx hy)
        · exact hrel z (List.mem_cons_of_mem _ hz) hznumber

theorem Chooses.isExtreme (h : Chooses R choose) (hm : extreme? choose xs = some m) :
    IsExtreme R xs m := by
  unfold extreme? at hm
  cases hfilter : xs.filter Scalar.isNumber with
  | nil =>
    rw [hfilter] at hm
    cases hm
  | cons x rest =>
    rw [hfilter] at hm
    obtain rfl := Option.some_inj.mp hm
    have hnumbers {y : Float} : y ∈ x :: rest ↔ y ∈ xs ∧ y ≠ Float.nan := by
      rw [← hfilter, mem_numbers]
    have hfold := h.isExtreme_foldl (hnumbers.mp List.mem_cons_self).2
      fun y hy => (hnumbers.mp (List.mem_cons_of_mem x hy)).2
    exact ⟨(hnumbers.mp hfold.mem).1, hfold.ne_nan,
      fun y hy hne => hfold.rel y (hnumbers.mpr ⟨hy, hne⟩) hne⟩

theorem Chooses.foldl_filter (h : Chooses R choose) (hx : x ≠ Float.nan) :
    xs.foldl choose x = (xs.filter Scalar.isNumber).foldl choose x := by
  induction xs generalizing x with
  | nil => rfl
  | cons y rest ih =>
    by_cases hy : y = Float.nan
    · have hskip : ¬ Scalar.isNumber y = true := fun hnumber => isNumber_iff.mp hnumber hy
      rw [List.filter_cons_of_neg hskip, List.foldl_cons, hy, h.passes hx, ih hx]
    · rw [List.filter_cons_of_pos (isNumber_iff.mpr hy), List.foldl_cons, List.foldl_cons,
        ih (h.ne_nan hx hy)]

/-- A fold that starts where every number is chosen in its place ends at the extreme number, and
without a number it stays there. -/
theorem Chooses.foldl_eq_getD (h : Chooses R choose) (hx : x ≠ Float.nan)
    (hfar : ∀ y, y ≠ Float.nan → choose x y = y) :
    xs.foldl choose x = (extreme? choose xs).getD x := by
  rw [h.foldl_filter hx]
  unfold extreme?
  cases hfilter : xs.filter Scalar.isNumber with
  | nil => rfl
  | cons y rest =>
    have hy : y ≠ Float.nan := (mem_numbers.mp (hfilter ▸ List.mem_cons_self)).2
    rw [List.foldl_cons, hfar y hy]
    rfl

/-- A list has a least and a greatest number, or it has no number. -/
theorem ends (xs : List Float) :
    (Scalar.lowest? xs = none ∧ Scalar.highest? xs = none ∧ ∀ x ∈ xs, x = Float.nan) ∨
      ∃ low high, Scalar.lowest? xs = some low ∧ Scalar.highest? xs = some high ∧
        IsExtreme (· ≤ ·) xs low ∧ IsExtreme (· ≥ ·) xs high := by
  rw [lowest?_eq, highest?_eq]
  by_cases hnan : ∀ x ∈ xs, x = Float.nan
  · exact .inl ⟨extreme?_eq_none_iff.mpr hnan, extreme?_eq_none_iff.mpr hnan, hnan⟩
  · have hsome (choose : Float → Float → Float) : ∃ m, extreme? choose xs = some m :=
      Option.ne_none_iff_exists'.mp (extreme?_eq_none_iff.not.mpr hnan)
    obtain ⟨low, hlow⟩ := hsome Scalar.least
    obtain ⟨high, hhigh⟩ := hsome Scalar.greatest
    exact .inr ⟨low, high, hlow, hhigh, chooses_least.isExtreme hlow,
      chooses_greatest.isExtreme hhigh⟩

/-- Lists with the same members have their extremes at one place. -/
theorem IsExtreme.exists_at (hm : IsExtreme R xs m) (hn : IsExtreme R ys n)
    (hR : ∀ {x y}, R x y → R y x → x ≤ y ∧ y ≤ x) (hmem : ∀ x, x ∈ xs ↔ x ∈ ys) :
    ∃ q, At m q ∧ At n q := by
  obtain ⟨hle, hge⟩ := hR (hm.rel n ((hmem n).mpr hn.mem) hn.ne_nan)
    (hn.rel m ((hmem m).mp hm.mem) hm.ne_nan)
  obtain ⟨p, hp⟩ := ne_nan_iff.mp hm.ne_nan
  obtain ⟨q, hq⟩ := ne_nan_iff.mp hn.ne_nan
  obtain rfl := le_antisymm ((hp.le_iff hq).mp hle) ((hq.le_iff hp).mp hge)
  exact ⟨p, hp, hq⟩

end Extreme

/-! ## From the infinities -/

theorem at_inf : At Float.inf limit := at_infinity

/-- Every number takes the place of the upper infinity, which is its only equal. -/
theorem least_inf (hx : x ≠ Float.nan) : Scalar.least Float.inf x = x := by
  obtain ⟨q, hq⟩ := ne_nan_iff.mp hx
  unfold Scalar.least
  split_ifs with h
  · rfl
  · have hge : limit ≤ q := not_lt.mp fun hlt => h (.inl ((hq.lt_iff at_inf).mpr hlt))
    obtain rfl : limit = q := le_antisymm hge (abs_le.mp (Stored.abs_le hq)).2
    exact at_inf.eq_of_ne_zero hq limit_pos.ne'

theorem greatest_neg_inf (hx : x ≠ Float.nan) : Scalar.greatest (-Float.inf) x = x := by
  obtain ⟨q, hq⟩ := ne_nan_iff.mp hx
  unfold Scalar.greatest
  split_ifs with h
  · rfl
  · have hle : q ≤ -limit := not_lt.mp fun hlt => h (.inl ((at_inf.neg.lt_iff hq).mpr hlt))
    obtain rfl : -limit = q := le_antisymm (abs_le.mp (Stored.abs_le hq)).1 hle
    exact at_inf.neg.eq_of_ne_zero hq (neg_ne_zero.mpr limit_pos.ne')

theorem foldl_least_inf (xs : List Float) :
    xs.foldl Scalar.least Float.inf = (Scalar.lowest? xs).getD Float.inf := by
  rw [lowest?_eq]
  exact chooses_least.foldl_eq_getD at_inf.ne_nan fun _ => least_inf

theorem foldl_greatest_neg_inf (xs : List Float) :
    xs.foldl Scalar.greatest (-Float.inf) = (Scalar.highest? xs).getD (-Float.inf) := by
  rw [highest?_eq]
  exact chooses_greatest.foldl_eq_getD at_inf.neg.ne_nan fun _ => greatest_neg_inf

end Double
end Artwork
