import Artwork.Proofs.Double.Canonical

/-!
# Arithmetic and order of canonical doubles

A sum of canonical doubles is the canonical form of the rounded sum, and so is a difference.  Two
canonical doubles are compared by exponent and then by significand, which is the order of their
values, because a value fixes its exponent.
-/

namespace Artwork
namespace Double

open Float.Model Float.Model.UnpackedFloat

theorem cast_apply_neg (s : Sign) (m : ℤ) : (((-s).apply m : ℤ) : ℚ) = -(s.apply m : ℤ) := by
  cases s
  · show (m : ℚ) = -((-m : ℤ) : ℚ)
    rw [Int.cast_neg, neg_neg]
  · exact Int.cast_neg m

theorem Holds.neg {u : UnpackedFloat} {p : ℚ} (h : Holds u p) : Holds u.neg (-p) := by
  cases h with
  | zero s => simpa [UnpackedFloat.neg] using Holds.zero (-s)
  | finite s m e hm he =>
    have hneg := Holds.finite (-s) m e hm he
    rwa [cast_apply_neg, neg_mul] at hneg

theorem Holds.rounded_eq {u : UnpackedFloat} {p : ℚ} (h : Holds u p) : rounded p = p := by
  cases h with
  | zero s => exact rounded_zero
  | finite s m e hm he =>
    have hpos : rounded ((m : ℤ) * 2 ^ e) = (m : ℤ) * 2 ^ e := rounded_of_exponent he
    cases s with
    | positive => exact hpos
    | negative =>
      simp only [Sign.apply, Int.cast_neg, neg_mul, rounded_neg]
      rw [hpos]

theorem aligned_value (s : Sign) (m : ℕ) {e t : ℤ} (h : t ≤ e) :
    (s.apply (decreaseExponent m e t).1 * 2 ^ t : ℚ) = s.apply m * 2 ^ e := by
  have hvalue := decreaseExponent_value m e t
  have hexp : (decreaseExponent m e t).2 = t := by
    simp only [decreaseExponent]
    omega
  rw [hexp] at hvalue
  rw [apply_eq_mul, hvalue, ← apply_eq_mul]

/-- The sum of two canonical doubles, before it is stored. -/
theorem Holds.add {u v : UnpackedFloat} {p q : ℚ} (hu : Holds u p) (hv : Holds v q) :
    Holds (UnpackedFloat.add .binary64 u v) (rounded (p + q)) := by
  cases hu with
  | zero s =>
    rw [zero_add, hv.rounded_eq]
    cases hv with
    | zero s' =>
      simp only [UnpackedFloat.add]
      split_ifs <;> exact Holds.zero _
    | finite s' m' e' hm' he' => exact Holds.finite s' m' e' hm' he'
  | finite s m e hm he =>
    cases hv with
    | zero s' =>
      rw [add_zero, (Holds.finite s m e hm he).rounded_eq]
      exact Holds.finite s m e hm he
    | finite s' m' e' hm' he' =>
      -- Both are brought to the smaller exponent, where the sum of the mantissas is exact.
      have hsum := normalize_holds (s.apply (decreaseExponent m e (min e e')).1 +
        s'.apply (decreaseExponent m' e' (min e e')).1) (min e e') .positive
      rw [Int.cast_add, add_mul, aligned_value s m (min_le_left e e'),
        aligned_value s' m' (min_le_right e e')] at hsum
      exact hsum

theorem unpackedSub_eq (u v : UnpackedFloat) :
    UnpackedFloat.sub .binary64 u v = UnpackedFloat.add .binary64 u v.neg := by
  have happly : ∀ (s : Sign) (m : ℕ), (-s).apply m = -s.apply m := by
    intro s m
    cases s
    · exact (neg_neg (m : ℤ)).symm
    · rfl
  cases u <;> cases v <;>
    simp only [UnpackedFloat.sub, UnpackedFloat.add, UnpackedFloat.neg, happly,
      ← Int.sub_eq_add_neg]

theorem value_pos {m : ℕ} (hm : 0 < m) (e : ℤ) : (0 : ℚ) < m * 2 ^ e :=
  mul_pos (by exact_mod_cast hm) (twoPow_pos e)

/-- A larger exponent is a larger value, because neither is below what its exponent asks for. -/
theorem lt_of_exponent_lt {m n : ℕ} {d e : ℤ} (hm : exponent (m * 2 ^ d) = d)
    (hn : exponent (n * 2 ^ e) = e) (hpos : 0 < n) (h : d < e) :
    (m * 2 ^ d : ℚ) < n * 2 ^ e := by
  by_contra hle
  have hmono := exponent_mono (value_pos hpos e) (not_lt.mp hle)
  omega

theorem compare_canonical {m n : ℕ} {d e : ℤ} (hm : exponent (m * 2 ^ d) = d)
    (hn : exponent (n * 2 ^ e) = e) (hmpos : 0 < m) (hnpos : 0 < n) :
    (compare d e).then (compare m n) = compare (m * 2 ^ d : ℚ) (n * 2 ^ e) := by
  rcases lt_trichotomy d e with hlt | rfl | hgt
  · rw [compare_lt_iff_lt.mpr hlt, compare_lt_iff_lt.mpr (lt_of_exponent_lt hm hn hnpos hlt)]
    rfl
  · rw [compare_eq_iff_eq.mpr rfl]
    have hscale := twoPow_pos d
    rcases lt_trichotomy m n with hlt | rfl | hgt
    · have hvalue : (m * 2 ^ d : ℚ) < n * 2 ^ d :=
        mul_lt_mul_of_pos_right (by exact_mod_cast hlt) hscale
      rw [compare_lt_iff_lt.mpr hlt, compare_lt_iff_lt.mpr hvalue]
      rfl
    · rw [compare_eq_iff_eq.mpr rfl, compare_eq_iff_eq.mpr rfl]
      rfl
    · have hvalue : (n * 2 ^ d : ℚ) < m * 2 ^ d :=
        mul_lt_mul_of_pos_right (by exact_mod_cast hgt) hscale
      rw [compare_gt_iff_gt.mpr hgt, compare_gt_iff_gt.mpr hvalue]
      rfl
  · rw [compare_gt_iff_gt.mpr hgt, compare_gt_iff_gt.mpr (lt_of_exponent_lt hn hm hmpos hgt)]
    rfl

theorem swap_compare_neg (p q : ℚ) : (compare p q).swap = compare (-p) (-q) := by
  rcases lt_trichotomy p q with hlt | rfl | hgt
  · rw [compare_lt_iff_lt.mpr hlt, compare_gt_iff_gt.mpr (neg_lt_neg hlt)]
    rfl
  · rw [compare_eq_iff_eq.mpr rfl, compare_eq_iff_eq.mpr rfl]
    rfl
  · rw [compare_gt_iff_gt.mpr hgt, compare_lt_iff_lt.mpr (neg_lt_neg hgt)]
    rfl

/-- Canonical doubles stand in the order of their values. -/
theorem Holds.compare {u v : UnpackedFloat} {p q : ℚ} (hu : Holds u p) (hv : Holds v q) :
    u.compare v = some (compare p q) := by
  cases hu with
  | zero s =>
    cases hv with
    | zero s' => rw [compare_eq_iff_eq.mpr rfl]; rfl
    | finite s' m' e' hm' he' =>
      have hpos := value_pos hm' e'
      cases s' with
      | positive => rw [Sign.apply, compare_lt_iff_lt.mpr (by exact_mod_cast hpos)]; rfl
      | negative =>
        rw [Sign.apply, compare_gt_iff_gt.mpr (by push_cast; linarith)]; rfl
  | finite s m e hm he =>
    have hpos := value_pos hm e
    cases hv with
    | zero s' =>
      cases s with
      | positive => rw [Sign.apply, compare_gt_iff_gt.mpr (by exact_mod_cast hpos)]; rfl
      | negative => rw [Sign.apply, compare_lt_iff_lt.mpr (by push_cast; linarith)]; rfl
    | finite s' m' e' hm' he' =>
      have hpos' := value_pos hm' e'
      have hcompare := compare_canonical he he' hm hm'
      cases s <;> cases s' <;> simp only [Sign.apply, UnpackedFloat.compare]
      · rw [hcompare, swap_compare_neg]
        push_cast
        rw [neg_mul, neg_mul]
      · rw [compare_lt_iff_lt.mpr (by push_cast; linarith)]
      · rw [compare_gt_iff_gt.mpr (by push_cast; linarith)]
      · rw [hcompare]
        push_cast
        rfl

end Double
end Artwork
