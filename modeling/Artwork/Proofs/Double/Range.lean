import Artwork.Proofs.Double.Notation

/-!
# Sizes of doubles

What an operation makes of doubles is no larger in size than what it makes of larger ones.  So when
a chain of operations stays finite on the largest operands, it stays finite on all of them
(`Under`), and the largest operands are closed terms that can be computed with.
-/

namespace Artwork
namespace Double

open Float.Model Float.Model.UnpackedFloat

theorem At.unique {x : Float} {p q : ℚ} (hp : At x p) (hq : At x q) : p = q := by
  have hself : x ≤ x := (hp.le_iff hp).mpr (le_refl p)
  exact le_antisymm ((hp.le_iff hq).mp hself) ((hq.le_iff hp).mp hself)

theorem isFinite_iff {x : Float} {q : ℚ} (h : At x q) : Scalar.isFinite x = true ↔ |q| < limit := by
  constructor
  · intro hfin
    obtain ⟨p, hp, hlt⟩ := at_of_isFinite hfin
    rwa [hp.unique h] at hlt
  · exact fun hlt => isFinite_of_holds (Stored.holds h hlt)

/-- The size of what an odd function gives depends on the size of its argument only. -/
theorem abs_of_odd {f : ℚ → ℚ} (hneg : ∀ q, f (-q) = -f q) (hnonneg : ∀ q, 0 ≤ q → 0 ≤ f q)
    (q : ℚ) : |f q| = f |q| := by
  rcases le_total 0 q with hq | hq
  · rw [abs_of_nonneg hq, abs_of_nonneg (hnonneg q hq)]
  · have hle := hnonneg (-q) (neg_nonneg.mpr hq)
    rw [hneg] at hle
    rw [abs_of_nonpos hq, hneg, abs_of_nonpos (neg_nonneg.mp hle)]

theorem abs_rounded (q : ℚ) : |rounded q| = rounded |q| :=
  abs_of_odd rounded_neg (fun _ => rounded_nonneg) q

theorem abs_clamped (q : ℚ) : |clamped q| = clamped |q| :=
  abs_of_odd clamped_neg (fun _ hq => le_max_of_le_right (le_min hq limit_pos.le)) q

/-- A double that is no larger in size than the finite double `b`. -/
def Under (x b : Float) : Prop := ∃ p q, At x p ∧ At b q ∧ |p| ≤ q ∧ q < limit

variable {x y b c : Float}

/-- Where a rounded result stands when a larger one is finite. -/
theorem Under.of_rounded {p q : ℚ} (hx : At x (clamped (rounded p)))
    (hb : At b (clamped (rounded q))) (hpq : |p| ≤ q) (hfin : Scalar.isFinite b = true) :
    Under x b := by
  refine ⟨_, _, hx, hb, ?_, ((le_abs_self _).trans_lt ((isFinite_iff hb).mp hfin))⟩
  rw [abs_clamped, abs_rounded]
  exact clamped_mono (rounded_mono hpq)

theorem Under.exists_at (h : Under x b) :
    ∃ p q, At x p ∧ At b q ∧ |p| ≤ q ∧ |p| < limit ∧ |q| < limit := by
  obtain ⟨p, q, hp, hq, hle, hlt⟩ := h
  exact ⟨p, q, hp, hq, hle, hle.trans_lt hlt,
    (abs_of_nonneg ((abs_nonneg p).trans hle)).trans_lt hlt⟩

theorem Under.isFinite (h : Under x b) : Scalar.isFinite x = true := by
  obtain ⟨p, q, hp, -, -, hlt, -⟩ := h.exists_at
  exact (isFinite_iff hp).mpr hlt

theorem exists_pos_at (hpos : 0.0 < c) (hfin : Scalar.isFinite c = true) :
    ∃ r, At c r ∧ 0 < r ∧ |r| < limit := by
  obtain ⟨r, hr, hlt⟩ := at_of_isFinite hfin
  exact ⟨r, hr, (at_zero.lt_iff hr).mp hpos, hlt⟩

theorem Under.mul (h : Under x b) (hpos : 0.0 < c) (hc : Scalar.isFinite c = true)
    (hfin : Scalar.isFinite (b * c) = true) : Under (x * c) (b * c) := by
  obtain ⟨p, q, hp, hq, hle, hplt, hqlt⟩ := h.exists_at
  obtain ⟨r, hr, hrpos, hrlt⟩ := exists_pos_at hpos hc
  refine .of_rounded (hp.mul hr hplt hrlt) (hq.mul hr hqlt hrlt) ?_ hfin
  rw [abs_mul, abs_of_pos hrpos]
  exact mul_le_mul_of_nonneg_right hle hrpos.le

theorem Under.div (h : Under x b) (hpos : 0.0 < c) (hc : Scalar.isFinite c = true)
    (hfin : Scalar.isFinite (b / c) = true) : Under (x / c) (b / c) := by
  obtain ⟨p, q, hp, hq, hle, hplt, hqlt⟩ := h.exists_at
  obtain ⟨r, hr, hrpos, hrlt⟩ := exists_pos_at hpos hc
  refine .of_rounded (hp.div hr hplt hrlt hrpos.ne') (hq.div hr hqlt hrlt hrpos.ne') ?_ hfin
  rw [abs_div, abs_of_pos hrpos]
  exact div_le_div_of_nonneg_right hle hrpos.le

theorem Under.sub (hx : Under x b) (hy : Under y c) (hfin : Scalar.isFinite (b + c) = true) :
    Under (x - y) (b + c) := by
  obtain ⟨p, q, hp, hq, hpq, hplt, hqlt⟩ := hx.exists_at
  obtain ⟨r, s, hr, hs, hrs, hrlt, hslt⟩ := hy.exists_at
  have hdiff := hp.sub hr hrlt
  have hsum := hq.add hqlt hs
  rw [total, if_pos hplt] at hdiff
  rw [total, if_pos hslt] at hsum
  refine .of_rounded hdiff hsum ?_ hfin
  calc |-r + p| ≤ |-r| + |p| := abs_add_le (-r) p
    _ ≤ q + s := by rw [abs_neg]; linarith

theorem Under.magnitude (h : Under x b) : Under (Scalar.magnitude x) b := by
  unfold Scalar.magnitude
  split_ifs
  · obtain ⟨p, q, hp, hq, hle, hlt⟩ := h
    exact ⟨-p, q, hp.neg, hq, by rwa [abs_neg], hlt⟩
  · exact h

theorem isFinite_greatest (hx : Scalar.isFinite x = true) (hy : Scalar.isFinite y = true) :
    Scalar.isFinite (Scalar.greatest x y) = true := by
  unfold Scalar.greatest
  split_ifs
  · exact hy
  · exact hx

/-! ## Rounding to a whole value -/

theorem at_ofNat (n : ℕ) : At (Float.ofNat n) (clamped (rounded n)) := by
  rcases Nat.eq_zero_or_pos n with rfl | hn
  · rw [Nat.cast_zero, rounded_zero, clamped_of_abs_lt (by simpa using limit_pos)]
    exact at_zero
  · have hnat := at_ofScientific hn (k := 0) (by decide) (by omega)
    rwa [zpow_zero, mul_one] at hnat

theorem at_ofInt (n : ℤ) : At (Float.ofInt n) (clamped (rounded n)) := by
  cases n with
  | ofNat n => exact at_ofNat n
  | negSucc n =>
    have hneg := (at_ofNat (n + 1)).neg
    rw [← clamped_neg, ← rounded_neg] at hneg
    rwa [Int.cast_negSucc]

theorem nearestInt_of_nonneg {q : ℚ} (hq : 0 ≤ q) : Scalar.nearestInt q = ⌊q + 1 / 2⌋ :=
  if_neg (not_lt.mpr hq)

theorem abs_nearestInt (q : ℚ) : |Scalar.nearestInt q| = ⌊|q| + 1 / 2⌋ := by
  have hnonneg (p : ℚ) : 0 ≤ ⌊|p| + 1 / 2⌋ := Int.floor_nonneg.mpr (by positivity)
  rcases lt_or_ge q 0 with hq | hq
  · have hneg : Scalar.nearestInt q = -⌊-q + 1 / 2⌋ := if_pos hq
    rw [hneg, ← abs_of_neg hq, abs_neg, abs_of_nonneg (hnonneg q)]
  · rw [nearestInt_of_nonneg hq, ← abs_of_nonneg hq, abs_abs, abs_of_nonneg (hnonneg q)]

theorem at_round {q : ℚ} (h : At x q) (hlt : |q| < limit) :
    At (Scalar.round x) (clamped (rounded (Scalar.nearestInt q : ℤ))) := by
  obtain ⟨p, hp⟩ := Option.isSome_iff_exists.mp ((isFinite_iff h).mpr hlt)
  obtain rfl := At.unique (stored_of_value? hp).1 h
  have hround : Scalar.round x = Float.ofInt (Scalar.nearestInt p) := by
    show Scalar.roundFloat x = _
    rw [Scalar.roundFloat, hp]
  rw [hround]
  exact at_ofInt _

theorem Under.round (h : Under x b) (hfin : Scalar.isFinite (Scalar.round b) = true) :
    Under (Scalar.round x) (Scalar.round b) := by
  obtain ⟨p, q, hp, hq, hle, hplt, hqlt⟩ := h.exists_at
  refine .of_rounded (at_round hp hplt) (at_round hq hqlt) ?_ hfin
  have hint : |Scalar.nearestInt p| ≤ Scalar.nearestInt q := by
    rw [abs_nearestInt, nearestInt_of_nonneg ((abs_nonneg p).trans hle)]
    exact Int.floor_mono (by linarith)
  exact_mod_cast hint

/-! ## The largest double -/

/-- The largest finite double. -/
def largest : Float := 1.7976931348623157e308

theorem value?_largest :
    (Binary.ofFloat largest).value? = some (((2 ^ 53 - 1 : ℕ) : ℚ) * 2 ^ (971 : ℤ)) := by
  have hbits : Binary.ofFloat largest = .finite false (2 ^ 53 - 1) 971 := by decide +kernel
  rw [hbits, value?_finite]
  rfl

theorem under_largest (h : Scalar.isFinite x = true) : Under x largest := by
  obtain ⟨hlargest, hlt⟩ := stored_of_value? value?_largest
  obtain ⟨q, hq⟩ := Option.isSome_iff_exists.mp h
  refine ⟨q, _, (stored_of_value? hq).1, hlargest, ?_, (le_abs_self _).trans_lt hlt⟩
  cases hx : Binary.ofFloat x with
  | undefined | infinite => simp [hx, Binary.value?] at hq
  | finite negative m e =>
    obtain ⟨-, hbits, -, hmax, -⟩ := unpack_of_ofFloat hx
    rw [hx, value?_finite, Option.some_inj] at hq
    rw [← hq, apply_eq_mul, abs_apply_mul,
      abs_of_nonneg (mul_nonneg (Nat.cast_nonneg m) (twoPow_pos e).le)]
    refine mul_le_mul ?_ (twoPow_mono hmax) (twoPow_pos e).le (Nat.cast_nonneg _)
    exact_mod_cast Nat.le_sub_one_of_lt hbits

end Double
end Artwork
