import Mathlib
import Artwork.Proofs.Double.Rounding

/-!
# Canonical doubles

An unpacked double is canonical when its exponent is the one its value asks for.  The steps of
`UnpackedFloat.round` are followed here: the mantissa is shifted into place, the round and sticky
bits remember what was shifted out (`Stands`), and the result is the canonical form of the rounded
value (`round_holds`).
-/

namespace Artwork
namespace Double

open Float.Model Float.Model.UnpackedFloat

theorem apply_eq_mul (s : Sign) (m : ℕ) (e : ℤ) :
    (s.apply m * 2 ^ e : ℚ) = s.apply 1 * (m * 2 ^ e) := by
  cases s <;> simp [Sign.apply]

/-- A finite unpacked double in canonical form, and its value. -/
inductive Holds : UnpackedFloat → ℚ → Prop
  | zero (s : Sign) : Holds (.zero s) 0
  | finite (s : Sign) (m : ℕ) (e : ℤ) (hm : 0 < m) (he : exponent (m * 2 ^ e) = e) :
    Holds (.finite s m e hm) (s.apply m * 2 ^ e)

/-- What an extended mantissa says of the number it was cut from. -/
def Stands : ExtendedMantissa → ℚ → Prop
  | ⟨m, false, false⟩, q => q = m
  | ⟨m, false, true⟩, q => m < q ∧ q < m + 1 / 2
  | ⟨m, true, false⟩, q => q = m + 1 / 2
  | ⟨m, true, true⟩, q => m + 1 / 2 < q ∧ q < m + 1

theorem Stands.exact (m : ℕ) : Stands (.ofMantissaAndAccuracy m .exact) m := rfl

theorem Stands.floor : ∀ {em : ExtendedMantissa} {q : ℚ}, Stands em q → ⌊q⌋ = em.mantissa
  | ⟨m, false, false⟩, q, h => by
    have hq : q = m := h
    rw [hq, Int.floor_natCast]
  | ⟨m, false, true⟩, q, ⟨hlow, hhigh⟩ => by
    rw [Int.floor_eq_iff]
    push_cast
    constructor <;> linarith
  | ⟨m, true, false⟩, q, h => by
    have hq : q = m + 1 / 2 := h
    rw [Int.floor_eq_iff]
    push_cast
    constructor <;> linarith
  | ⟨m, true, true⟩, q, ⟨hlow, hhigh⟩ => by
    rw [Int.floor_eq_iff]
    push_cast
    constructor <;> linarith

theorem Stands.roundedMantissa {em : ExtendedMantissa} {q : ℚ} (h : Stands em q) :
    (em.roundedMantissa : ℤ) = nearestEven q := by
  have hfloor := h.floor
  unfold nearestEven
  rw [hfloor]
  rcases em with ⟨m, _ | _, _ | _⟩ <;>
    simp only [Stands, ExtendedMantissa.roundedMantissa, ExtendedMantissa.accuracy,
      Accuracy.roundToNearestEven] at h ⊢ <;>
    push_cast <;> split_ifs <;> first | rfl | (exfalso; linarith)

/-- The bit shifted out becomes the round bit, and the round bit joins the sticky one. -/
theorem Stands.shiftRightOne {em : ExtendedMantissa} {q : ℚ} (h : Stands em q) :
    Stands em.shiftRightOne (q / 2) := by
  rcases em with ⟨m, r, s⟩
  rcases Nat.mod_two_eq_zero_or_one m with hm | hm
  · have hshift : ExtendedMantissa.shiftRightOne ⟨m, r, s⟩ = ⟨m / 2, false, r || s⟩ := by
      simp [ExtendedMantissa.shiftRightOne, hm]
    have hhalf : (m : ℚ) = 2 * (m / 2 : ℕ) := by
      exact_mod_cast (by omega : m = 2 * (m / 2))
    rw [hshift]
    cases r <;> cases s <;> simp only [Stands, Bool.or_false, Bool.or_true] at h ⊢ <;>
      first | linarith | constructor <;> linarith
  · have hshift : ExtendedMantissa.shiftRightOne ⟨m, r, s⟩ = ⟨m / 2, true, r || s⟩ := by
      simp [ExtendedMantissa.shiftRightOne, hm]
    have hhalf : (m : ℚ) = 2 * (m / 2 : ℕ) + 1 := by
      exact_mod_cast (by omega : m = 2 * (m / 2) + 1)
    rw [hshift]
    cases r <;> cases s <;> simp only [Stands, Bool.or_false, Bool.or_true] at h ⊢ <;>
      first | linarith | constructor <;> linarith

theorem Stands.shiftRight {em : ExtendedMantissa} {q : ℚ} (h : Stands em q) (n : ℕ) :
    Stands (em >>> n) (q / 2 ^ n) := by
  show Stands (n.repeat ExtendedMantissa.shiftRightOne em) _
  induction n with
  | zero => simpa [Nat.repeat] using h
  | succ n ih =>
    have hnext := ih.shiftRightOne
    rwa [div_div, ← pow_succ] at hnext

/-- The exponent a binary64 mantissa is moved to. -/
theorem targetExponent_eq (m : ℕ) (e : ℤ) :
    Format.binary64.targetExponent (totalExponent m e) = max (m.log2 + e - 52) (-1074) := by
  simp only [Format.targetExponent, totalExponent, Format.mantissaBits, Format.minExponent]
  norm_num
  omega

/-- A value between `m` and `m + 1` units has its leading bit where `m` has it. -/
theorem exponent_of_mem {m : ℕ} (hm : 0 < m) {e : ℤ} {q : ℚ} (hlow : m * 2 ^ e ≤ q)
    (hhigh : q < (m + 1) * 2 ^ e) : exponent q = max (m.log2 + e - 52) (-1074) := by
  have hpos : 0 < q := (mul_pos (by exact_mod_cast hm) (twoPow_pos e)).trans_le hlow
  have hpow : ((2 : ℕ) : ℚ) ^ (m.log2 + e : ℤ) ≤ m * 2 ^ e := by
    push_cast
    rw [twoPow_add]
    refine mul_le_mul_of_nonneg_right ?_ (twoPow_pos e).le
    exact_mod_cast Nat.log2_self_le hm.ne'
  have hpow' : ((m + 1) * 2 ^ e : ℚ) ≤ ((2 : ℕ) : ℚ) ^ (m.log2 + e + 1 : ℤ) := by
    push_cast
    rw [show (m.log2 + e + 1 : ℤ) = (m.log2 + 1 : ℕ) + e by push_cast; ring, twoPow_add]
    refine mul_le_mul_of_nonneg_right ?_ (twoPow_pos e).le
    exact_mod_cast Nat.lt_log2_self
  have hlog : Int.log 2 q = m.log2 + e := by
    have hge := (Int.zpow_le_iff_le_log (by decide) hpos).mp (hpow.trans hlow)
    have hlt := (Int.lt_zpow_iff_log_lt (by decide) hpos).mp (hhigh.trans_le hpow')
    omega
  unfold exponent
  rw [abs_of_pos hpos, hlog]

theorem exponent_natCast_mul {m : ℕ} (hm : 0 < m) (e : ℤ) :
    exponent (m * 2 ^ e) = max (m.log2 + e - 52) (-1074) :=
  exponent_of_mem hm (le_refl _) (mul_lt_mul_of_pos_right (lt_add_one _) (twoPow_pos e))

theorem targetExponent_eq_exponent {m : ℕ} (hm : 0 < m) (e : ℤ) :
    Format.binary64.targetExponent (totalExponent m e) = exponent (m * 2 ^ e) := by
  rw [targetExponent_eq, exponent_natCast_mul hm]

theorem shiftToExponent_stands {m : ℕ} {accuracy : Accuracy} {q : ℚ} {e t : ℤ}
    (hq : Stands (.ofMantissaAndAccuracy m accuracy) (q / 2 ^ e)) (h : e ≤ t) :
    Stands (shiftToExponent m e accuracy t).1 (q / 2 ^ t) ∧
      (shiftToExponent m e accuracy t).2 = t := by
  obtain ⟨n, rfl⟩ := Int.le.dest h
  have hamount : (e + n - e).toNat = n := by omega
  rw [twoPow_add, zpow_natCast, ← div_div]
  simp only [shiftToExponent, hamount, and_true]
  exact hq.shiftRight n

/-- Fewer than 54 bits stay where they are. -/
theorem shiftToTargetExponent_of_lt {r : ℕ} (hr : r < 2 ^ 53) {t : ℤ} (ht : -1074 ≤ t) :
    shiftToTargetExponent .binary64 r t .exact = (⟨r, false, false⟩, t) := by
  have hlog : r.log2 ≤ 52 := by
    rcases Nat.eq_zero_or_pos r with rfl | hpos
    · simp
    · have := (Nat.log2_lt hpos.ne').mpr hr
      omega
  have hamount : (max (r.log2 + t - 52) (-1074) - t).toNat = 0 := by omega
  simp only [shiftToTargetExponent, targetExponent_eq, shiftToExponent, hamount]
  simp [HShiftRight.hShiftRight, Nat.repeat, ExtendedMantissa.ofMantissaAndAccuracy]

/-- The one rounding that carries into a 54th bit is shifted once more, and loses nothing. -/
theorem shiftToTargetExponent_carry {t : ℤ} (ht : -1074 ≤ t) :
    shiftToTargetExponent .binary64 (2 ^ 53) t .exact = (⟨2 ^ 52, false, false⟩, t + 1) := by
  have hamount : (max (((2 ^ 53 : ℕ).log2 : ℤ) + t - 52) (-1074) - t).toNat = 1 := by
    rw [Nat.log2_two_pow]
    omega
  simp only [shiftToTargetExponent, targetExponent_eq, shiftToExponent, hamount]
  simp [HShiftRight.hShiftRight, Nat.repeat, ExtendedMantissa.ofMantissaAndAccuracy,
    ExtendedMantissa.shiftRightOne]

/-- A signed mantissa as an unpacked double. -/
def ofMantissa (s : Sign) (m : ℕ) (e : ℤ) : UnpackedFloat :=
  if h : m = 0 then .zero s else .finite s m e (Nat.pos_of_ne_zero h)

/-- The end of rounding: a mantissa that has been rounded is given its exponent. -/
def settle (s : Sign) (r : ℕ) (t : ℤ) : UnpackedFloat :=
  let shifted := shiftToTargetExponent .binary64 r t .exact
  ofMantissa s shifted.1.mantissa shifted.2

theorem ofMantissa_holds (s : Sign) {r : ℕ} (hr : r < 2 ^ 53) {t : ℤ} (ht : -1074 ≤ t)
    (hlow : t = -1074 ∨ 2 ^ 52 ≤ r) : Holds (ofMantissa s r t) (s.apply r * 2 ^ t) := by
  unfold ofMantissa
  split_ifs with hzero
  · rw [apply_eq_mul, hzero, Nat.cast_zero, zero_mul, mul_zero]
    exact Holds.zero s
  · have hpos := Nat.pos_of_ne_zero hzero
    have hlog := (Nat.log2_lt hzero).mpr hr
    refine Holds.finite s r t hpos ?_
    rw [exponent_natCast_mul hpos]
    rcases hlow with rfl | hfull
    · omega
    · have hlog' := (Nat.le_log2 hzero).mpr hfull
      omega

theorem settle_holds (s : Sign) {r : ℕ} (hr : r ≤ 2 ^ 53) {t : ℤ} (ht : -1074 ≤ t)
    (hlow : t = -1074 ∨ 2 ^ 52 ≤ r) : Holds (settle s r t) (s.apply r * 2 ^ t) := by
  rcases hr.lt_or_eq with hlt | rfl
  · rw [settle, shiftToTargetExponent_of_lt hlt ht]
    exact ofMantissa_holds s hlt ht hlow
  · have hvalue : (s.apply (2 ^ 53 : ℕ) * 2 ^ t : ℚ) = s.apply (2 ^ 52 : ℕ) * 2 ^ (t + 1) := by
      rw [apply_eq_mul, apply_eq_mul, twoPow_add]
      push_cast
      ring
    rw [hvalue, settle, shiftToTargetExponent_carry ht]
    exact ofMantissa_holds s (show 2 ^ 52 < 2 ^ 53 by decide) (by omega) (.inr (le_refl _))

theorem rounded_apply (s : Sign) (q : ℚ) :
    rounded (s.apply 1 * q) = s.apply (significand q) * 2 ^ exponent q := by
  cases s with
  | positive =>
    simp only [Sign.apply, Int.cast_one, one_mul]
    rfl
  | negative =>
    simp only [Sign.apply, Int.cast_neg, Int.cast_one, neg_mul, one_mul, rounded_neg]
    rfl

/-- The mantissa tells which exponent the value has that it was cut from, unless it is zero: then
the value is below the least exponent. -/
theorem targetExponent_eq_of_stands {m : ℕ} {accuracy : Accuracy} {q : ℚ} {e : ℤ} (hq : 0 < q)
    (hstands : Stands (.ofMantissaAndAccuracy m accuracy) (q / 2 ^ e)) (he : e ≤ exponent q) :
    Format.binary64.targetExponent (totalExponent m e) = exponent q := by
  have hfloor : ⌊q / 2 ^ e⌋ = m := by
    rw [hstands.floor]
    cases accuracy with
    | exact => rfl
    | inexact o => cases o <;> rfl
  obtain ⟨hlow, hhigh⟩ := Int.floor_eq_iff.mp hfloor
  rw [le_div_iff₀ (twoPow_pos e)] at hlow
  rw [div_lt_iff₀ (twoPow_pos e)] at hhigh
  rw [targetExponent_eq]
  rcases Nat.eq_zero_or_pos m with rfl | hm
  · have hlog : Int.log 2 q < e := by
      refine (Int.lt_zpow_iff_log_lt (by decide) hq).mp ?_
      push_cast at hhigh ⊢
      linarith
    have hzero : Nat.log2 0 = 0 := by decide
    unfold exponent at he ⊢
    rw [abs_of_pos hq] at he ⊢
    rw [hzero]
    omega
  · exact (exponent_of_mem hm (by exact_mod_cast hlow) (by exact_mod_cast hhigh)).symm

/-- A mantissa that was cut from a positive value is rounded to what the value is rounded to. -/
theorem roundWithAccuracy_holds (s : Sign) {m : ℕ} {accuracy : Accuracy} {q : ℚ} {e : ℤ}
    (hq : 0 < q) (hstands : Stands (.ofMantissaAndAccuracy m accuracy) (q / 2 ^ e))
    (he : e ≤ exponent q) :
    Holds (roundWithAccuracy .binary64 s m e accuracy) (rounded (s.apply 1 * q)) := by
  have hmin : -1074 ≤ exponent q := le_max_right _ _
  have hfirst : shiftToTargetExponent .binary64 m e accuracy =
      shiftToExponent m e accuracy (exponent q) := by
    rw [← targetExponent_eq_of_stands hq hstands he, shiftToTargetExponent]
  obtain ⟨hshifted, hexp⟩ := shiftToExponent_stands hstands he
  rw [← hfirst] at hshifted hexp
  have hround : _ = significand q := hshifted.roundedMantissa
  have hle := significand_le hq
  have hlow : exponent q = -1074 ∨ 2 ^ 52 ≤ significand q :=
    hmin.eq_or_lt.imp Eq.symm (le_significand hq)
  have hsettle : roundWithAccuracy .binary64 s m e accuracy =
      settle s (shiftToTargetExponent .binary64 m e accuracy).1.roundedMantissa
        (shiftToTargetExponent .binary64 m e accuracy).2 := rfl
  rw [rounded_apply, hsettle, hexp, ← hround]
  rw [← hround] at hle hlow
  exact settle_holds s (by exact_mod_cast hle) hmin (by exact_mod_cast hlow)

theorem roundWithAccuracy_exact_holds (s : Sign) {m : ℕ} (hm : 0 < m) {e : ℤ}
    (he : e ≤ exponent (m * 2 ^ e)) :
    Holds (roundWithAccuracy .binary64 s m e .exact) (rounded (s.apply m * 2 ^ e)) := by
  have hpos : (0 : ℚ) < m * 2 ^ e := mul_pos (by exact_mod_cast hm) (twoPow_pos e)
  have hstands : Stands (.ofMantissaAndAccuracy m .exact) (m * 2 ^ e / 2 ^ e) := by
    rw [mul_div_assoc, div_self (twoPow_pos e).ne', mul_one]
    exact Stands.exact m
  rw [apply_eq_mul]
  exact roundWithAccuracy_holds s hpos hstands he

theorem decreaseExponent_value (m : ℕ) (e t : ℤ) :
    ((decreaseExponent m e t).1 * 2 ^ (decreaseExponent m e t).2 : ℚ) = m * 2 ^ e := by
  have hshift : (2 : ℚ) ^ e = 2 ^ (e - t).toNat * 2 ^ (e - (e - t).toNat) := by
    rw [← zpow_natCast, ← twoPow_add]
    congr 1
    omega
  rw [hshift, ← mul_assoc]
  simp only [decreaseExponent, Nat.shiftLeft_eq, Nat.cast_mul, Nat.cast_pow, Nat.cast_ofNat]

/-- A signed mantissa and an exponent are rounded to the canonical form of the rounded value. -/
theorem round_holds (s : Sign) {m : ℕ} (hm : 0 < m) (e : ℤ) :
    Holds (UnpackedFloat.round .binary64 s m e) (rounded (s.apply m * 2 ^ e)) := by
  have hvalue := decreaseExponent_value m e (exponent (m * 2 ^ e))
  have hpos : 0 < (decreaseExponent m e (exponent (m * 2 ^ e))).1 := by
    simp only [decreaseExponent, Nat.shiftLeft_eq]
    positivity
  have hexp : (decreaseExponent m e (exponent (m * 2 ^ e))).2 ≤ exponent (m * 2 ^ e) := by
    simp only [decreaseExponent]
    omega
  have hsigned : (s.apply m * 2 ^ e : ℚ) =
      s.apply (decreaseExponent m e (exponent (m * 2 ^ e))).1 *
        2 ^ (decreaseExponent m e (exponent (m * 2 ^ e))).2 := by
    rw [apply_eq_mul, apply_eq_mul, hvalue]
  simp only [UnpackedFloat.round, targetExponent_eq_exponent hm]
  rw [hsigned]
  exact roundWithAccuracy_exact_holds s hpos (by rwa [hvalue])

/-- A sum or difference of mantissas is rounded in the same way. -/
theorem normalize_holds (m e : ℤ) (s : Sign) :
    Holds (UnpackedFloat.normalize .binary64 m e s) (rounded (m * 2 ^ e)) := by
  rcases lt_trichotomy m 0 with hneg | rfl | hpos
  · have habs : ((-m).toNat : ℤ) = -m := Int.toNat_of_nonneg (by omega)
    have hround := round_holds .negative (m := (-m).toNat) (by omega) e
    rw [Sign.apply, habs, neg_neg] at hround
    rw [UnpackedFloat.normalize, compare_lt_iff_lt.mpr hneg]
    exact hround
  · rw [UnpackedFloat.normalize, compare_eq_iff_eq.mpr rfl]
    simpa using Holds.zero s
  · have habs : (m.toNat : ℤ) = m := Int.toNat_of_nonneg (by omega)
    have hround := round_holds .positive (m := m.toNat) (by omega) e
    rw [Sign.apply, habs] at hround
    rw [UnpackedFloat.normalize, compare_gt_iff_gt.mpr hpos]
    exact hround

end Double
end Artwork
