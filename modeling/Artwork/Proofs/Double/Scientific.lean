import Artwork.Proofs.Double.Line

/-!
# Doubles in scientific notation

Products and quotients of doubles are rounded once, and so is `Float.ofScientific`, on
either of its ways: it gives the double nearest to `m * 10 ^ e`.
-/

namespace Artwork
namespace Double

open Float.Model Float.Model.UnpackedFloat

/-! ## Products and quotients -/

theorem le_exponent {q : ℚ} (hq : 0 < q) {k : ℤ} (h : (2 : ℚ) ^ k ≤ q) : k - 52 ≤ exponent q := by
  have hlog : k ≤ Int.log 2 q :=
    (Int.zpow_le_iff_le_log (by decide) hq).mp (by exact_mod_cast h)
  unfold exponent
  rw [abs_of_pos hq]
  omega

theorem twoPow_log2_le {m : ℕ} (hm : 0 < m) (e : ℤ) : (2 : ℚ) ^ (m.log2 + e) ≤ m * 2 ^ e := by
  rw [twoPow_add, zpow_natCast]
  refine mul_le_mul_of_nonneg_right ?_ (twoPow_pos e).le
  exact_mod_cast Nat.log2_self_le hm.ne'

theorem lt_twoPow_log2 {m : ℕ} (e : ℤ) : (m * 2 ^ e : ℚ) < 2 ^ (m.log2 + 1 + e) := by
  rw [show (m.log2 + 1 + e : ℤ) = (m.log2 + 1 : ℕ) + e by push_cast; ring, twoPow_add, zpow_natCast]
  refine mul_lt_mul_of_pos_right ?_ (twoPow_pos e)
  exact_mod_cast Nat.lt_log2_self

theorem apply_mul_one (s t : Sign) : (s * t).apply 1 = s.apply 1 * t.apply 1 := by
  cases s <;> cases t <;> rfl

theorem apply_div_one (s t : Sign) : (s / t).apply 1 = s.apply 1 * t.apply 1 := by
  cases s <;> cases t <;> rfl

theorem apply_one_mul_self (s : Sign) : s.apply 1 * s.apply 1 = 1 := by
  cases s <;> rfl

theorem mul_finite_holds (s t : Sign) {m n : ℕ} (hm : 0 < m) (hn : 0 < n) {d e : ℤ}
    (he : d + e ≤ exponent (m * 2 ^ d * (n * 2 ^ e))) :
    Holds (UnpackedFloat.mul .binary64 (.finite s m d hm) (.finite t n e hn))
      (rounded (s.apply m * 2 ^ d * (t.apply n * 2 ^ e))) := by
  have hvalue : (m * 2 ^ d * (n * 2 ^ e) : ℚ) = (m * n : ℕ) * 2 ^ (d + e) := by
    rw [twoPow_add]
    push_cast
    ring
  have hsigned : (s.apply m * 2 ^ d * (t.apply n * 2 ^ e) : ℚ) =
      (s * t).apply (m * n : ℕ) * 2 ^ (d + e) := by
    rw [apply_eq_mul s, apply_eq_mul t, apply_eq_mul (s * t), apply_mul_one, ← hvalue]
    push_cast
    ring
  rw [hvalue] at he
  rw [hsigned]
  exact roundWithAccuracy_exact_holds (s * t) (Nat.mul_pos hm hn) he

/-- Which part of the divisor is left over says where the quotient stands. -/
theorem stands_div (m : ℕ) {n : ℕ} (hn : 0 < n) :
    Stands (.ofMantissaAndAccuracy (m / n) (accuracyOfFraction (m % n) n)) (m / n) := by
  have hpos : (0 : ℚ) < n := by exact_mod_cast hn
  have hsplit : (m / n : ℚ) = (m / n : ℕ) + ((m % n : ℕ) : ℚ) / n := by
    rw [div_eq_iff hpos.ne', add_mul, div_mul_cancel₀ _ hpos.ne']
    exact_mod_cast (Nat.div_add_mod' m n).symm
  have hlt : ((m % n : ℕ) : ℚ) / n < 1 := by
    rw [div_lt_one hpos]
    exact_mod_cast Nat.mod_lt m hn
  rw [hsplit]
  unfold accuracyOfFraction
  split_ifs with hzero
  · rw [hzero, Nat.cast_zero, zero_div, add_zero]
    exact Stands.exact _
  · have hrest : (0 : ℚ) < ((m % n : ℕ) : ℚ) / n :=
      div_pos (by exact_mod_cast Nat.pos_of_ne_zero hzero) hpos
    rcases lt_trichotomy (2 * (m % n)) n with hcase | hcase | hcase
    · have hhalf : ((m % n : ℕ) : ℚ) / n < 1 / 2 := by
        rw [div_lt_div_iff₀ hpos two_pos]
        exact_mod_cast (by omega : m % n * 2 < 1 * n)
      rw [compare_lt_iff_lt.mpr hcase]
      constructor <;> linarith
    · have hhalf : ((m % n : ℕ) : ℚ) / n = 1 / 2 := by
        rw [div_eq_div_iff hpos.ne' two_ne_zero]
        exact_mod_cast (by omega : m % n * 2 = 1 * n)
      rw [compare_eq_iff_eq.mpr hcase, hhalf]
      rfl
    · have hhalf : 1 / 2 < ((m % n : ℕ) : ℚ) / n := by
        rw [div_lt_div_iff₀ two_pos hpos]
        exact_mod_cast (by omega : 1 * n < m % n * 2)
      rw [compare_gt_iff_gt.mpr hcase]
      constructor <;> linarith

theorem div_finite_holds (s s' : Sign) {m n : ℕ} (hm : 0 < m) (hn : 0 < n) (d e : ℤ) :
    Holds (UnpackedFloat.div .binary64 (.finite s m d hm) (.finite s' n e hn))
      (rounded (s.apply m * 2 ^ d / (s'.apply n * 2 ^ e))) := by
  have hn' : (0 : ℚ) < n := by exact_mod_cast hn
  have hq : (0 : ℚ) < m * 2 ^ d / (n * 2 ^ e) := div_pos (value_pos hm d) (value_pos hn e)
  obtain ⟨t, ht⟩ : ∃ t, t = min (d - e)
    (Format.binary64.targetExponent (totalExponent m d - totalExponent n e)) := ⟨_, rfl⟩
  obtain ⟨k, hk⟩ : ∃ k : ℕ, d - e - t = k := Int.eq_ofNat_of_zero_le (by omega)
  -- The dividend gets as many more bits as the quotient needs.
  have hquot : (m * 2 ^ d / (n * 2 ^ e) / 2 ^ t : ℚ) = (m <<< k : ℕ) / n := by
    have hsplit : (2 : ℚ) ^ d = 2 ^ (k : ℤ) * 2 ^ t * 2 ^ e := by
      rw [← twoPow_add, ← twoPow_add]
      congr 1
      omega
    have ht' := (twoPow_pos t).ne'
    have he' := (twoPow_pos e).ne'
    rw [hsplit, Nat.shiftLeft_eq, zpow_natCast]
    push_cast
    field_simp
  have hexp : t ≤ exponent (m * 2 ^ d / (n * 2 ^ e)) := by
    have hlow : (2 : ℚ) ^ (m.log2 + d - (n.log2 + 1 + e)) ≤ m * 2 ^ d / (n * 2 ^ e) := by
      rw [zpow_sub₀ two_ne_zero]
      exact div_le_div₀ (value_pos hm d).le (twoPow_log2_le hm d) (value_pos hn e)
        (lt_twoPow_log2 e).le
    have hge := le_exponent hq hlow
    have hmin : -1074 ≤ exponent (m * 2 ^ d / (n * 2 ^ e)) := le_max_right _ _
    have htarget : Format.binary64.targetExponent (totalExponent m d - totalExponent n e) =
        max (m.log2 + 1 + d - (n.log2 + 1 + e) - 53) (-1074) := rfl
    omega
  have hstands : Stands (.ofMantissaAndAccuracy (m <<< k / n)
      (accuracyOfFraction (m <<< k % n) n)) (m * 2 ^ d / (n * 2 ^ e) / 2 ^ t) := by
    rw [hquot]
    exact stands_div (m <<< k) hn
  have hamount : (d - e - t).toNat = k := by omega
  have hsigned : (s.apply m * 2 ^ d / (s'.apply n * 2 ^ e) : ℚ) =
      (s / s').apply 1 * (m * 2 ^ d / (n * 2 ^ e)) := by
    have hunit : (s'.apply 1 : ℚ)⁻¹ = s'.apply 1 :=
      inv_eq_of_mul_eq_one_left (by exact_mod_cast apply_one_mul_self s')
    rw [apply_eq_mul s, apply_eq_mul s', apply_div_one, mul_div_mul_comm, div_eq_mul_inv, hunit]
    push_cast
    rfl
  rw [hsigned]
  simp only [UnpackedFloat.div, divCore, ← ht, hamount]
  exact roundWithAccuracy_holds (s / s') hq hstands hexp

theorem exponent_add_le {m n : ℕ} {d e : ℤ} (hm : 0 < m) (hn : 0 < n)
    (hp : exponent (m * 2 ^ d) = d) (hq : exponent (n * 2 ^ e) = e) :
    d + e ≤ exponent (m * 2 ^ d * (n * 2 ^ e)) := by
  have hlow : (2 : ℚ) ^ (m.log2 + d + (n.log2 + e)) ≤ m * 2 ^ d * (n * 2 ^ e) := by
    rw [twoPow_add]
    exact mul_le_mul (twoPow_log2_le hm d) (twoPow_log2_le hn e) (twoPow_pos _).le
      (value_pos hm d).le
  have hge := le_exponent (mul_pos (value_pos hm d) (value_pos hn e)) hlow
  have hmin : -1074 ≤ exponent (m * 2 ^ d * (n * 2 ^ e)) := le_max_right _ _
  rw [exponent_natCast_mul hm] at hp
  rw [exponent_natCast_mul hn] at hq
  omega

/-- The product of two canonical doubles, before it is stored. -/
theorem Holds.mul {u v : UnpackedFloat} {p q : ℚ} (hu : Holds u p) (hv : Holds v q) :
    Holds (UnpackedFloat.mul .binary64 u v) (rounded (p * q)) := by
  cases hu with
  | zero s =>
    rw [zero_mul, rounded_zero]
    cases hv <;> exact Holds.zero _
  | finite s m d hm hd =>
    cases hv with
    | zero t =>
      rw [mul_zero, rounded_zero]
      exact Holds.zero _
    | finite t n e hn he => exact mul_finite_holds s t hm hn (exponent_add_le hm hn hd he)

theorem Holds.div {u v : UnpackedFloat} {p q : ℚ} (hu : Holds u p) (hv : Holds v q) (hq : q ≠ 0) :
    Holds (UnpackedFloat.div .binary64 u v) (rounded (p / q)) := by
  cases hv with
  | zero t => exact absurd rfl hq
  | finite t n e hn he =>
    cases hu with
    | zero s =>
      rw [zero_div, rounded_zero]
      exact Holds.zero _
    | finite s m d hm hd => exact div_finite_holds s t hm hn d e

theorem Stored.holds {u : UnpackedFloat} {q : ℚ} (h : Stored u q) (hq : |q| < limit) :
    Holds u q := by
  cases h with
  | infinity s =>
    rw [abs_apply_mul, abs_of_pos limit_pos] at hq
    exact absurd hq (lt_irrefl _)
  | finite hu _ => exact hu

theorem At.mul {x y : Float} {p q : ℚ} (hx : At x p) (hy : At y q) (hp : |p| < limit)
    (hq : |q| < limit) : At (x * y) (clamped (rounded (p * q))) :=
  ((Stored.holds hx hp).mul (Stored.holds hy hq)).stored

theorem At.div {x y : Float} {p q : ℚ} (hx : At x p) (hy : At y q) (hp : |p| < limit)
    (hq : |q| < limit) (hne : q ≠ 0) : At (x / y) (clamped (rounded (p / q))) :=
  ((Stored.holds hx hp).div (Stored.holds hy hq) hne).stored

/-! ## Scientific notation -/

theorem rounded_natCast {m : ℕ} (hm : m < 2 ^ 53) : rounded m = m := by
  rcases Nat.eq_zero_or_pos m with rfl | hpos
  · exact_mod_cast rounded_zero
  · have hlog := (Nat.log2_lt hpos.ne').mpr hm
    have hexp := exponent_natCast_mul hpos 0
    have hle := rounded_of_exponent_le (m := m) (e := 0) (by
      rw [Int.cast_natCast, hexp]
      omega)
    simpa using hle

theorem abs_natCast_lt_limit {m : ℕ} (hm : m < 2 ^ 74) : |(m : ℚ)| < limit :=
  calc |(m : ℚ)| = m := abs_of_nonneg (Nat.cast_nonneg m)
    _ < 2 ^ (74 : ℕ) := by exact_mod_cast hm
    _ = 2 ^ (74 : ℤ) := (zpow_natCast 2 74).symm
    _ ≤ limit := twoPow_mono (by decide)

/-- A natural number of at most 53 bits is a double. -/
theorem at_natCast {m : ℕ} (hm : m < 2 ^ 53) : At m.toUInt64.toFloat m := by
  have hnat : m.toUInt64.toNat = m := Nat.mod_eq_of_lt (hm.trans (by decide))
  have habs := abs_natCast_lt_limit (hm.trans (by decide))
  have hstored := (normalize_holds m 0 .positive).stored
  rw [zpow_zero, mul_one, Int.cast_natCast, rounded_natCast hm, clamped_of_abs_lt habs] at hstored
  show Stored (Float.Model.pack
    (UnpackedFloat.normalize .binary64 (m.toUInt64.toNat : ℤ) 0 .positive)).unpack m
  rwa [hnat]

theorem value?_exactPower : ∀ e : Fin Float.exactlyRepresentablePowersOfTen.size,
    (Binary.ofFloat Float.exactlyRepresentablePowersOfTen[e]).value? = some (10 ^ e.val) := by
  decide +kernel

/-- The powers of ten that are doubles. -/
theorem at_exactPower {e : ℕ} (he : e < Float.exactlyRepresentablePowersOfTen.size) :
    At Float.exactlyRepresentablePowersOfTen[e] (10 ^ e) :=
  (stored_of_value? (value?_exactPower ⟨e, he⟩)).1

/-- Beyond the exact powers, one product or quotient of wide mantissas is rounded. -/
theorem ofScientific_holds {m : ℕ} (hm : 0 < m) {k : ℤ} (hhigh : k ≤ 2 ^ 11)
    (hlow : -(2 ^ 11 + m.log2) ≤ k) :
    Holds (UnpackedFloat.ofScientific .binary64 m k) (rounded (m * 10 ^ k)) := by
  have hover : ¬ k > 2 ^ Format.binary64.exponentBits := not_lt.mpr hhigh
  have hunder : ¬ k < -(2 ^ Format.binary64.exponentBits + m.log2) := not_lt.mpr hlow
  unfold UnpackedFloat.ofScientific
  rw [dif_neg hm.ne', if_neg hover, if_neg hunder]
  split_ifs with hsign
  · have hwide : 0 < m <<< 53 := by
      rw [Nat.shiftLeft_eq]
      exact Nat.mul_pos hm (by decide)
    have hvalue : (m * 10 ^ k : ℚ) =
        (m <<< 53 : ℕ) * 2 ^ (-53 : ℤ) * ((10 ^ k.toNat : ℕ) * 2 ^ (0 : ℤ)) := by
      rw [Nat.shiftLeft_eq, zpow_neg, zpow_zero, mul_one, Nat.cast_pow, ← zpow_natCast _ k.toNat,
        Int.toNat_of_nonneg hsign]
      push_cast
      field_simp
    have hone : (2 : ℚ) ^ (0 : ℤ) ≤ m * 10 ^ k := by
      rw [zpow_zero]
      exact one_le_mul_of_one_le_of_one_le (by exact_mod_cast hm)
        (one_le_zpow₀ (by norm_num) hsign)
    have hexp := le_exponent (by positivity) hone
    rw [hvalue] at hexp ⊢
    have hmul := mul_finite_holds .positive .positive hwide
      (Nat.pow_pos (n := k.toNat) (by decide : 0 < 10)) (d := -53) (e := 0) (by omega)
    exact hmul
  · have hvalue : (m * 10 ^ k : ℚ) = m * 2 ^ (0 : ℤ) / ((10 ^ (-k).toNat : ℕ) * 2 ^ (0 : ℤ)) := by
      rw [zpow_zero, mul_one, mul_one, Nat.cast_pow, ← zpow_natCast, Int.toNat_of_nonneg (by omega),
        zpow_neg, div_inv_eq_mul]
      rfl
    rw [hvalue]
    exact div_finite_holds .positive .positive hm (Nat.pow_pos (by decide)) 0 0

/-- A number in scientific notation is read as the double nearest to it. -/
theorem at_ofScientific {m : ℕ} (hm : 0 < m) {k : ℤ} (hhigh : k ≤ 2 ^ 11)
    (hlow : -(2 ^ 11 + m.log2) ≤ k) :
    At (Float.ofScientific m (k < 0) k.natAbs) (clamped (rounded (m * 10 ^ k))) := by
  have hslow := (ofScientific_holds hm hhigh hlow).stored
  by_cases hexact : m < 2 ^ 53 ∧ k.natAbs ≤ 22
  · -- Few digits and a small power are doubles themselves, and one operation rounds once.
    have hten : |(10 ^ k.natAbs : ℚ)| < limit := by
      have hpow : 10 ^ k.natAbs ≤ 10 ^ 22 := Nat.pow_le_pow_right (by decide) hexact.2
      exact_mod_cast abs_natCast_lt_limit (hpow.trans_lt (by decide))
    have hfew := abs_natCast_lt_limit (hexact.1.trans (by decide))
    have hpower := at_exactPower (Nat.lt_succ_of_le hexact.2)
    simp only [Float.ofScientific, hexact, and_self, ↓reduceDIte, decide_eq_true_eq]
    split_ifs with hsign
    · have hquot := (at_natCast hexact.1).div hpower hfew hten (by positivity)
      rwa [div_eq_mul_inv, ← zpow_natCast, ← zpow_neg,
        show -(k.natAbs : ℤ) = k by omega] at hquot
    · have hprod := (at_natCast hexact.1).mul hpower hfew hten
      rwa [← zpow_natCast, show (k.natAbs : ℤ) = k by omega] at hprod
  · simp only [Float.ofScientific, hexact, ↓reduceDIte, decide_eq_true_eq]
    split_ifs with hsign
    · rwa [show Int.negOfNat k.natAbs = k by rw [Int.negOfNat_eq, Int.ofNat_eq_natCast]; omega]
    · rwa [show Int.ofNat k.natAbs = k by rw [Int.ofNat_eq_natCast]; omega]

end Double
end Artwork
