import Mathlib.Data.Int.Log
import Mathlib.Data.Rat.Floor
import Mathlib.Tactic.Linarith

/-!
# Rounding a rational to double precision

The doubles around a rational `q` are the multiples of `2 ^ exponent q`, so `q` is rounded by
rounding its quotient to the nearest integer, halves to the even one.  The range is left open above:
what a double cannot hold for its size is dealt with where results are stored.
-/

namespace Artwork
namespace Double

/-- The nearest integer; of the two around a half, the even one. -/
def nearestEven (q : ℚ) : ℤ :=
  if q - ⌊q⌋ < 1 / 2 then ⌊q⌋ else if 1 / 2 < q - ⌊q⌋ then ⌊q⌋ + 1 else ⌊q⌋ + ⌊q⌋ % 2

theorem floor_le_nearestEven (q : ℚ) : ⌊q⌋ ≤ nearestEven q := by
  have hmod := Int.emod_nonneg ⌊q⌋ (by decide : (2 : ℤ) ≠ 0)
  unfold nearestEven
  split_ifs <;> omega

theorem nearestEven_le_floor_add_one (q : ℚ) : nearestEven q ≤ ⌊q⌋ + 1 := by
  have hmod := Int.emod_lt_of_pos ⌊q⌋ (by decide : (0 : ℤ) < 2)
  unfold nearestEven
  split_ifs <;> omega

@[simp]
theorem nearestEven_intCast (n : ℤ) : nearestEven n = n := by
  simp [nearestEven]

theorem nearestEven_mono {p q : ℚ} (h : p ≤ q) : nearestEven p ≤ nearestEven q := by
  rcases (Int.floor_mono h).lt_or_eq with hlt | heq
  · have hp := nearestEven_le_floor_add_one p
    have hq := floor_le_nearestEven q
    omega
  · -- Over one integer the three outcomes stand in the order of the three conditions.
    have hmod := Int.emod_nonneg ⌊q⌋ (by decide : (2 : ℤ) ≠ 0)
    have hmod' := Int.emod_lt_of_pos ⌊q⌋ (by decide : (0 : ℤ) < 2)
    unfold nearestEven
    rw [heq]
    split_ifs <;> first | omega | (exfalso; linarith)

theorem nearestEven_neg (q : ℚ) : nearestEven (-q) = -nearestEven q := by
  by_cases hq : q = ⌊q⌋
  · rw [hq, ← Int.cast_neg, nearestEven_intCast, nearestEven_intCast]
  · have hlow : (⌊q⌋ : ℚ) < q := lt_of_le_of_ne (Int.floor_le q) (Ne.symm hq)
    have hhigh := Int.lt_floor_add_one q
    have hfloor : ⌊-q⌋ = -⌊q⌋ - 1 := by
      rw [Int.floor_eq_iff]
      push_cast
      constructor <;> linarith
    unfold nearestEven
    rw [hfloor]
    push_cast
    split_ifs <;> first | omega | (exfalso; linarith)

theorem nearestEven_error (q : ℚ) : |(nearestEven q : ℚ) - q| ≤ 1 / 2 := by
  have hlow := Int.floor_le q
  have hhigh := Int.lt_floor_add_one q
  unfold nearestEven
  rw [abs_le]
  split_ifs with hbelow habove
  · constructor <;> linarith
  · push_cast
    constructor <;> linarith
  · -- In the middle both neighbours are half a unit away.
    rcases Int.emod_two_eq_zero_or_one ⌊q⌋ with heven | hodd
    · rw [heven, add_zero]
      constructor <;> linarith
    · rw [hodd]
      push_cast
      constructor <;> linarith

/-- The exponent of the doubles around `q`: their significands have 53 bits, and there are none
below the least subnormal. -/
def exponent (q : ℚ) : ℤ := max (Int.log 2 |q| - 52) (-1074)

def significand (q : ℚ) : ℤ := nearestEven (q / 2 ^ exponent q)

/-- The double nearest to `q`, as a rational. -/
def rounded (q : ℚ) : ℚ := significand q * 2 ^ exponent q

theorem twoPow_pos (e : ℤ) : (0 : ℚ) < 2 ^ e := zpow_pos two_pos e

theorem twoPow_add (d e : ℤ) : (2 : ℚ) ^ (d + e) = 2 ^ d * 2 ^ e :=
  zpow_add₀ (by norm_num) d e

theorem twoPow_mono {d e : ℤ} (h : d ≤ e) : (2 : ℚ) ^ d ≤ 2 ^ e :=
  zpow_le_zpow_right₀ (by norm_num) h

@[simp]
theorem exponent_neg (q : ℚ) : exponent (-q) = exponent q := by
  simp [exponent]

theorem exponent_mono {p q : ℚ} (hp : 0 < p) (h : p ≤ q) : exponent p ≤ exponent q := by
  have hlog : Int.log 2 p ≤ Int.log 2 q := Int.log_mono_right hp h
  unfold exponent
  rw [abs_of_pos hp, abs_of_pos (hp.trans_le h)]
  omega

theorem lt_twoPow_exponent {q : ℚ} (hq : 0 < q) : q < 2 ^ (53 + exponent q) := by
  have hlog : q < 2 ^ (Int.log 2 q + 1) := by
    exact_mod_cast Int.lt_zpow_succ_log_self (by decide : 1 < 2) q
  refine hlog.trans_le (twoPow_mono ?_)
  unfold exponent
  rw [abs_of_pos hq]
  omega

/-- Above the subnormals a significand has all its bits. -/
theorem twoPow_exponent_le {q : ℚ} (hq : 0 < q) (he : -1074 < exponent q) :
    2 ^ (52 + exponent q) ≤ q := by
  have hlog : (2 : ℚ) ^ Int.log 2 q ≤ q := by
    exact_mod_cast Int.zpow_log_le_self (by decide : 1 < 2) hq
  have hexp : 52 + exponent q = Int.log 2 q := by
    unfold exponent at he ⊢
    rw [abs_of_pos hq] at he ⊢
    omega
  rwa [hexp]

theorem significand_le {q : ℚ} (hq : 0 < q) : significand q ≤ 2 ^ 53 := by
  have hquot : q / 2 ^ exponent q ≤ ((2 ^ 53 : ℤ) : ℚ) := by
    rw [div_le_iff₀ (twoPow_pos _)]
    have hlt := lt_twoPow_exponent hq
    rw [twoPow_add] at hlt
    exact_mod_cast hlt.le
  have hnear := nearestEven_mono hquot
  rwa [nearestEven_intCast] at hnear

theorem le_significand {q : ℚ} (hq : 0 < q) (he : -1074 < exponent q) : 2 ^ 52 ≤ significand q := by
  have hquot : ((2 ^ 52 : ℤ) : ℚ) ≤ q / 2 ^ exponent q := by
    rw [le_div_iff₀ (twoPow_pos _)]
    have hle := twoPow_exponent_le hq he
    rw [twoPow_add] at hle
    exact_mod_cast hle
  have hnear := nearestEven_mono hquot
  rwa [nearestEven_intCast] at hnear

theorem significand_nonneg {q : ℚ} (hq : 0 ≤ q) : 0 ≤ significand q := by
  have hquot : ((0 : ℤ) : ℚ) ≤ q / 2 ^ exponent q := by
    simpa using div_nonneg hq (twoPow_pos _).le
  have hnear := nearestEven_mono hquot
  rwa [nearestEven_intCast] at hnear

@[simp]
theorem rounded_zero : rounded 0 = 0 := by
  have hnear : nearestEven 0 = 0 := by exact_mod_cast nearestEven_intCast 0
  simp [rounded, significand, hnear]

theorem rounded_neg (q : ℚ) : rounded (-q) = -rounded q := by
  simp [rounded, significand, neg_div, nearestEven_neg]

theorem rounded_nonneg {q : ℚ} (hq : 0 ≤ q) : 0 ≤ rounded q :=
  mul_nonneg (by exact_mod_cast significand_nonneg hq) (twoPow_pos _).le

theorem rounded_le_twoPow {q : ℚ} (hq : 0 < q) : rounded q ≤ 2 ^ (53 + exponent q) := by
  rw [twoPow_add]
  exact mul_le_mul_of_nonneg_right (by exact_mod_cast significand_le hq) (twoPow_pos _).le

theorem twoPow_le_rounded {q : ℚ} (hq : 0 < q) (he : -1074 < exponent q) :
    2 ^ (52 + exponent q) ≤ rounded q := by
  rw [twoPow_add]
  exact mul_le_mul_of_nonneg_right (by exact_mod_cast le_significand hq he) (twoPow_pos _).le

theorem rounded_mono_of_pos {p q : ℚ} (hp : 0 < p) (h : p ≤ q) : rounded p ≤ rounded q := by
  rcases (exponent_mono hp h).lt_or_eq with hlt | heq
  · -- A power of two stands between the results when the exponents differ.
    have hlow : -1074 ≤ exponent p := le_max_right _ _
    calc rounded p ≤ 2 ^ (53 + exponent p) := rounded_le_twoPow hp
      _ ≤ 2 ^ (52 + exponent q) := twoPow_mono (by omega)
      _ ≤ rounded q := twoPow_le_rounded (hp.trans_le h) (by omega)
  · have hscale := twoPow_pos (exponent q)
    have hnear : nearestEven (p / 2 ^ exponent q) ≤ nearestEven (q / 2 ^ exponent q) :=
      nearestEven_mono (div_le_div_of_nonneg_right h hscale.le)
    unfold rounded significand
    rw [heq]
    exact mul_le_mul_of_nonneg_right (by exact_mod_cast hnear) hscale.le

/-- Rounding keeps order. -/
theorem rounded_mono {p q : ℚ} (h : p ≤ q) : rounded p ≤ rounded q := by
  rcases lt_trichotomy 0 p with hp | rfl | hp
  · exact rounded_mono_of_pos hp h
  · rw [rounded_zero]
    exact rounded_nonneg h
  · rcases le_or_gt 0 q with hq | hq
    · have hneg := rounded_nonneg (neg_nonneg.mpr hp.le)
      rw [rounded_neg] at hneg
      have hpos := rounded_nonneg hq
      linarith
    · have hneg := rounded_mono_of_pos (neg_pos.mpr hq) (neg_le_neg h)
      rw [rounded_neg, rounded_neg] at hneg
      linarith

/-- Rounding moves a value by no more than half of the space between its neighbours. -/
theorem rounded_error {q : ℚ} {k : ℤ} (hk : -1021 ≤ k) (h : |q| < 2 ^ k) :
    |rounded q - q| ≤ 2 ^ (k - 54) := by
  rcases eq_or_ne q 0 with rfl | hq
  · rw [rounded_zero, sub_self, abs_zero]
    exact (twoPow_pos _).le
  · have hscale := twoPow_pos (exponent q)
    have hlog : Int.log 2 |q| < k :=
      (Int.lt_zpow_iff_log_lt (by decide) (abs_pos.mpr hq)).mp (by exact_mod_cast h)
    have hexp : exponent q ≤ k - 53 := by
      unfold exponent
      omega
    have hquot : rounded q - q = (nearestEven (q / 2 ^ exponent q) - q / 2 ^ exponent q) *
        2 ^ exponent q := by
      rw [sub_mul, div_mul_cancel₀ q hscale.ne']
      rfl
    calc |rounded q - q|
        = |(nearestEven (q / 2 ^ exponent q) : ℚ) - q / 2 ^ exponent q| * 2 ^ exponent q := by
          rw [hquot, abs_mul, abs_of_pos hscale]
      _ ≤ 1 / 2 * 2 ^ exponent q := mul_le_mul_of_nonneg_right (nearestEven_error _) hscale.le
      _ ≤ 1 / 2 * 2 ^ (k - 53) := mul_le_mul_of_nonneg_left (twoPow_mono hexp) (by norm_num)
      _ = 2 ^ (k - 54) := by
          rw [show k - 53 = 1 + (k - 54) by omega, twoPow_add, zpow_one, ← mul_assoc,
            div_mul_cancel₀ _ two_ne_zero, one_mul]

/-- A multiple of the power of two its size asks for is not moved, nor one of a larger power. -/
theorem rounded_of_exponent_le {m e : ℤ} (h : exponent (m * 2 ^ e) ≤ e) :
    rounded (m * 2 ^ e) = m * 2 ^ e := by
  obtain ⟨k, hk⟩ := Int.le.dest h
  have hscale := (twoPow_pos (exponent (m * 2 ^ e))).ne'
  have hquot : (m * 2 ^ e / 2 ^ exponent (m * 2 ^ e) : ℚ) = (m * 2 ^ k : ℤ) := by
    have hsplit : (2 : ℚ) ^ e = 2 ^ (k : ℤ) * 2 ^ exponent (m * 2 ^ e) := by
      rw [← twoPow_add, add_comm, hk]
    rw [div_eq_iff hscale]
    push_cast
    rw [mul_assoc, ← zpow_natCast, ← hsplit]
  unfold rounded significand
  rw [hquot, nearestEven_intCast, ← hquot, div_mul_cancel₀ _ hscale]

theorem rounded_of_exponent {m e : ℤ} (h : exponent (m * 2 ^ e) = e) :
    rounded (m * 2 ^ e) = m * 2 ^ e :=
  rounded_of_exponent_le h.le

end Double
end Artwork
