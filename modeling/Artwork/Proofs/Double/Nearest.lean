import Artwork.Proofs.Double.Scientific
import Artwork.Proofs.Decimal.Shortest

/-!
# What rounds to a double

A rational is rounded to a double exactly when it lies in the interval of it; here the half of this
that printing rests on is proved (`rounded_of_inside`), along with the ends of the range: what is
below half of the least subnormal is rounded to zero.
-/

namespace Artwork
namespace Double

open Float.Model Float.Model.UnpackedFloat

/-- Within half a unit of an integer it is the nearest one, and at half a unit when it is even. -/
theorem nearestEven_eq {n : ℤ} {q : ℚ} (hlow : n - 1 / 2 ≤ q) (hhigh : q ≤ n + 1 / 2)
    (htie : n % 2 = 0 ∨ n - 1 / 2 < q ∧ q < n + 1 / 2) : nearestEven q = n := by
  rcases le_or_gt (n : ℚ) q with hge | hlt
  · have hfloor : ⌊q⌋ = n := by
      rw [Int.floor_eq_iff]
      constructor <;> linarith
    unfold nearestEven
    rw [hfloor]
    split_ifs
    · rfl
    · exfalso
      linarith
    · rcases htie with heven | ⟨-, hstrict⟩
      · omega
      · exfalso
        linarith
  · have hfloor : ⌊q⌋ = n - 1 := by
      rw [Int.floor_eq_iff]
      push_cast
      constructor <;> linarith
    unfold nearestEven
    rw [hfloor]
    push_cast
    split_ifs
    · exfalso
      linarith
    · omega
    · rcases htie with heven | ⟨hstrict, -⟩
      · omega
      · exfalso
        linarith

theorem rounded_of_tiny {q : ℚ} (hq : 0 < q) (h : q < 2 ^ (-1075 : ℤ)) : rounded q = 0 := by
  have hlog : Int.log 2 q < -1075 :=
    (Int.lt_zpow_iff_log_lt (by decide) hq).mp (by exact_mod_cast h)
  have hexp : exponent q = -1074 := by
    unfold exponent
    rw [abs_of_pos hq]
    omega
  have hquot : q / 2 ^ (-1074 : ℤ) < 1 / 2 := by
    rw [div_lt_iff₀ (twoPow_pos _)]
    calc q < 2 ^ (-1075 : ℤ) := h
      _ = 1 / 2 * 2 ^ (-1074 : ℤ) := by
        rw [show (-1074 : ℤ) = 1 + -1075 by rfl, twoPow_add, zpow_one, ← mul_assoc, one_div,
          inv_mul_cancel₀ two_ne_zero, one_mul]
  have hnear : nearestEven (q / 2 ^ (-1074 : ℤ)) = 0 := by
    have hpos := div_pos hq (twoPow_pos (-1074))
    generalize q / 2 ^ (-1074 : ℤ) = r at hquot hpos
    refine nearestEven_eq ?_ ?_ (.inl rfl) <;> push_cast <;> linarith
  unfold rounded significand
  rw [hexp, hnear, Int.cast_zero, zero_mul]

theorem rounded_of_nearestEven {q : ℚ} {n e : ℤ} (hexp : exponent q = e)
    (hnear : nearestEven (q / 2 ^ e) = n) : rounded q = n * 2 ^ e := by
  rw [rounded, significand, hexp, hnear]

open Decimal

/-- The ends of an interval in steps: half a step on either side, and a quarter below a power of
two. -/
theorem quotient_of_inside {m : ℕ} {e : ℤ} {q : ℚ}
    (h : (Interval.ofBinary m e).Inside q) :
    (m - 1 / 2 ≤ q / 2 ^ e ∧ q / 2 ^ e ≤ m + 1 / 2) ∧
      (m % 2 = 0 ∨ m - 1 / 2 < q / 2 ^ e ∧ q / 2 ^ e < m + 1 / 2) ∧
      (m = 2 ^ 52 → -1074 < e → m - 1 / 4 ≤ q / 2 ^ e) := by
  have hscale := twoPow_pos e
  have hquarter (k : ℕ) : k * (Interval.ofBinary m e).unit = k / 4 * 2 ^ e := by
    rw [Interval.unit_ofBinary, zpow_sub₀ two_ne_zero]
    ring
  have hlow : (m - 1 / 2 : ℚ) ≤ (Interval.ofBinary m e).low / 4 := by
    have hnat : 4 * m ≤ (Interval.ofBinary m e).low + 2 := by
      simp only [Interval.ofBinary]
      split_ifs <;> omega
    have hcast : (4 * m : ℚ) ≤ (Interval.ofBinary m e).low + 2 := by exact_mod_cast hnat
    linarith
  have hnarrow : m = 2 ^ 52 → -1074 < e →
      (m - 1 / 4 : ℚ) ≤ (Interval.ofBinary m e).low / 4 := by
    intro hpow hmin
    have hnat : 4 * m ≤ (Interval.ofBinary m e).low + 1 := by
      simp only [Interval.ofBinary]
      rw [if_pos ⟨hpow, hmin⟩]
      omega
    have hcast : (4 * m : ℚ) ≤ (Interval.ofBinary m e).low + 1 := by exact_mod_cast hnat
    linarith
  have hhigh : ((Interval.ofBinary m e).high : ℚ) / 4 = m + 1 / 2 := by
    show ((4 * m + 2 : ℕ) : ℚ) / 4 = _
    push_cast
    ring
  unfold Interval.Inside at h
  rw [hquarter, hquarter, hhigh, ← le_div_iff₀ hscale, ← div_le_iff₀ hscale, ← lt_div_iff₀ hscale,
    ← div_lt_iff₀ hscale] at h
  split_ifs at h with hclosed
  · have heven : m % 2 = 0 := of_decide_eq_true hclosed
    exact ⟨⟨hlow.trans h.1, h.2⟩, .inl heven, fun hpow hmin => (hnarrow hpow hmin).trans h.1⟩
  · exact ⟨⟨hlow.trans h.1.le, h.2.le⟩, .inr ⟨hlow.trans_lt h.1, h.2⟩,
      fun hpow hmin => (hnarrow hpow hmin).trans h.1.le⟩

/-- Below a power of two the steps are half as long, and the last one carries. -/
theorem rounded_of_narrow {e : ℤ} (he : -1074 < e) {q : ℚ} (hlow : 2 ^ 52 - 1 / 4 ≤ q / 2 ^ e)
    (hhigh : q / 2 ^ e < 2 ^ 52) : rounded q = 2 ^ 52 * 2 ^ e := by
  have hscale := twoPow_pos (e - 1)
  have hsplit : (2 : ℚ) ^ e = 2 * 2 ^ (e - 1) := by
    rw [← zpow_one_add₀ two_ne_zero, add_sub_cancel]
  have hdouble : q / 2 ^ (e - 1) = 2 * (q / 2 ^ e) := by
    rw [hsplit]
    field_simp
  have hexp : exponent q = e - 1 := by
    have hlow' : ((2 ^ 53 - 1 : ℕ) : ℚ) ≤ q / 2 ^ (e - 1) := by
      norm_num
      linarith
    have hhigh' : q / 2 ^ (e - 1) < (2 ^ 53 - 1 : ℕ) + 1 := by
      norm_num
      linarith
    have hlog : (2 ^ 53 - 1).log2 = 52 := by decide
    rw [exponent_of_mem (by decide) ((le_div_iff₀ hscale).mp hlow')
      ((div_lt_iff₀ hscale).mp hhigh'), hlog]
    omega
  have hnear : nearestEven (q / 2 ^ (e - 1)) = 2 ^ 53 := by
    refine nearestEven_eq ?_ ?_ (.inl rfl) <;> rw [hdouble] <;> push_cast <;> linarith
  rw [rounded_of_nearestEven hexp hnear, hsplit]
  push_cast
  ring

/-- Whatever is inside the interval of a double is rounded to it. -/
theorem rounded_of_inside {m : ℕ} (hm : 0 < m) {e : ℤ} (he : exponent (m * 2 ^ e) = e) {q : ℚ}
    (h : (Interval.ofBinary m e).Inside q) : rounded q = m * 2 ^ e := by
  obtain ⟨⟨hlow, hhigh⟩, htie, hnarrow⟩ := quotient_of_inside h
  have hscale := twoPow_pos e
  have hone : (1 : ℚ) ≤ m := by exact_mod_cast hm
  have hnear : nearestEven (q / 2 ^ e) = m :=
    nearestEven_eq hlow hhigh (htie.imp_left fun heven => by omega)
  have hlog := (exponent_natCast_mul hm e).symm.trans he
  rcases le_or_gt (m : ℚ) (q / 2 ^ e) with hge | hlt
  · -- Above the double the exponent is the same.
    have hhigh' : q / 2 ^ e < m + 1 := by linarith
    have hexp := exponent_of_mem hm ((le_div_iff₀ hscale).mp hge) ((div_lt_iff₀ hscale).mp hhigh')
    exact_mod_cast rounded_of_nearestEven (hexp.trans hlog) hnear
  · by_cases hpow : m = 2 ^ 52 ∧ -1074 < e
    · obtain ⟨rfl, hmin⟩ := hpow
      have hquarter := hnarrow rfl hmin
      push_cast at hquarter hlt ⊢
      exact rounded_of_narrow hmin hquarter hlt
    · have hhalf : 0 < q / 2 ^ e := by linarith
      have hpos : 0 < q := (div_pos_iff_of_pos_right hscale).mp hhalf
      have hmono := (exponent_mono hpos ((div_lt_iff₀ hscale).mp hlt).le).trans_eq he
      have hmin : -1074 ≤ exponent q := le_max_right _ _
      have hexp : exponent q = e := by
        by_cases hleast : e = -1074
        · omega
        · -- The significand has all its bits and is not the least, so one less has them too.
          have hfull : 2 ^ 52 ≤ m := (Nat.le_log2 hm.ne').mp (by omega)
          have hmore : (2 ^ 52 + 1 : ℚ) ≤ m := by
            exact_mod_cast (by omega : 2 ^ 52 + 1 ≤ m)
          have hle : (2 : ℚ) ^ (52 + e) ≤ q := by
            rw [twoPow_add, ← le_div_iff₀ hscale, show (2 : ℚ) ^ (52 : ℤ) = 2 ^ 52 from rfl]
            linarith
          have hge := le_exponent hpos hle
          omega
      exact_mod_cast rounded_of_nearestEven hexp hnear

end Double
end Artwork
