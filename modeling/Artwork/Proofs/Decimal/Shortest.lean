import Mathlib.Data.Rat.Floor
import Mathlib.Tactic.FieldSimp
import Mathlib.Tactic.Linarith
import Mathlib.Tactic.Positivity
import Artwork.Decimal.Shortest

/-!
# The digits stay in the interval

Whatever grid the search stops at, the value of the digits it gives is inside the interval of the
double they are for.
-/

namespace Artwork

namespace Numeral

theorem lt_tenPow_length (n : ℕ) : n < 10 ^ (digits n).length :=
  (Nat.length_toDigits_le_iff (by decide) Nat.length_toDigits_pos).mp (le_refl _)

theorem tenPow_length_le {n : ℕ} (hn : 0 < n) : 10 ^ ((digits n).length - 1) ≤ n := by
  rcases Nat.eq_zero_or_pos ((digits n).length - 1) with hone | hmore
  · rwa [hone, pow_zero]
  · by_contra hlt
    have hle := (Nat.length_toDigits_le_iff (n := n) (by decide : 1 < 10) hmore).mpr (not_le.mp hlt)
    have hlen : (digits n).length ≤ (digits n).length - 1 := hle
    omega

end Numeral

namespace Decimal

open Numeral

theorem tenPow_pos (e : ℤ) : (0 : ℚ) < 10 ^ e := zpow_pos (by norm_num) e

theorem tenPow_add (d e : ℤ) : (10 : ℚ) ^ (d + e) = 10 ^ d * 10 ^ e := zpow_add₀ (by norm_num) d e

/-- The rational that digits stand for. -/
def Digits.value (d : Digits) : ℚ := d.digits * 10 ^ d.power

theorem Digits.value_trim (limit : ℕ) (d : Digits) : (d.trim limit).value = d.value := by
  induction limit generalizing d with
  | zero => rfl
  | succ limit ih =>
    unfold Digits.trim
    split_ifs with hzero
    · have hten : (d.digits : ℚ) = (d.digits / 10 : ℕ) * 10 := by
        exact_mod_cast (Nat.div_mul_cancel (Nat.dvd_of_mod_eq_zero hzero.2)).symm
      rw [ih]
      unfold Digits.value
      rw [add_comm, tenPow_add, zpow_one, hten, mul_assoc]
    · rfl

namespace Interval

def unit (i : Interval) : ℚ := i.num / i.den

/-- The reals of an interval. -/
def Inside (i : Interval) (x : ℚ) : Prop :=
  if i.closed then i.low * i.unit ≤ x ∧ x ≤ i.high * i.unit
  else i.low * i.unit < x ∧ x < i.high * i.unit

variable {i : Interval}

theorem inside_of_lt {x : ℚ} (hlow : i.low * i.unit < x) (hhigh : x < i.high * i.unit) :
    i.Inside x := by
  unfold Inside
  split_ifs
  · exact ⟨hlow.le, hhigh.le⟩
  · exact ⟨hlow, hhigh⟩

/-- The two parts of a fraction `unitOn` count the unit and the grid on one scale. -/
theorem unitOn_eq (i : Interval) (hden : 0 < i.den) (power : ℤ) :
    ∃ scale : ℚ, 0 < scale ∧ ((i.unitOn power).1 : ℚ) = i.unit * scale ∧
      ((i.unitOn power).2 : ℚ) = 10 ^ power * scale := by
  have hpos : (0 : ℚ) < i.den := by exact_mod_cast hden
  have hten (k : ℕ) : (tenTo k : ℚ) = 10 ^ (k : ℤ) := by
    rw [zpow_natCast]
    exact_mod_cast rfl
  unfold unitOn unit
  split_ifs with hneg
  · refine ⟨i.den * 10 ^ (power.natAbs : ℤ), mul_pos hpos (tenPow_pos _), ?_, ?_⟩
    · rw [Nat.cast_mul, hten]
      field_simp
    · show (i.den : ℚ) = _
      have hcancel : (10 : ℚ) ^ power * 10 ^ (power.natAbs : ℤ) = 1 := by
        rw [← tenPow_add, show power + power.natAbs = 0 by omega, zpow_zero]
      rw [mul_left_comm, hcancel, mul_one]
  · refine ⟨i.den, hpos, ?_, ?_⟩
    · field_simp
    · rw [Nat.cast_mul, hten, show (power.natAbs : ℤ) = power by omega, mul_comm]

theorem onGrid?_inside {tie : Tie} {power : ℤ} {d : ℕ} (hden : 0 < i.den)
    (h : i.onGrid? tie power = some d) : i.Inside (d * 10 ^ power) := by
  obtain ⟨scale, hscale, hunit, hgrid⟩ := i.unitOn_eq hden power
  have hle (k x : ℕ) : k * (i.unitOn power).1 ≤ x * (i.unitOn power).2 ↔
      (k * i.unit : ℚ) ≤ x * 10 ^ power := by
    rw [← Nat.cast_le (α := ℚ), Nat.cast_mul, Nat.cast_mul, hunit, hgrid, ← mul_assoc, ← mul_assoc,
      mul_le_mul_iff_left₀ hscale]
  have hge (k x : ℕ) : x * (i.unitOn power).2 ≤ k * (i.unitOn power).1 ↔
      (x * 10 ^ power : ℚ) ≤ k * i.unit := by
    rw [← Nat.cast_le (α := ℚ), Nat.cast_mul, Nat.cast_mul, hunit, hgrid, ← mul_assoc, ← mul_assoc,
      mul_le_mul_iff_left₀ hscale]
  -- The test of a neighbour, in the unit of the interval.
  have htest (x : ℕ) : (if i.closed then
      decide (i.low * (i.unitOn power).1 ≤ x * (i.unitOn power).2 ∧
        x * (i.unitOn power).2 ≤ i.high * (i.unitOn power).1)
      else decide (i.low * (i.unitOn power).1 < x * (i.unitOn power).2 ∧
        x * (i.unitOn power).2 < i.high * (i.unitOn power).1)) = true →
      i.Inside (x * 10 ^ power) := by
    unfold Inside
    intro hx
    split_ifs at hx ⊢
    · simpa only [decide_eq_true_eq, hle, hge] using hx
    · simpa only [decide_eq_true_eq, ← not_le, hle, hge] using hx
  unfold onGrid? at h
  simp only at h
  split at h
  next hbelow habove =>
    obtain rfl := Option.some_inj.mp h
    split_ifs
    · exact htest _ habove
    · exact htest _ hbelow
  next hbelow _ =>
    obtain rfl := Option.some_inj.mp h
    exact htest _ hbelow
  next _ habove =>
    obtain rfl := Option.some_inj.mp h
    exact htest _ habove
  next => exact absurd h (by simp)

/-- A candidate is inside, so only what stands in for one when there is none has to be. -/
theorem search_inside {tie : Tie} {tries : ℕ} {power : ℤ} (hden : 0 < i.den)
    (h : i.Inside (i.search tie 0 (power - tries)).value) :
    i.Inside (i.search tie tries power).value := by
  induction tries generalizing power with
  | zero => simpa using h
  | succ tries ih =>
    unfold search
    split
    next d hd => exact onGrid?_inside hden hd
    next =>
      refine ih ?_
      rwa [show power - 1 - tries = power - (tries + 1 : ℕ) by omega]

/-- Rounding down on a grid loses less than one step of it. -/
theorem search_zero (i : Interval) (tie : Tie) (hden : 0 < i.den) (power : ℤ) :
    (i.search tie 0 power).value ≤ i.center * i.unit ∧
      i.center * i.unit - 10 ^ power < (i.search tie 0 power).value := by
  obtain ⟨scale, hscale, hunit, hgrid⟩ := i.unitOn_eq hden power
  have hten := tenPow_pos power
  have hquot : (i.center * (i.unitOn power).1 : ℕ) / ((i.unitOn power).2 : ℚ) =
      i.center * i.unit / 10 ^ power := by
    rw [Nat.cast_mul, hunit, hgrid, ← mul_assoc, mul_div_mul_right _ _ hscale.ne']
  have hfloor : ((i.search tie 0 power).digits : ℤ) = ⌊(i.center * i.unit / 10 ^ power : ℚ)⌋ := by
    rw [← hquot, Rat.floor_natCast_div_natCast]
    rfl
  obtain ⟨hlow, hhigh⟩ := Int.floor_eq_iff.mp hfloor.symm
  rw [le_div_iff₀ hten] at hlow
  rw [div_lt_iff₀ hten] at hhigh
  have hvalue : (i.search tie 0 power).value = (i.search tie 0 power).digits * 10 ^ power := rfl
  rw [hvalue]
  push_cast at hlow hhigh
  constructor <;> linarith

/-- The power of ten of the first digit is not above the value. -/
theorem tenPow_firstPower_le {n d : ℕ} (hn : 0 < n) (hd : 0 < d) :
    (10 : ℚ) ^ firstPower n d ≤ n / d := by
  have hn' : (0 : ℚ) < n := by exact_mod_cast hn
  have hd' : (0 : ℚ) < d := by exact_mod_cast hd
  unfold firstPower
  split_ifs with hle
  · have hquot : 0 < n / d := Nat.div_pos hle hd
    have hlen : 0 < (digits (n / d)).length := Nat.length_toDigits_pos
    rw [le_div_iff₀ hd',
      show ((digits (n / d)).length : ℤ) - 1 = ((digits (n / d)).length - 1 : ℕ) by omega,
      zpow_natCast]
    exact_mod_cast (Nat.mul_le_mul_right d (tenPow_length_le hquot)).trans (Nat.div_mul_le_self n d)
  · have hlt := lt_tenPow_length ((d + n - 1) / n - 1)
    -- The quotient upside down, rounded up.
    have hup : d ≤ (d + n - 1) / n * n := by
      have hdiv := Nat.div_add_mod' (d + n - 1) n
      have hmod := Nat.mod_lt (d + n - 1) hn
      omega
    rw [zpow_neg, zpow_natCast, inv_le_comm₀ (by positivity) (div_pos hn' hd'), inv_div,
      div_le_iff₀ hn']
    exact_mod_cast hup.trans (Nat.mul_le_mul_right n (by omega))

theorem den_pos (m : ℕ) (q : ℤ) : 0 < (ofBinary m q).den := by
  show 0 < if q < 2 then Binary.twoTo (2 - q).toNat else 1
  split_ifs
  · exact Nat.pow_pos (by decide)
  · exact Nat.one_pos

theorem num_pos (m : ℕ) (q : ℤ) : 0 < (ofBinary m q).num := by
  show 0 < if q < 2 then 1 else Binary.twoTo (q - 2).toNat
  split_ifs
  · exact Nat.one_pos
  · exact Nat.pow_pos (by decide)

theorem unit_ofBinary (m : ℕ) (q : ℤ) : (ofBinary m q).unit = 2 ^ (q - 2) := by
  have htwo (k : ℕ) : (Binary.twoTo k : ℚ) = 2 ^ (k : ℤ) := by
    rw [zpow_natCast]
    exact_mod_cast rfl
  simp only [unit, ofBinary]
  split_ifs with hq
  · rw [htwo, Int.toNat_of_nonneg (by omega), Nat.cast_one, one_div, ← zpow_neg, neg_sub]
  · rw [htwo, Int.toNat_of_nonneg (by omega), Nat.cast_one, div_one]

/-- Seventeen digits and one more are finer than a quarter of a step, so even the value rounded down
there stays inside. -/
theorem search_ofBinary_inside (tie : Tie) {m : ℕ} (hm : 0 < m) (hbits : m < 2 ^ 53) (q : ℤ)
    {first : ℤ} (hfirst : (10 : ℚ) ^ first ≤ 4 * m * (ofBinary m q).unit) :
    (ofBinary m q).Inside ((ofBinary m q).search tie 17 first).value := by
  have hden := den_pos m q
  have hunit : (0 : ℚ) < (ofBinary m q).unit :=
    div_pos (by exact_mod_cast num_pos m q) (by exact_mod_cast hden)
  have hstep : (10 : ℚ) ^ (first - (17 : ℕ)) < (ofBinary m q).unit := by
    have hbits' : (m : ℚ) < 2 ^ 53 := by exact_mod_cast hbits
    have hfine : 4 * m * (ofBinary m q).unit < (ofBinary m q).unit * 10 ^ 17 := by
      nlinarith
    rw [zpow_sub₀ (by norm_num), zpow_natCast, div_lt_iff₀ (by positivity)]
    exact hfirst.trans_lt hfine
  obtain ⟨hle, hlt⟩ := search_zero (ofBinary m q) tie hden (first - (17 : ℕ))
  have hcenter : ((ofBinary m q).center : ℚ) = 4 * m := by
    show ((4 * m : ℕ) : ℚ) = _
    push_cast
    rfl
  have hlow : ((ofBinary m q).low : ℚ) ≤ 4 * m - 1 := by
    have hnat : (ofBinary m q).low + 1 ≤ 4 * m := by
      simp only [ofBinary]
      split_ifs <;> omega
    exact le_sub_iff_add_le.mpr (by exact_mod_cast hnat)
  have hhigh : ((ofBinary m q).high : ℚ) = 4 * m + 2 := by
    show ((4 * m + 2 : ℕ) : ℚ) = _
    push_cast
    rfl
  rw [hcenter] at hle hlt
  refine search_inside hden (inside_of_lt ?_ ?_)
  · have hmul := mul_le_mul_of_nonneg_right hlow hunit.le
    linarith
  · rw [hhigh]
    linarith

end Interval

theorem shortest_inside (tie : Tie) {m : ℕ} (hm : 0 < m) (hbits : m < 2 ^ 53) (q : ℤ) :
    (Interval.ofBinary m q).Inside (shortest tie m q).value := by
  have hfirst := Interval.tenPow_firstPower_le
    (Nat.mul_pos (show 0 < 4 * m by omega) (Interval.num_pos m q)) (Interval.den_pos m q)
  have hvalue : ((4 * m * (Interval.ofBinary m q).num : ℕ) : ℚ) / (Interval.ofBinary m q).den =
      4 * m * (Interval.ofBinary m q).unit := by
    unfold Interval.unit
    push_cast
    ring
  rw [shortest, if_neg hm.ne']
  simp only [Digits.value_trim]
  exact Interval.search_ofBinary_inside tie hm hbits q (hvalue ▸ hfirst)

end Decimal
end Artwork
