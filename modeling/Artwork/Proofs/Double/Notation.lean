import Artwork.Proofs.Double.Nearest
import Artwork.Proofs.Json.Spelling

/-!
# Doubles and their spelling

Reading is exact up to one rounding: every numeral is read as the double nearest to what it says
(`at_toFloat`).  The digits a double is written with are inside its interval, so they are read back
as the same double, its sign of zero included, and writing and reading of doubles agree.
-/

namespace Artwork

namespace Numeral

/-- The rational a numeral says. -/
def value (n : Numeral) : ℚ := (if n.negative then -1 else 1) * (n.significand * 10 ^ n.lastPower)

theorem value_mk (negative : Bool) (m places : ℕ) (e : ℤ) :
    value ⟨negative, m, places, e⟩ = (if negative then -1 else 1) * (m * 10 ^ (e - places)) :=
  rfl

theorem value_dataForm (negative : Bool) (d : Decimal.Digits) :
    (dataForm negative d).value = (if negative then -1 else 1) * d.value := by
  have hlen : 0 < (digits d.digits).length := Nat.length_toDigits_pos
  unfold dataForm
  simp only
  by_cases hfar : d.power + (digits d.digits).length - 1 < -5 ∨
      15 < d.power + (digits d.digits).length - 1
  · rw [if_pos hfar, value_mk,
      show d.power + (digits d.digits).length - 1 - ((digits d.digits).length - 1 : ℕ) = d.power by
        omega]
    rfl
  · rw [if_neg hfar]
    by_cases hwhole : 0 ≤ d.power
    · have hten : ((d.digits * tenTo (d.power.toNat + 1) : ℕ) : ℚ) * 10 ^ (0 - (1 : ℕ) : ℤ) =
          d.value := by
        have hpow : (tenTo (d.power.toNat + 1) : ℚ) = 10 ^ (d.power + 1) := by
          rw [← Int.toNat_of_nonneg hwhole, ← Nat.cast_succ, zpow_natCast, Int.toNat_natCast]
          exact_mod_cast rfl
        rw [Nat.cast_mul, hpow, mul_assoc, ← Decimal.tenPow_add,
          show d.power + 1 + (0 - (1 : ℕ)) = d.power by omega]
        rfl
      rw [if_pos hwhole, value_mk, hten]
    · rw [if_neg hwhole, value_mk, show 0 - (d.power.natAbs : ℤ) = d.power by omega]
      rfl

end Numeral

namespace Double

open Float.Model Float.Model.UnpackedFloat
open Numeral

theorem clamped_neg (q : ℚ) : clamped (-q) = -clamped q := by
  unfold clamped
  rw [max_def, max_def, min_def, min_def]
  have hpos := limit_pos
  split_ifs <;> linarith

theorem clamped_of_limit_le {q : ℚ} (h : limit ≤ q) : clamped q = limit := by
  have hpos := clamped_apply .positive h
  simpa [Sign.apply] using hpos

theorem At.neg {x : Float} {q : ℚ} (h : At x q) : At (-x) (-q) := by
  show Stored (Float.Model.pack x.toModel.unpack.neg).unpack (-q)
  unfold At at h
  generalize x.toModel.unpack = u at h
  cases h with
  | infinity s =>
    have hneg := Stored.infinity (-s)
    rwa [cast_apply_neg, neg_mul, ← unpack_pack_infinity] at hneg
  | finite hu hq =>
    have hneg := hu.neg.stored
    rwa [clamped_of_abs_lt (by rwa [abs_neg])] at hneg

theorem at_zero : At 0.0 0 := .finite (.zero .positive) (by simpa using limit_pos)

theorem at_infinity : At (1.0 / 0.0) limit := by
  have hinf := Stored.infinity .positive
  rw [Sign.apply, Int.cast_one, one_mul] at hinf
  exact hinf

theorem rounded_limit : rounded limit = limit := by
  have hexp := exponent_natCast_mul (m := 1) one_pos 1024
  have hle := rounded_of_exponent_le (m := 1) (e := 1024) (by
    rw [Int.cast_one]
    rw [Nat.cast_one] at hexp
    rw [hexp]
    decide)
  rwa [Int.cast_one, one_mul] at hle

theorem tenPow_le_least : (10 : ℚ) ^ (-331 : ℤ) ≤ 2 ^ (-1075 : ℤ) := by
  have hnat : 2 ^ 1075 ≤ 10 ^ 331 := by decide +kernel
  have hcast : (2 : ℚ) ^ 1075 ≤ 10 ^ 331 := by exact_mod_cast hnat
  rw [zpow_neg, zpow_neg]
  exact inv_anti₀ (by positivity) hcast

theorem limit_le_tenPow : limit ≤ 10 ^ (310 : ℤ) := by
  have hnat : 2 ^ 1024 ≤ 10 ^ 310 := by decide +kernel
  have hcast : (2 : ℚ) ^ 1024 ≤ 10 ^ 310 := by exact_mod_cast hnat
  exact hcast

/-- The size of a numeral, told by counting digits where it is far outside the range. -/
theorem at_size (m : ℕ) (k : ℤ) :
    At (if m = 0 ∨ k + (digits m).length < -330 then 0.0
      else if 310 < k + (digits m).length then 1.0 / 0.0
      else Float.ofScientific m (k < 0) k.natAbs) (clamped (rounded (m * 10 ^ k))) := by
  have hzero : clamped 0 = 0 := clamped_of_abs_lt (by simpa using limit_pos)
  have hlt : (m * 10 ^ k : ℚ) < 10 ^ (k + (digits m).length) := by
    rw [Decimal.tenPow_add, mul_comm, zpow_natCast]
    refine mul_lt_mul_of_pos_left ?_ (Decimal.tenPow_pos k)
    exact_mod_cast lt_tenPow_length m
  rcases Nat.eq_zero_or_pos m with rfl | hm
  · rw [if_pos (.inl rfl), Nat.cast_zero, zero_mul, rounded_zero, hzero]
    exact at_zero
  · have hpos : (0 : ℚ) < m * 10 ^ k := mul_pos (by exact_mod_cast hm) (Decimal.tenPow_pos k)
    have hle : (10 : ℚ) ^ (k + (digits m).length - 1) ≤ m * 10 ^ k := by
      have hlen : 0 < (digits m).length := Nat.length_toDigits_pos
      rw [show k + (digits m).length - 1 = ((digits m).length - 1 : ℕ) + k by omega,
        Decimal.tenPow_add, zpow_natCast]
      refine mul_le_mul_of_nonneg_right ?_ (Decimal.tenPow_pos k).le
      exact_mod_cast tenPow_length_le hm
    split_ifs with hsmall hlarge
    · have htiny : (10 : ℚ) ^ (k + (digits m).length) ≤ 2 ^ (-1075 : ℤ) :=
        (zpow_le_zpow_right₀ (by norm_num) (by omega)).trans tenPow_le_least
      rw [rounded_of_tiny hpos (hlt.trans_le htiny), hzero]
      exact at_zero
    · have hhuge : limit ≤ 10 ^ (k + (digits m).length - 1) :=
        limit_le_tenPow.trans (zpow_le_zpow_right₀ (by norm_num) (by omega))
      have hmono := rounded_mono (hhuge.trans hle)
      rw [rounded_limit] at hmono
      rw [clamped_of_limit_le hmono]
      exact at_infinity
    · have hbits : (digits m).length - 1 ≤ m.log2 := by
        have hpow : 2 ^ ((digits m).length - 1) ≤ 10 ^ ((digits m).length - 1) :=
          Nat.pow_le_pow_left (by decide) _
        exact (Nat.le_log2 hm.ne').mpr (hpow.trans (tenPow_length_le hm))
      exact at_ofScientific hm (by omega) (by omega)

/-- Every numeral is read as the double nearest to what it says. -/
theorem at_toFloat (n : Numeral) : At n.toFloat (clamped (rounded n.value)) := by
  have hsize := at_size n.significand n.lastPower
  unfold toFloat value
  cases n.negative with
  | false => simpa using hsize
  | true =>
    have hneg := hsize.neg
    rw [← clamped_neg, ← rounded_neg] at hneg
    simpa using hneg

theorem eq_of_unpack_eq {x y : Float} (h : x.toModel.unpack = y.toModel.unpack) : x = y := by
  rcases x with ⟨a, ha⟩
  rcases y with ⟨b, hb⟩
  obtain rfl : a = b := UInt64.toBitVec_inj.mp ((unpack_inj_of_valid ha hb).mp h)
  rfl

/-- The positive doubles among the canonical ones. -/
theorem Holds.exists_finite {u : UnpackedFloat} {q : ℚ} (h : Holds u q) (hq : 0 < q) :
    ∃ (m : ℕ) (e : ℤ) (hm : 0 < m), u = .finite .positive m e hm ∧ q = m * 2 ^ e ∧
      exponent q = e := by
  cases h with
  | zero s => exact absurd hq (lt_irrefl 0)
  | finite s m e hm he =>
    cases s with
    | negative =>
      have hpos := value_pos hm e
      rw [Sign.apply, Int.cast_neg, neg_mul] at hq
      exact absurd hq (not_lt.mpr (neg_nonpos.mpr (by exact_mod_cast hpos.le)))
    | positive =>
      refine ⟨m, e, hm, rfl, ?_, ?_⟩ <;> simp only [Sign.apply, Int.cast_natCast]
      exact he

theorem Holds.eq_of_pos {u v : UnpackedFloat} {q : ℚ} (hu : Holds u q) (hv : Holds v q)
    (hq : 0 < q) : u = v := by
  obtain ⟨m, e, hm, rfl, hvalue, he⟩ := hu.exists_finite hq
  obtain ⟨n, d, hn, rfl, hvalue', hd⟩ := hv.exists_finite hq
  obtain rfl : e = d := he.symm.trans hd
  have heq : (m : ℚ) = n :=
    mul_right_cancel₀ (twoPow_pos e).ne' (hvalue.symm.trans hvalue')
  obtain rfl : m = n := by exact_mod_cast heq
  rfl

theorem neg_neg_unpacked (u : UnpackedFloat) : u.neg.neg = u := by
  cases u with
  | notANumber => rfl
  | infinity s => cases s <;> rfl
  | zero s => cases s <;> rfl
  | finite s m e hm => cases s <;> rfl

/-- Two doubles at one place are the same, but for the zeros. -/
theorem At.eq {x y : Float} {q : ℚ} (hx : At x q) (hy : At y q) (hq : q ≠ 0)
    (hlimit : |q| < limit) : x = y := by
  have hu := Stored.holds hx hlimit
  have hv := Stored.holds hy hlimit
  refine eq_of_unpack_eq ?_
  rcases lt_or_gt_of_ne hq with hneg | hpos
  · rw [← neg_neg_unpacked x.toModel.unpack, hu.neg.eq_of_pos hv.neg (neg_pos.mpr hneg),
      neg_neg_unpacked]
  · exact hu.eq_of_pos hv hpos

theorem toFloat_zero (negative : Bool) (places : ℕ) (e : ℤ) :
    toFloat ⟨negative, 0, places, e⟩ = if negative then -0.0 else 0.0 := by
  unfold toFloat
  simp only [true_or, ↓reduceIte]

/-- The digits a double is written with are read back as it. -/
theorem toFloat_dataForm {x : Float} {negative : Bool} {m : ℕ} {e : ℤ}
    (h : Binary.ofFloat x = .finite negative m e) :
    (dataForm negative (Decimal.shortest .toEven m e)).toFloat = x := by
  obtain ⟨hunpack, hbits, hmin, hmax, hlow⟩ := unpack_of_ofFloat h
  rcases Nat.eq_zero_or_pos m with rfl | hm
  · -- Zero is written as such, with its sign.
    have hshort : Decimal.shortest .toEven 0 e = ⟨0, 0⟩ := rfl
    have hform : dataForm negative ⟨0, 0⟩ = ⟨negative, 0, 1, 0⟩ := by
      cases negative <;> decide +kernel
    refine eq_of_unpack_eq ?_
    rw [hshort, hform, toFloat_zero, hunpack]
    cases negative <;> rfl
  · obtain ⟨s, hs⟩ : ∃ s : Sign, s = if negative then .negative else .positive := ⟨_, rfl⟩
    have hcanonical := ofMantissa_holds s hbits hmin hlow
    rw [ofMantissa_of_pos s hm] at hcanonical
    rw [← hs, ofMantissa_of_pos s hm] at hunpack
    have hlimit := abs_lt_limit s hbits hmax
    have hx : At x (s.apply m * 2 ^ e) := by
      unfold At
      rw [hunpack]
      exact .finite hcanonical hlimit
    have hexp : exponent (m * 2 ^ e) = e := by
      cases hcanonical with
      | finite _ _ _ _ he => exact he
    have hround : rounded (dataForm negative (Decimal.shortest .toEven m e)).value =
        s.apply m * 2 ^ e := by
      have hinside := rounded_of_inside hm hexp (Decimal.shortest_inside .toEven hm hbits e)
      rw [value_dataForm, apply_eq_mul, hs, ← hinside]
      cases negative <;> simp [Sign.apply, rounded_neg]
    have hne : (s.apply m * 2 ^ e : ℚ) ≠ 0 := by
      rw [← abs_pos, apply_eq_mul, abs_apply_mul, abs_of_pos (value_pos hm e)]
      exact value_pos hm e
    have hread := at_toFloat (dataForm negative (Decimal.shortest .toEven m e))
    rw [hround, clamped_of_abs_lt hlimit] at hread
    exact hread.eq hx hne hlimit

end Double

/-- A double is spelled when it is finite. -/
theorem Written.spelled_float_iff (x : Float) : Spelled x ↔ Scalar.isFinite x = true := by
  show Numeral.ofFloat? x ≠ none ↔ (Binary.ofFloat x).value?.isSome = true
  unfold Numeral.ofFloat?
  cases Binary.ofFloat x <;> simp [Binary.value?]

/-- Every number of a value is finite. -/
abbrev Json.Finite (v : Json Float) : Prop := v.All fun x => Scalar.isFinite x = true

theorem Json.spelled_iff_finite (v : Json Float) : v.All Written.Spelled ↔ v.Finite := by
  have hspelled : (Written.Spelled : Float → Prop) = fun x => Scalar.isFinite x = true :=
    funext fun x => propext (Written.spelled_float_iff x)
  rw [hspelled]

theorem Written.spelled_zero : Spelled (0.0 : Float) :=
  (spelled_float_iff 0.0).mpr (by decide)

instance : LawfulWritten Float where
  ofNumeral?_numeral? {x n} h := by
    have hfinite : Scalar.isFinite x = true :=
      (Written.spelled_float_iff x).mp (Option.ne_none_iff_exists'.mpr ⟨n, h⟩)
    have hform : Numeral.ofFloat? x = some n := h
    unfold Numeral.ofFloat? at hform
    split at hform
    next negative m e hx =>
      obtain rfl := Option.some_inj.mp hform
      show (Numeral.toFloat? _) = _
      simp only [Numeral.toFloat?, Double.toFloat_dataForm hx, hfinite, ↓reduceIte]
    next => exact absurd hform (by simp)
  spelled_of_ofNumeral? {n x} h := by
    have hread : Numeral.toFloat? n = some x := h
    rw [Written.spelled_float_iff]
    simp only [Numeral.toFloat?] at hread
    split_ifs at hread with hfinite
    obtain rfl := Option.some_inj.mp hread
    exact hfinite

end Artwork
