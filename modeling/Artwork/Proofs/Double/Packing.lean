import Artwork.Proofs.Double.Arithmetic
import Artwork.Scalar.Binary

/-!
# Stored doubles

A canonical double whose exponent is too large to be stored becomes an infinity, which is given the
first power of two out of range as its place, so that every stored double but the undefined one has
a place among the rationals (`Stored`).
-/

namespace Artwork
namespace Double

open Float.Model Float.Model.UnpackedFloat

/-- The least power of two that is out of range. -/
def limit : ℚ := 2 ^ (1024 : ℤ)

/-- The place of a double that has been stored. -/
inductive Stored : UnpackedFloat → ℚ → Prop
  | infinity (s : Sign) : Stored (.infinity s) (s.apply 1 * limit)
  | finite {u : UnpackedFloat} {q : ℚ} (hu : Holds u q) (hq : |q| < limit) : Stored u q

/-- Keeps a value between the infinities. -/
def clamped (q : ℚ) : ℚ := max (-limit) (min q limit)

theorem limit_pos : 0 < limit := twoPow_pos 1024

theorem clamped_mono {p q : ℚ} (h : p ≤ q) : clamped p ≤ clamped q :=
  max_le_max_left _ (min_le_min_right _ h)

theorem clamped_of_abs_lt {q : ℚ} (h : |q| < limit) : clamped q = q := by
  obtain ⟨hlow, hhigh⟩ := abs_lt.mp h
  rw [clamped, min_eq_left hhigh.le, max_eq_right hlow.le]

theorem clamped_apply (s : Sign) {q : ℚ} (h : limit ≤ q) :
    clamped (s.apply 1 * q) = s.apply 1 * limit := by
  have hpos := limit_pos
  cases s with
  | negative =>
    have hlow : ((Sign.negative.apply 1 : ℤ) * q : ℚ) ≤ -limit := by
      rw [Sign.apply]
      push_cast
      linarith
    rw [clamped, min_eq_left (by linarith), max_eq_left hlow]
    simp [Sign.apply]
  | positive =>
    simp only [clamped, Sign.apply, Int.cast_one, one_mul]
    rw [min_eq_right h, max_eq_right (by linarith)]

theorem abs_apply_mul (s : Sign) (q : ℚ) : |s.apply 1 * q| = |q| := by
  cases s <;> simp [Sign.apply]

theorem abs_lt_limit (s : Sign) {m : ℕ} (hm : m < 2 ^ 53) {e : ℤ} (he : e ≤ 971) :
    |(s.apply m * 2 ^ e : ℚ)| < limit := by
  rw [apply_eq_mul, abs_apply_mul, abs_of_nonneg (mul_nonneg (Nat.cast_nonneg m) (twoPow_pos e).le)]
  calc (m * 2 ^ e : ℚ) < 2 ^ 53 * 2 ^ e :=
        mul_lt_mul_of_pos_right (by exact_mod_cast hm) (twoPow_pos e)
    _ = 2 ^ (53 + e) := (twoPow_add 53 e).symm
    _ ≤ limit := twoPow_mono (by omega)

/-- The double of three bit fields. -/
def decode (s : Sign) (biased fraction : ℕ) : UnpackedFloat :=
  if biased = 2047 then
    if fraction = 0 then .infinity s else .notANumber
  else if biased = 0 then ofMantissa s fraction (-1074)
  else ofMantissa s (2 ^ 52 + fraction) (biased - 1075)

theorem append_one_toNat (f : BitVec 52) : (1#1 ++ f).toNat = 2 ^ 52 + f.toNat := by
  rw [BitVec.toNat_append, ← Nat.shiftLeft_add_eq_or_of_lt f.isLt]
  rfl

theorem ofMantissa_of_pos (s : Sign) {m : ℕ} (hm : 0 < m) (e : ℤ) :
    ofMantissa s m e = .finite s m e hm := by
  simp only [ofMantissa, hm.ne', ↓reduceDIte]

theorem unpack_eq_decode {b : BitVec Format.binary64.numBits} {s : Sign} {biased : BitVec 11}
    {fraction : BitVec 52}
    (hs : .ofBitVec (@unpackSign .binary64 b) = s)
    (he : @unpackExponent .binary64 b = biased)
    (hf : @unpackMantissa .binary64 b = fraction) :
    UnpackedFloat.unpack .binary64 b = decode s biased.toNat fraction.toNat := by
  have hbias : (Format.binary64.exponentBias : ℤ) = 1023 := rfl
  have hmax : biased = -1#11 ↔ biased.toNat = 2047 := by rw [← BitVec.toNat_inj]; rfl
  have hzero : biased = 0#11 ↔ biased.toNat = 0 := by rw [← BitVec.toNat_inj]; rfl
  have hfraction : fraction = 0#52 ↔ fraction.toNat = 0 := by rw [← BitVec.toNat_inj]; rfl
  subst hs he hf
  unfold UnpackedFloat.unpack decode
  simp only [hmax, hzero, hfraction, append_one_toNat, hbias]
  by_cases hexp : (@unpackExponent .binary64 b).toNat = 0
  · simp only [hexp, ↓reduceIte, ofMantissa]
    rfl
  · have hlast (n : ℕ) : (n : ℤ) - (1023 + (52 : ℕ)) = n - 1075 := by omega
    rw [ofMantissa_of_pos _ (Nat.add_pos_left (by decide) _)]
    simp only [hexp, ↓reduceIte, hlast]

theorem unpack_packComponents (s : Sign) (e : BitVec 11) (f : BitVec 52) :
    UnpackedFloat.unpack .binary64 (packComponents .binary64 s e f) =
      decode s e.toNat f.toNat := by
  have hsign : Sign.ofBitVec (unpackSign (packComponents .binary64 s e f)) = s := by
    rw [unpackSign_packComponents, Sign.ofBitVec_toBitVec]
  exact unpack_eq_decode hsign unpackExponent_packComponents unpackMantissa_packComponents

theorem unpack_pack_infinity (s : Sign) :
    (Float.Model.pack (.infinity s)).unpack = .infinity s := by
  show UnpackedFloat.unpack .binary64 (packComponents .binary64 s (-1#11) 0#52) = _
  rw [unpack_packComponents]
  rfl

theorem unpack_pack_zero (s : Sign) : (Float.Model.pack (.zero s)).unpack = .zero s :=
  unpack_packedZero

theorem pack_finite (s : Sign) {m : ℕ} {e : ℤ} (hm : 0 < m) :
    UnpackedFloat.pack .binary64 (.finite s m e hm) =
      if 2 ^ 11 ≤ (e + 1075).toNat + 1 then packComponents .binary64 s (-1#11) 0#52
      else if m.log2 + 1 = 53 then
        packComponents .binary64 s (.ofNat 11 (e + 1075).toNat) (.ofNat 52 m)
      else packComponents .binary64 s 0#11 (.ofNat 52 m) := by
  have hbias : e + Format.binary64.exponentBias + (52 : ℕ) = e + 1075 := by
    rw [show (Format.binary64.exponentBias : ℤ) = 1023 from rfl]
    omega
  unfold UnpackedFloat.pack
  simp only [hbias]
  rfl

/-- A canonical double in range is stored without loss. -/
theorem unpack_pack_finite (s : Sign) {m : ℕ} {e : ℤ} (hm : 0 < m)
    (he : exponent (m * 2 ^ e) = e) (hmax : e ≤ 971) :
    (Float.Model.pack (.finite s m e hm)).unpack = .finite s m e hm := by
  rw [exponent_natCast_mul hm] at he
  have hbits : m < 2 ^ 53 := (Nat.log2_lt hm.ne').mp (by omega)
  show UnpackedFloat.unpack .binary64 (UnpackedFloat.pack .binary64 _) = _
  rw [pack_finite, if_neg (by omega), ← ofMantissa_of_pos]
  split_ifs with hfull
  · -- The leading bit is not stored.
    have hlow : 2 ^ 52 ≤ m := (Nat.le_log2 hm.ne').mp (by omega)
    rw [unpack_packComponents, BitVec.toNat_ofNat, BitVec.toNat_ofNat,
      Nat.mod_eq_of_lt (by omega : (e + 1075).toNat < 2 ^ 11), decode, if_neg (by omega),
      if_neg (by omega)]
    congr 1 <;> omega
  · have hbits' : m < 2 ^ 52 := (Nat.log2_lt hm.ne').mp (by omega)
    have hfraction : (BitVec.ofNat 52 m).toNat = m := Nat.mod_eq_of_lt hbits'
    rw [unpack_packComponents, hfraction, decode, if_neg (by decide), if_pos (by decide)]
    congr 1
    omega

theorem unpack_pack_overflow (s : Sign) {m : ℕ} {e : ℤ} (hm : 0 < m) (hmax : 972 ≤ e) :
    (Float.Model.pack (.finite s m e hm)).unpack = .infinity s := by
  show UnpackedFloat.unpack .binary64 (UnpackedFloat.pack .binary64 _) = _
  rw [pack_finite, if_pos (by omega), unpack_packComponents]
  rfl

/-- Storing a canonical double keeps its value, or clamps it when it is out of range. -/
theorem Holds.stored {u : UnpackedFloat} {q : ℚ} (h : Holds u q) :
    Stored (Float.Model.pack u).unpack (clamped q) := by
  cases h with
  | zero s =>
    have hzero : |(0 : ℚ)| < limit := by simpa using limit_pos
    rw [unpack_pack_zero, clamped_of_abs_lt hzero]
    exact .finite (.zero s) hzero
  | finite s m e hm he =>
    have hlog := he
    rw [exponent_natCast_mul hm] at hlog
    rcases Int.lt_or_le 971 e with hover | hfits
    · have hfull : 2 ^ 52 ≤ m := (Nat.le_log2 hm.ne').mp (by omega)
      have hlarge : limit ≤ m * 2 ^ e :=
        calc limit ≤ 2 ^ (52 + e) := twoPow_mono (by omega)
          _ = 2 ^ 52 * 2 ^ e := twoPow_add 52 e
          _ ≤ m * 2 ^ e := mul_le_mul_of_nonneg_right (by exact_mod_cast hfull) (twoPow_pos e).le
      rw [unpack_pack_overflow s hm hover, apply_eq_mul, clamped_apply s hlarge]
      exact .infinity s
    · have hbits : m < 2 ^ 53 := (Nat.log2_lt hm.ne').mp (by omega)
      have habs := abs_lt_limit s hbits hfits
      rw [unpack_pack_finite s hm he hfits, clamped_of_abs_lt habs]
      exact .finite (.finite s m e hm he) habs

theorem ofMantissa_stored (s : Sign) {m : ℕ} (hm : m < 2 ^ 53) {e : ℤ} (hmin : -1074 ≤ e)
    (hmax : e ≤ 971) (hlow : e = -1074 ∨ 2 ^ 52 ≤ m) :
    Stored (ofMantissa s m e) (s.apply m * 2 ^ e) :=
  .finite (ofMantissa_holds s hm hmin hlow) (abs_lt_limit s hm hmax)

/-- What is stored is undefined or has a place. -/
theorem unpack_stored (b : BitVec Format.binary64.numBits) :
    UnpackedFloat.unpack .binary64 b = .notANumber ∨
      ∃ q, Stored (UnpackedFloat.unpack .binary64 b) q := by
  have hexp : (unpackExponent b).toNat < 2 ^ 11 := (unpackExponent b).isLt
  have hfraction : (unpackMantissa b).toNat < 2 ^ 52 := (unpackMantissa b).isLt
  rw [unpack_eq_decode rfl rfl rfl, decode]
  split_ifs with hmax hzero hlow
  · exact .inr ⟨_, .infinity _⟩
  · exact .inl rfl
  · exact .inr ⟨_, ofMantissa_stored _ (by omega) (by omega) (by omega) (.inl rfl)⟩
  · exact .inr ⟨_, ofMantissa_stored _ (by omega) (by omega) (by omega) (.inr (by omega))⟩

theorem unpackMantissa_toNat (b : BitVec Format.binary64.numBits) :
    (unpackMantissa b).toNat = b.toNat % 2 ^ 52 := by
  simp [unpackMantissa]

theorem unpackExponent_toNat (b : BitVec Format.binary64.numBits) :
    (unpackExponent b).toNat = b.toNat / 2 ^ 52 % 2 ^ 11 := by
  simp [unpackExponent, Nat.shiftRight_eq_div_pow]

theorem ofBitVec_unpackSign (b : BitVec Format.binary64.numBits) :
    Sign.ofBitVec (unpackSign b) = if 2 ^ 63 ≤ b.toNat then .negative else .positive := by
  have hb : b.toNat < 2 ^ 64 := b.isLt
  have hbit : (unpackSign b).toNat = b.toNat / 2 ^ 63 % 2 := by
    simp [unpackSign, Nat.shiftRight_eq_div_pow]
  have hsign : unpackSign b = 0#1 ↔ b.toNat / 2 ^ 63 = 0 := by
    rw [← BitVec.toNat_inj, hbit, BitVec.toNat_zero]
    omega
  simp only [Sign.ofBitVec, hsign]
  split_ifs <;> first | rfl | (exfalso; omega)

theorem value?_finite (negative : Bool) (m : ℕ) (e : ℤ) :
    (Binary.finite negative m e).value? =
      some ((if negative then Sign.negative else .positive).apply m * 2 ^ e : ℚ) := by
  have hsize : (if e < 0 then mkRat m (Binary.twoTo e.natAbs)
      else ((m * Binary.twoTo e.natAbs : ℕ) : ℚ)) = m * 2 ^ e := by
    rcases Int.lt_or_le e 0 with hneg | hpos
    · obtain ⟨n, rfl⟩ : ∃ n : ℕ, e = -n := ⟨e.natAbs, by omega⟩
      rw [if_pos hneg, Rat.mkRat_eq_div, Int.natAbs_neg, Int.natAbs_natCast, zpow_neg,
        zpow_natCast, div_eq_mul_inv]
      simp [Binary.twoTo]
    · obtain ⟨n, rfl⟩ := Int.eq_ofNat_of_zero_le hpos
      rw [if_neg (by omega), zpow_natCast]
      simp [Binary.twoTo]
  simp only [Binary.value?, hsize]
  cases negative <;> simp [Sign.apply]

/-- A double by the three fields of its bits. -/
theorem unpack_eq_fields (x : Float) :
    x.toModel.unpack =
      decode (if 2 ^ 63 ≤ x.toBits.toNat then .negative else .positive)
        (x.toBits.toNat / 2 ^ 52 % 2 ^ 11) (x.toBits.toNat % 2 ^ 52) := by
  show UnpackedFloat.unpack .binary64 x.toBits.toBitVec = _
  rw [unpack_eq_decode rfl rfl rfl, ofBitVec_unpackSign, unpackExponent_toNat,
    unpackMantissa_toNat]
  rfl

/-- The fields of a finite double are those of its canonical form. -/
theorem unpack_of_ofFloat {x : Float} {negative : Bool} {m : ℕ} {e : ℤ}
    (h : Binary.ofFloat x = .finite negative m e) :
    x.toModel.unpack = ofMantissa (if negative then .negative else .positive) m e ∧
      m < 2 ^ 53 ∧ -1074 ≤ e ∧ e ≤ 971 ∧ (e = -1074 ∨ 2 ^ 52 ≤ m) := by
  have htwo (k : ℕ) : Binary.twoTo k = 2 ^ k := rfl
  rw [unpack_eq_fields]
  simp only [Binary.ofFloat, htwo] at h
  generalize x.toBits.toNat = bits at h
  have hexp : bits / 2 ^ 52 % 2 ^ 11 < 2 ^ 11 := Nat.mod_lt _ (by decide)
  have hfraction : bits % 2 ^ 52 < 2 ^ 52 := Nat.mod_lt _ (by decide)
  generalize bits / 2 ^ 52 % 2 ^ 11 = biased at h hexp
  generalize bits % 2 ^ 52 = fraction at h hfraction
  unfold decode
  by_cases hmax : biased = 2047
  · rw [if_pos hmax] at h
    split_ifs at h
  · rw [if_neg hmax] at h ⊢
    by_cases hzero : biased = 0
    · rw [if_pos hzero] at h
      cases h
      rw [if_pos hzero]
      refine ⟨?_, by omega, by omega, by omega, .inl rfl⟩
      simp only [decide_eq_true_eq]
    · rw [if_neg hzero] at h
      cases h
      rw [if_neg hzero]
      refine ⟨?_, by omega, by omega, by omega, .inr (by omega)⟩
      simp only [decide_eq_true_eq]

/-- The bits of a canonical double say that it is finite. -/
theorem isFinite_of_holds {x : Float} {q : ℚ} (h : Holds x.toModel.unpack q) :
    Scalar.isFinite x = true := by
  have htwo (k : ℕ) : Binary.twoTo k = 2 ^ k := rfl
  show (Binary.ofFloat x).value?.isSome = true
  rw [unpack_eq_fields] at h
  simp only [Binary.ofFloat, htwo]
  split_ifs with hmax hzero
  · rw [hmax, hzero] at h
    cases h
  · rw [hmax, decode, if_pos rfl, if_neg hzero] at h
    cases h
  · rfl
  · rfl

/-- The value read off the bits of a double is its place. -/
theorem stored_of_value? {x : Float} {q : ℚ} (h : (Binary.ofFloat x).value? = some q) :
    Stored x.toModel.unpack q ∧ |q| < limit := by
  cases hx : Binary.ofFloat x with
  | undefined => simp [hx, Binary.value?] at h
  | infinite s => simp [hx, Binary.value?] at h
  | finite negative m e =>
    obtain ⟨hunpack, hbits, hmin, hmax, hlow⟩ := unpack_of_ofFloat hx
    rw [hx, value?_finite, Option.some_inj] at h
    rw [hunpack, ← h]
    exact ⟨ofMantissa_stored _ hbits hmin hmax hlow, abs_lt_limit _ hbits hmax⟩

end Double
end Artwork
