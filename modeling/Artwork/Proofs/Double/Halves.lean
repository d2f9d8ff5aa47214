import Artwork.Proofs.Double.Nearest
import Artwork.Proofs.Double.Range

/-!
# Adding a half and taking the floor

In doubles a value is brought to a whole number by adding a half and taking the floor, which rounds
twice before the floor does anything.  Small values that come out as one whole number are still
hardly more than one apart (`close_of_floor_eq`), as up to `2 ^ 28` neither rounding matters much.
Above, they move both ends of what comes out as `n` in the same direction (`Binade.lifted_lt`,
`Binade.le_lifted`), so that what lies between is not more than one (`sub_le_one`).  From `2 ^ 52`
on there are no halves to add, and two whole numbers come out as one.
-/

namespace Artwork

namespace Scalar

theorem clamp64_of_greatest_le {n : ℤ} (h : greatest64 ≤ n) : clamp64 n = greatest64 := by
  unfold clamp64
  rw [min_eq_left h]
  rfl

theorem clamp64_of_le_least {n : ℤ} (h : n ≤ least64) : clamp64 n = least64 :=
  max_eq_left ((min_le_right _ _).trans h)

/-- Clamping keeps apart what is inside the range from everything else. -/
theorem eq_of_clamp64_eq {m n : ℤ} (hlow : least64 < m) (hhigh : m < greatest64)
    (h : clamp64 m = clamp64 n) : m = n := by
  unfold clamp64 at h
  omega

end Scalar

namespace Double

open Float.Model Float.Model.UnpackedFloat

/-! ## Floors -/

theorem unpack_of_undefined {x : Float} (h : Binary.ofFloat x = .undefined) :
    x.toModel.unpack = .notANumber := by
  have htwo (k : ℕ) : Binary.twoTo k = 2 ^ k := rfl
  rw [unpack_eq_fields]
  simp only [Binary.ofFloat, htwo] at h
  split_ifs at h with hmax hzero
  rw [hmax, decode, if_pos rfl, if_neg hzero]

theorem unpack_of_infinite {x : Float} {negative : Bool}
    (h : Binary.ofFloat x = .infinite negative) :
    x.toModel.unpack = .infinity (if negative then .negative else .positive) := by
  have htwo (k : ℕ) : Binary.twoTo k = 2 ^ k := rfl
  rw [unpack_eq_fields]
  simp only [Binary.ofFloat, htwo] at h
  split_ifs at h with hmax hzero
  cases h
  rw [hmax, hzero, decode, if_pos rfl, if_pos rfl]
  simp only [decide_eq_true_eq]

theorem intCast_le_limit {n : ℤ} (h : n ≤ 2 ^ 64) : (n : ℚ) ≤ limit :=
  calc (n : ℚ) ≤ 2 ^ (64 : ℕ) := by exact_mod_cast h
    _ = 2 ^ (64 : ℤ) := (zpow_natCast 2 64).symm
    _ ≤ limit := twoPow_mono (by decide)

/-- The floor of a double is that of its place, kept in range. -/
theorem At.floor64 {x : Float} {q : ℚ} (h : At x q) : Scalar.floor64 x = Scalar.clamp64 ⌊q⌋ := by
  show Scalar.floor64Float x = _
  unfold Scalar.floor64Float
  unfold At at h
  cases hx : Binary.ofFloat x with
  | undefined =>
    rw [unpack_of_undefined hx] at h
    cases h with
    | finite hu _ => cases hu
  | infinite negative =>
    rw [unpack_of_infinite hx] at h
    cases h with
    | infinity =>
      cases negative with
      | false =>
        refine (Scalar.clamp64_of_greatest_le (Int.le_floor.mpr ?_)).symm
        simpa [Sign.apply] using intCast_le_limit (n := Scalar.greatest64) (by decide)
      | true =>
        refine (Scalar.clamp64_of_le_least (Int.cast_le.mp ((Int.floor_le _).trans ?_))).symm
        have hle := intCast_le_limit (n := -Scalar.least64) (by decide)
        push_cast at hle
        simpa [Sign.apply] using neg_le.mp hle
    | finite hu _ => cases hu
  | finite negative m e =>
    have hvalue := value?_finite negative m e
    have hplace := (stored_of_value? (hx ▸ hvalue)).1
    obtain rfl := At.unique hplace h
    show ((Binary.finite negative m e).value?.map fun q => Scalar.clamp64 q.floor).getD 0 = _
    rw [hvalue]
    rfl

/-! ## A product and a half -/

theorem At.add_right {x y : Float} {p q : ℚ} (hx : At x p) (hy : At y q) (hq : |q| < limit) :
    At (x + y) (total q p) := by
  have hsum := Stored.add hy hq hx
  rwa [unpackedAdd_comm] at hsum

/-- Where the sum of a half and the double nearest to `y` stands. -/
def lifted (y : ℚ) : ℚ := total (1 / 2) (clamped (rounded y))

theorem lifted_mono {y z : ℚ} (h : y ≤ z) : lifted y ≤ lifted z :=
  total_mono (abs_clamped_le _) (abs_clamped_le _) (le_refl _) (clamped_mono (rounded_mono h))

theorem total_of_abs_lt {p q : ℚ} (hq : |q| < limit) (hsum : |rounded (p + q)| < limit) :
    total p q = rounded (p + q) := by
  rw [total, if_pos hq, clamped_of_abs_lt hsum]

theorem le_lifted {y z : ℚ} (hz : |z| < limit) (hsum : |rounded (1 / 2 + z)| < limit)
    (h : z ≤ rounded y) : rounded (1 / 2 + z) ≤ lifted y := by
  rw [← total_of_abs_lt hz hsum]
  refine total_mono hz.le (abs_clamped_le _) (le_refl _) ?_
  rw [← clamped_of_abs_lt hz]
  exact clamped_mono h

theorem lifted_le {y z : ℚ} (hz : |z| < limit) (hsum : |rounded (1 / 2 + z)| < limit)
    (h : rounded y ≤ z) : lifted y ≤ rounded (1 / 2 + z) := by
  rw [← total_of_abs_lt hz hsum]
  refine total_mono (abs_clamped_le _) hz.le (le_refl _) ?_
  rw [← clamped_of_abs_lt hz]
  exact clamped_mono h

/-! ## Small values -/

theorem rounded_close {q : ℚ} (h : |q| < 2 ^ 28) : |rounded q - q| ≤ 1 / 2 ^ 26 := by
  have herror := rounded_error (k := 28) (by decide) (by exact_mod_cast h)
  norm_num at herror ⊢
  exact herror

/-- Neither rounding matters much. -/
theorem lifted_close {y : ℚ} (h : |y| ≤ 2 ^ 28 - 1) : |lifted y - (y + 1 / 2)| ≤ 1 / 2 ^ 25 := by
  obtain ⟨hlow, hhigh⟩ := abs_le.mp h
  have hfirst := abs_le.mp (rounded_close (h.trans_lt (by norm_num)))
  have hhalf : |1 / 2 + rounded y| < 2 ^ 28 := abs_lt.mpr ⟨by linarith, by linarith⟩
  have hsecond := abs_le.mp (rounded_close hhalf)
  have hlifted : lifted y = rounded (1 / 2 + rounded y) := by
    have hsmall : |rounded y| < limit :=
      abs_lt_limit_of_le (abs_le.mpr ⟨by linarith, by linarith⟩)
    unfold lifted
    rw [clamped_of_abs_lt hsmall]
    refine total_of_abs_lt hsmall (abs_lt_limit_of_le ?_)
    exact abs_le.mpr ⟨by linarith, by linarith⟩
  rw [hlifted]
  exact abs_le.mpr ⟨by linarith, by linarith⟩

theorem lower_of_le_lifted {y : ℚ} {n : ℤ} (hn : |(n : ℚ)| ≤ 2 ^ 28 - 2) (h : n ≤ lifted y) :
    n - 1 / 2 - 1 / 2 ^ 24 ≤ y := by
  by_contra! hlt
  obtain ⟨hlow, hhigh⟩ := abs_le.mp hn
  have hclose : |lifted (n - 1 / 2 - 1 / 2 ^ 24) - _| ≤ _ :=
    lifted_close (abs_le.mpr ⟨by linarith, by linarith⟩)
  have hmono := lifted_mono hlt.le
  linarith [(abs_le.mp hclose).2]

theorem upper_of_lifted_lt {y : ℚ} {n : ℤ} (hn : |(n : ℚ)| ≤ 2 ^ 28 - 2) (h : lifted y < n) :
    y ≤ n - 1 / 2 + 1 / 2 ^ 25 := by
  by_contra! hlt
  obtain ⟨hlow, hhigh⟩ := abs_le.mp hn
  have hclose : |lifted (n - 1 / 2 + 1 / 2 ^ 25) - _| ≤ _ :=
    lifted_close (abs_le.mpr ⟨by linarith, by linarith⟩)
  have hmono := lifted_mono hlt.le
  linarith [(abs_le.mp hclose).1]

/-! ## Large values -/

theorem le_nearestEven {m : ℤ} {q : ℚ} (h : m - 1 / 2 < q) : m ≤ nearestEven q := by
  have herror := (abs_le.mp (nearestEven_error q)).1
  have hlt : (m : ℚ) < nearestEven q + 1 := by linarith
  exact Int.lt_add_one_iff.mp (by exact_mod_cast hlt)

theorem nearestEven_le {m : ℤ} {q : ℚ} (h : q < m + 1 / 2) : nearestEven q ≤ m := by
  have herror := (abs_le.mp (nearestEven_error q)).2
  have hlt : (nearestEven q : ℚ) < m + 1 := by linarith
  exact Int.lt_add_one_iff.mp (by exact_mod_cast hlt)

/-- The space between the doubles from `2 ^ k` to its double. -/
def space (k : ℕ) : ℚ := 2 ^ (k - 52 : ℤ)

theorem space_pos (k : ℕ) : 0 < space k := twoPow_pos _

theorem space_mono {j k : ℕ} (h : j ≤ k) : space j ≤ space k := twoPow_mono (by omega)

theorem half_eq_mul_space {k : ℕ} (h : k ≤ 51) : (1 / 2 : ℚ) = 2 ^ (51 - k) * space k := by
  rw [space, ← zpow_natCast, ← twoPow_add, show ((51 - k : ℕ) : ℤ) + (k - 52) = -1 by omega]
  norm_num

theorem exponent_of_between {k : ℕ} {q : ℚ} (hlow : 2 ^ k ≤ q) (hhigh : q < 2 ^ (k + 1)) :
    exponent q = k - 52 := by
  have hlow' : ((1 : ℕ) : ℚ) * 2 ^ (k : ℤ) ≤ q := by simpa using hlow
  have hhigh' : q < ((1 : ℕ) + 1 : ℚ) * 2 ^ (k : ℤ) := by
    rw [pow_succ] at hhigh
    norm_num
    linarith
  have hlog : Nat.log2 1 = 0 := rfl
  rw [exponent_of_mem one_pos hlow' hhigh', hlog]
  omega

/-- The multiples of the space are not rounded. -/
theorem rounded_mul_space {k : ℕ} {m : ℤ} (hlow : 2 ^ k ≤ m * space k)
    (hhigh : m * space k < 2 ^ (k + 1)) : rounded (m * space k) = m * space k :=
  rounded_of_exponent (exponent_of_between hlow hhigh)

/-- What is less than half a space below a multiple is not rounded below it. -/
theorem mul_space_le_rounded {k : ℕ} {m : ℤ} {y : ℚ} (hlow : 2 ^ k + space k / 2 ≤ m * space k)
    (hhigh : m * space k < 2 ^ (k + 1)) (hy : m * space k - space k / 2 < y) :
    m * space k ≤ rounded y := by
  have hs := space_pos k
  rcases le_or_gt (m * space k) y with hge | hlt
  · have hmono := rounded_mono hge
    rwa [rounded_mul_space (by linarith) hhigh] at hmono
  · have hexp : exponent y = k - 52 := exponent_of_between (by linarith) (by linarith)
    have hnear : m ≤ nearestEven (y / 2 ^ (k - 52 : ℤ)) := by
      refine le_nearestEven ((lt_div_iff₀ hs).mpr ?_)
      show _ * space k < y
      linarith
    rw [rounded_of_nearestEven hexp rfl]
    exact mul_le_mul_of_nonneg_right (by exact_mod_cast hnear) hs.le

/-- What is less than half a space above a multiple is not rounded above it. -/
theorem rounded_le_mul_space {k : ℕ} {m : ℤ} {y : ℚ} (hlow : 2 ^ k ≤ m * space k)
    (hhigh : m * space k + space k / 2 ≤ 2 ^ (k + 1)) (hy : y < m * space k + space k / 2) :
    rounded y ≤ m * space k := by
  have hs := space_pos k
  rcases le_or_gt y (m * space k) with hle | hgt
  · have hmono := rounded_mono hle
    rwa [rounded_mul_space hlow (by linarith)] at hmono
  · have hexp : exponent y = k - 52 := exponent_of_between (by linarith) (by linarith)
    have hnear : nearestEven (y / 2 ^ (k - 52 : ℤ)) ≤ m := by
      refine nearestEven_le ((div_lt_iff₀ hs).mpr ?_)
      show y < _ * space k
      linarith
    rw [rounded_of_nearestEven hexp rfl]
    exact mul_le_mul_of_nonneg_right (by exact_mod_cast hnear) hs.le

/-- The numbers just below `n` lie between `2 ^ k` and its double, where halves are doubles. -/
structure Binade (k n : ℕ) : Prop where
  low : 2 ^ k < n
  high : n ≤ 2 ^ (k + 1)
  bits : k ≤ 51

/-- Where the values begin that come out as `n` or more. -/
def edge (k n : ℕ) : ℚ := n - 1 / 2 - space k / 2

theorem exists_binade {n : ℕ} (hlow : 2 ≤ n) (hhigh : n ≤ 2 ^ 52) : ∃ k, Binade k n := by
  have hne : n - 1 ≠ 0 := by omega
  refine ⟨(n - 1).log2, ?_, ?_, ?_⟩
  · have hself := Nat.log2_self_le hne
    omega
  · have hlt := Nat.lt_log2_self (n := n - 1)
    omega
  · have hlt := (Nat.log2_lt hne).mpr (by omega : n - 1 < 2 ^ 52)
    omega

namespace Binade

variable {k n : ℕ} {y : ℚ}

theorem space_le_half (h : Binade k n) : space k ≤ 1 / 2 := by
  have hmono : space k ≤ 2 ^ (-1 : ℤ) := twoPow_mono (by have := h.bits; omega)
  norm_num at hmono ⊢
  exact hmono

theorem low_cast (h : Binade k n) : (2 : ℚ) ^ k + 1 ≤ n := by exact_mod_cast h.low

theorem high_cast (h : Binade k n) : (n : ℚ) ≤ 2 ^ (k + 1) := by exact_mod_cast h.high

theorem le_twoPow (h : Binade k n) : n ≤ 2 ^ 52 :=
  h.high.trans (Nat.pow_le_pow_right (by decide) (by have := h.bits; omega))

/-- A whole number of halves is a whole number of spaces. -/
theorem exists_mul_space (h : Binade k n) (i : ℤ) : ∃ m : ℤ, (i / 2 : ℚ) = m * space k := by
  refine ⟨i * 2 ^ (51 - k), ?_⟩
  push_cast
  linear_combination (i : ℚ) * half_eq_mul_space h.bits

/-- The half below `n` is one of the doubles, with half a step of room on either side. -/
theorem exists_half_below (h : Binade k n) : ∃ m : ℤ, (n - 1 / 2 : ℚ) = m * space k ∧
    2 ^ k + 1 / 2 ≤ m * space k ∧ m * space k + 1 / 2 ≤ 2 ^ (k + 1) := by
  obtain ⟨m, hm⟩ := h.exists_mul_space (2 * n - 1)
  have hlow := h.low_cast
  have hhigh := h.high_cast
  push_cast at hm
  exact ⟨m, by linarith, by linarith, by linarith⟩

theorem le_rounded (h : Binade k n) (hy : edge k n < y) : n - 1 / 2 ≤ rounded y := by
  have hs := space_pos k
  have hshalf := h.space_le_half
  obtain ⟨m, hm, hlow, hhigh⟩ := h.exists_half_below
  unfold edge at hy
  rw [hm] at hy ⊢
  exact mul_space_le_rounded (by linarith) (by linarith) hy

theorem rounded_le (h : Binade k n) (hy : y < edge k n) : rounded y ≤ n - 1 / 2 - space k := by
  have hs := space_pos k
  have hshalf := h.space_le_half
  obtain ⟨m, hm, hlow, hhigh⟩ := h.exists_half_below
  have hbelow : n - 1 / 2 - space k = (m - 1 : ℤ) * space k := by
    push_cast
    linarith
  unfold edge at hy
  rw [hbelow]
  exact rounded_le_mul_space (by linarith) (by linarith) (by linarith)

theorem abs_lt_limit (h : Binade k n) {q : ℚ} (hlow : 0 ≤ q) (hhigh : q ≤ n) : |q| < limit := by
  have hn : (n : ℚ) ≤ 2 ^ 52 := by exact_mod_cast h.le_twoPow
  refine abs_lt_limit_of_le ?_
  rw [abs_of_nonneg hlow]
  linarith

/-- A half on top of a half makes a whole number. -/
theorem le_lifted (h : Binade k n) (hy : edge k n < y) : n ≤ lifted y := by
  have hlow := h.low_cast
  have hpow : (0 : ℚ) < 2 ^ k := by positivity
  have hsum : rounded (1 / 2 + (n - 1 / 2)) = n := by
    rw [add_sub_cancel]
    exact rounded_natCast (h.le_twoPow.trans_lt (by decide))
  have hfin : |rounded (1 / 2 + (n - 1 / 2))| < limit := by
    rw [hsum]
    exact h.abs_lt_limit (by linarith) (le_refl _)
  have hle := Double.le_lifted (h.abs_lt_limit (by linarith) (by linarith)) hfin (h.le_rounded hy)
  rwa [hsum] at hle

/-- One space less does not reach it. -/
theorem lifted_lt (h : Binade k n) (hy : y < edge k n) : lifted y < n := by
  have hs := space_pos k
  have hshalf := h.space_le_half
  have hlow := h.low_cast
  have hhigh := h.high_cast
  have hpow : (1 : ℚ) ≤ 2 ^ k := one_le_pow₀ (by norm_num)
  obtain ⟨m, hm⟩ := h.exists_mul_space (2 * n)
  have hbelow : n - space k = (m - 1 : ℤ) * space k := by
    push_cast at hm ⊢
    linarith
  have hsum : rounded (1 / 2 + (n - 1 / 2 - space k)) = n - space k := by
    rw [show (1 / 2 + (n - 1 / 2 - space k) : ℚ) = n - space k by ring, hbelow]
    exact rounded_mul_space (by linarith) (by linarith)
  have hfin : |rounded (1 / 2 + (n - 1 / 2 - space k))| < limit := by
    rw [hsum]
    exact h.abs_lt_limit (by linarith) (by linarith)
  have hle := Double.lifted_le (h.abs_lt_limit (by linarith) (by linarith)) hfin (h.rounded_le hy)
  rw [hsum] at hle
  linarith

end Binade

/-! ## Values with one floor -/

/-- The space does not shrink upward, so neither do the edges move closer. -/
theorem sub_le_one {n : ℕ} (hlow : 2 ≤ n) (hhigh : n < 2 ^ 52) {y z : ℚ} (hy : ⌊lifted y⌋ = n)
    (hz : ⌊lifted z⌋ = n) : z - y ≤ 1 := by
  obtain ⟨j, hj⟩ := exists_binade hlow hhigh.le
  obtain ⟨k, hk⟩ := exists_binade (n := n + 1) (by omega) hhigh
  have hyedge : edge j n ≤ y := by
    by_contra! hlt
    exact absurd (hj.lifted_lt hlt) (not_lt.mpr (Int.floor_eq_iff.mp hy).1)
  have hzedge : z ≤ edge k (n + 1) := by
    by_contra! hlt
    have hle := hk.le_lifted hlt
    push_cast at hle
    exact absurd (Int.floor_eq_iff.mp hz).2 (not_lt.mpr hle)
  have hjk : j ≤ k := by
    have hpow : 2 ^ j < 2 ^ (k + 1) := hj.low.trans (Nat.lt_of_succ_le hk.high)
    exact Nat.lt_succ_iff.mp ((Nat.pow_lt_pow_iff_right (by decide)).mp hpow)
  have hspace := space_mono hjk
  unfold edge at hyedge hzedge
  push_cast at hzedge
  linarith

/-- Small values that come out as one whole number are hardly more than one apart. -/
theorem close_of_floor_eq {y z : ℚ} {n : ℤ} (hlow : -200000000 ≤ n) (hhigh : n ≤ 200000000)
    (hyn : ⌊lifted y⌋ = n) (hzn : ⌊lifted z⌋ = n) : |y - z| ≤ 1 + 1 / 10 ^ 7 := by
  obtain ⟨hy, hy'⟩ := Int.floor_eq_iff.mp hyn
  obtain ⟨hz, hz'⟩ := Int.floor_eq_iff.mp hzn
  have hlow' : (-200000000 : ℚ) ≤ n := by exact_mod_cast hlow
  have hhigh' : (n : ℚ) ≤ 200000000 := by exact_mod_cast hhigh
  have hbound : |(n : ℚ)| ≤ 2 ^ 28 - 2 := abs_le.mpr ⟨by linarith, by linarith⟩
  have hbound' : |((n + 1 : ℤ) : ℚ)| ≤ 2 ^ 28 - 2 := by
    push_cast
    exact abs_le.mpr ⟨by linarith, by linarith⟩
  have hylow := lower_of_le_lifted hbound hy
  have hzlow := lower_of_le_lifted hbound hz
  have hyhigh := upper_of_lifted_lt hbound' (by exact_mod_cast hy')
  have hzhigh := upper_of_lifted_lt hbound' (by exact_mod_cast hz')
  push_cast at hyhigh hzhigh
  exact abs_le.mpr ⟨by linarith, by linarith⟩

end Double
end Artwork
