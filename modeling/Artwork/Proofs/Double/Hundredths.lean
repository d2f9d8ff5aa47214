import Artwork.Proofs.Double.Halves

/-!
# Doubles whose hundredths come out as one

Two doubles whose hundredfold comes out as one whole number, when a half is added and the floor is
taken, are hardly more than a hundredth apart (`near_of_floor_eq`).  For small and for positive
values this is so because the hundredfold values are hardly more than one apart.  Below zero it is
not enough: what comes out as `-m` reaches from one edge to the next (`Binade.negEdge_le_and_le`),
which is more than one where the space doubles in between, that is, at `m = 2 ^ k`.  There the
doubles themselves lie on a grid, and up to `2 ^ 46` it is too wide for two of them to make use of
what is gained (`hundreds_sub_le`).  At `2 ^ 47` two doubles do.
-/

namespace Artwork
namespace Double

/-! ## Negative values -/

/-- Where the values begin whose negatives come out as less than `1 - n`. -/
def negEdge (k n : ℕ) : ℚ := n - 1 / 2 + space k / 2

theorem space_le_quarter {k : ℕ} (hk : k ≤ 50) : space k ≤ 1 / 4 := by
  have hmono : space k ≤ 2 ^ (-2 : ℤ) := twoPow_mono (by omega)
  norm_num at hmono ⊢
  exact hmono

namespace Binade

variable {j k m n : ℕ} {y : ℚ}

theorem rounded_le_half (h : Binade k n) (hy : y < negEdge k n) : rounded y ≤ n - 1 / 2 := by
  have hshalf := h.space_le_half
  obtain ⟨m, hm, hlow, hhigh⟩ := h.exists_half_below
  unfold negEdge at hy
  rw [hm] at hy ⊢
  exact rounded_le_mul_space (by linarith) (by linarith) hy

theorem half_add_space_le_rounded (h : Binade k n) (hk : k ≤ 50) (hy : negEdge k n < y) :
    n - 1 / 2 + space k ≤ rounded y := by
  have hs := space_pos k
  have hsquarter := space_le_quarter hk
  obtain ⟨m, hm, hlow, hhigh⟩ := h.exists_half_below
  have habove : n - 1 / 2 + space k = (m + 1 : ℤ) * space k := by
    push_cast
    linarith
  unfold negEdge at hy
  rw [habove]
  exact mul_space_le_rounded (by linarith) (by linarith) (by linarith)

/-- A half on top takes the half away. -/
theorem le_lifted_neg (h : Binade k n) (hy : y < negEdge k n) : 1 - n ≤ lifted (-y) := by
  have hlow := h.low_cast
  have hpow : (0 : ℚ) < 2 ^ k := by positivity
  have hsum : rounded (1 / 2 + -(n - 1 / 2)) = 1 - n := by
    have hkept : rounded (n - 1 : ℕ) = (n - 1 : ℕ) :=
      rounded_natCast (by have := h.le_twoPow; omega)
    rw [Nat.cast_pred (Nat.zero_lt_of_lt h.low)] at hkept
    rw [show (1 / 2 + -(n - 1 / 2) : ℚ) = -(n - 1) by ring, rounded_neg, hkept]
    ring
  have hfin : |rounded (1 / 2 + -(n - 1 / 2))| < limit := by
    rw [hsum, abs_sub_comm]
    exact h.abs_lt_limit (by linarith) (by linarith)
  have hplace : |(-(n - 1 / 2) : ℚ)| < limit := by
    rw [abs_neg]
    exact h.abs_lt_limit (by linarith) (by linarith)
  have hrounded : -(n - 1 / 2) ≤ rounded (-y) := by
    rw [rounded_neg]
    exact neg_le_neg (h.rounded_le_half hy)
  have hle := Double.le_lifted hplace hfin hrounded
  rwa [hsum] at hle

theorem lifted_neg_lt (h : Binade k n) (hk : k ≤ 50) (hy : negEdge k n < y) :
    lifted (-y) < 1 - n := by
  have hs := space_pos k
  have hsquarter := space_le_quarter hk
  have hlow := h.low_cast
  have hhigh := h.high_cast
  have hpow : (0 : ℚ) < 2 ^ k := by positivity
  obtain ⟨m, hm⟩ := h.exists_mul_space (2 * n - 2)
  have habove : n - 1 + space k = (m + 1 : ℤ) * space k := by
    push_cast at hm ⊢
    linarith
  have hsum : rounded (1 / 2 + -(n - 1 / 2 + space k)) = -(n - 1 + space k) := by
    rw [show (1 / 2 + -(n - 1 / 2 + space k) : ℚ) = -(n - 1 + space k) by ring, rounded_neg,
      habove, rounded_mul_space (by linarith) (by linarith)]
  have hfin : |rounded (1 / 2 + -(n - 1 / 2 + space k))| < limit := by
    rw [hsum, abs_neg]
    exact h.abs_lt_limit (by linarith) (by linarith)
  have hplace : |(-(n - 1 / 2 + space k) : ℚ)| < limit := by
    rw [abs_neg]
    exact h.abs_lt_limit (by linarith) (by linarith)
  have hrounded : rounded (-y) ≤ -(n - 1 / 2 + space k) := by
    rw [rounded_neg]
    exact neg_le_neg (h.half_add_space_le_rounded hk hy)
  have hle := Double.lifted_le hplace hfin hrounded
  rw [hsum] at hle
  linarith

/-- What comes out as `-m` lies between two edges. -/
theorem negEdge_le_and_le (hj : Binade j m) (hk : Binade k (m + 1)) (hbits : k ≤ 50)
    (h : ⌊lifted (-y)⌋ = -(m : ℤ)) : negEdge j m ≤ y ∧ y ≤ negEdge k (m + 1) := by
  obtain ⟨hlow, hhigh⟩ := Int.floor_eq_iff.mp h
  push_cast at hlow hhigh
  constructor
  · by_contra! hlt
    linarith [hj.le_lifted_neg hlt]
  · by_contra! hlt
    have hbelow := hk.lifted_neg_lt hbits hlt
    push_cast at hbelow
    linarith

/-- The space changes at a power of two only. -/
theorem eq_or_eq_pow (hj : Binade j m) (hk : Binade k (m + 1)) :
    j = k ∨ k = j + 1 ∧ m = 2 ^ k := by
  have hjk : j < k + 1 := (Nat.pow_lt_pow_iff_right (by decide)).mp
    (hj.low.trans (Nat.lt_of_succ_le hk.high))
  rcases Nat.lt_succ_iff_lt_or_eq.mp hjk with hlt | heq
  · have hkm : 2 ^ k ≤ m := Nat.lt_succ_iff.mp hk.low
    have hkj : k ≤ j + 1 := (Nat.pow_le_pow_iff_right (by decide)).mp (hkm.trans hj.high)
    obtain rfl : k = j + 1 := by omega
    exact .inr ⟨rfl, hj.high.antisymm hkm⟩
  · exact .inl heq

end Binade

/-! ## The grid of the doubles -/

/-- A double is a multiple of the space around it. -/
theorem exists_eq_mul_space {k : ℕ} {p : ℚ} (hp : rounded p = p) (hlow : 2 ^ k ≤ p)
    (hhigh : p < 2 ^ (k + 1)) : ∃ a : ℤ, p = a * space k :=
  ⟨_, hp.symm.trans (rounded_of_nearestEven (exponent_of_between hlow hhigh) rfl)⟩

theorem space_add (k i : ℕ) : space (k + i) = 2 ^ i * space k := by
  rw [space, space, ← zpow_natCast, ← twoPow_add]
  congr 1
  omega

theorem twoPow_eq_mul_space (k : ℕ) : (2 : ℚ) ^ k = 2 ^ 52 * space k := by
  rw [space, ← zpow_natCast, ← zpow_natCast, ← twoPow_add]
  congr 1
  omega

/-- Counted in spaces, two doubles near `2 ^ 59` hundredths are no more than one hundredth apart:
the multiples of a hundred fall just so in each of these binades, and no longer in the next. -/
theorem hundreds_sub_le {e : ℕ} (hlow : 21 ≤ e) (hhigh : e ≤ 39) {a b : ℤ}
    (ha : 2 ^ 59 - 2 ^ (51 - e) + 32 ≤ 100 * a) (hb : 100 * b ≤ 2 ^ 59 + 2 ^ (51 - e) + 64) :
    100 * (b - a) ≤ 2 * 2 ^ (51 - e) := by
  interval_cases e <;> norm_num at ha hb ⊢ <;> omega

/-- Where the space doubles the edges are more than one apart, but no two doubles on their grid
are more than a hundredth apart. -/
theorem sub_le_of_negEdges {e : ℕ} (hlow : 21 ≤ e) (hhigh : e ≤ 39) {p q : ℚ}
    (hp : rounded p = p) (hq : rounded q = q) (hpedge : negEdge (e + 6) (2 ^ (e + 7)) ≤ p * 100)
    (hqedge : q * 100 ≤ negEdge (e + 7) (2 ^ (e + 7) + 1)) : q - p ≤ 1 / 100 := by
  rcases le_or_gt q p with hle | hlt
  · linarith
  have hs := space_pos e
  have hbig : (2 : ℚ) ^ 21 ≤ 2 ^ e := pow_le_pow_right₀ (by norm_num) hlow
  have hpow := twoPow_eq_mul_space e
  have hhalf := half_eq_mul_space (hhigh.trans (by decide))
  simp only [negEdge, space_add, pow_add] at hpedge hqedge
  push_cast at hpedge hqedge
  obtain ⟨a, rfl⟩ := exists_eq_mul_space hp (k := e) (by linarith) (by rw [pow_succ]; linarith)
  obtain ⟨b, rfl⟩ := exists_eq_mul_space hq (k := e) (by linarith) (by rw [pow_succ]; linarith)
  have ha : 2 ^ 59 - 2 ^ (51 - e) + 32 ≤ 100 * a := by
    refine Int.cast_le.mp (le_of_mul_le_mul_right (?_ : (_ : ℚ) * space e ≤ _ * space e) hs)
    push_cast
    linarith
  have hb : 100 * b ≤ 2 ^ 59 + 2 ^ (51 - e) + 64 := by
    refine Int.cast_le.mp (le_of_mul_le_mul_right (?_ : (_ : ℚ) * space e ≤ _ * space e) hs)
    push_cast
    linarith
  have hcount : (100 * (b - a) : ℚ) ≤ 2 * 2 ^ (51 - e) := by
    exact_mod_cast hundreds_sub_le hlow hhigh ha hb
  have hle := mul_le_mul_of_nonneg_right hcount hs.le
  linarith

/-! ## Values with one floor -/

/-- Doubles below zero whose hundredths come out as one are no more than a hundredth apart. -/
theorem sub_le_of_floor_eq_neg {m : ℕ} (hlow : 200000000 ≤ m) (hhigh : m ≤ 140000000000000)
    {p q : ℚ} (hp : rounded p = p) (hq : rounded q = q) (hpm : ⌊lifted (-(p * 100))⌋ = -(m : ℤ))
    (hqm : ⌊lifted (-(q * 100))⌋ = -(m : ℤ)) : q - p ≤ 1 / 100 := by
  obtain ⟨j, hj⟩ := exists_binade (n := m) (by omega) (by omega)
  obtain ⟨k, hk⟩ := exists_binade (n := m + 1) (by omega) (by omega)
  have hk46 : k ≤ 46 := by
    have hpow : 2 ^ k < 2 ^ 47 := hk.low.trans_le (by omega)
    exact Nat.lt_succ_iff.mp ((Nat.pow_lt_pow_iff_right (by decide)).mp hpow)
  obtain ⟨hpedge, -⟩ := hj.negEdge_le_and_le hk (by omega) hpm
  obtain ⟨-, hqedge⟩ := hj.negEdge_le_and_le hk (by omega) hqm
  rcases hj.eq_or_eq_pow hk with rfl | ⟨rfl, rfl⟩
  · unfold negEdge at hpedge hqedge
    push_cast at hqedge
    linarith
  · have hj27 : 27 < j + 1 := (Nat.pow_lt_pow_iff_right (by decide)).mp
      (show 2 ^ 27 < 2 ^ (j + 1) by omega)
    obtain ⟨e, rfl⟩ : ∃ e, j = e + 6 := ⟨j - 6, by omega⟩
    exact sub_le_of_negEdges (by omega) (by omega) hp hq hpedge hqedge

/-- As far as this the floor of a lifted value is inside the range of integers, with room to
spare. -/
theorem floor_lifted_mem {y : ℚ} (hlow : -140000000000000 ≤ y) (hhigh : y ≤ 4500000000000000) :
    -140000000000000 ≤ ⌊lifted y⌋ ∧ ⌊lifted y⌋ ≤ 4500000000000000 := by
  constructor
  · have hbinade : Binade 46 140000000000001 := ⟨by norm_num, by norm_num, by decide⟩
    have hedge : -y < negEdge 46 140000000000001 := by
      have hs := space_pos 46
      unfold negEdge
      push_cast
      linarith
    have hle := hbinade.le_lifted_neg hedge
    rw [neg_neg] at hle
    refine Int.le_floor.mpr ?_
    push_cast at hle ⊢
    linarith
  · have hbinade : Binade 51 4500000000000001 := ⟨by norm_num, by norm_num, le_refl _⟩
    have hedge : y < edge 51 4500000000000001 := by
      have hs := hbinade.space_le_half
      unfold edge
      push_cast
      linarith
    refine Int.lt_add_one_iff.mp (Int.floor_lt.mpr ?_)
    exact_mod_cast hbinade.lifted_lt hedge

/-- Doubles whose hundredths come out as one are hardly more than a hundredth apart. -/
theorem near_of_floor_eq {p q : ℚ} (hp : rounded p = p) (hq : rounded q = q)
    (hlow : -140000000000000 ≤ p * 100) (hhigh : p * 100 ≤ 4500000000000000)
    (h : ⌊lifted (p * 100)⌋ = ⌊lifted (q * 100)⌋) : |p - q| ≤ 1 / 100 + 1 / 10 ^ 9 := by
  obtain ⟨hlow', hhigh'⟩ := floor_lifted_mem hlow hhigh
  obtain ⟨n, hpn⟩ : ∃ n, ⌊lifted (p * 100)⌋ = n := ⟨_, rfl⟩
  have hqn := h.symm.trans hpn
  rw [hpn] at hlow' hhigh'
  rcases lt_or_ge n (-200000000) with hneg | hpos
  · obtain ⟨m, hm⟩ := Int.eq_ofNat_of_zero_le (by omega : 0 ≤ -n)
    obtain rfl : n = -m := by omega
    rw [← neg_neg (p * 100), ← neg_mul] at hpn
    rw [← neg_neg (q * 100), ← neg_mul] at hqn
    have hp' : rounded (-p) = -p := by rw [rounded_neg, hp]
    have hq' : rounded (-q) = -q := by rw [rounded_neg, hq]
    have hpq := sub_le_of_floor_eq_neg (by omega) (by omega) hp' hq' hpn hqn
    have hqp := sub_le_of_floor_eq_neg (by omega) (by omega) hq' hp' hqn hpn
    exact abs_le.mpr ⟨by linarith, by linarith⟩
  rcases lt_or_ge 200000000 n with hlarge | hsmall
  · obtain ⟨m, rfl⟩ := Int.eq_ofNat_of_zero_le (by omega : 0 ≤ n)
    have hpq := sub_le_one (by omega) (by omega) hpn hqn
    have hqp := sub_le_one (by omega) (by omega) hqn hpn
    exact abs_le.mpr ⟨by linarith, by linarith⟩
  · obtain ⟨hle, hge⟩ := abs_le.mp (close_of_floor_eq hpos hsmall hpn hqn)
    exact abs_le.mpr ⟨by linarith, by linarith⟩

end Double
end Artwork
