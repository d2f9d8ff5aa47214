import Artwork.Proofs.Double.Packing

/-!
# Doubles on the line

Every double but the undefined one stands at a place of the rational line (`At`), the comparisons
are those of the places, and addition and subtraction with a finite double keep order.
-/

namespace Artwork
namespace Double

open Float.Model Float.Model.UnpackedFloat

theorem abs_lt_limit_of_le {q : ℚ} (h : |q| ≤ 2 ^ 53) : |q| < limit := by
  have hlimit : (2 : ℚ) ^ (53 : ℤ) < limit := zpow_lt_zpow_right₀ (by norm_num) (by decide)
  exact h.trans_lt (by exact_mod_cast hlimit)

/-- Where a double stands: at its value when it is finite, at the limit when it is not. -/
def At (x : Float) (q : ℚ) : Prop := Stored x.toModel.unpack q

theorem Stored.abs_le {u : UnpackedFloat} {q : ℚ} (h : Stored u q) : |q| ≤ limit := by
  cases h with
  | infinity s => rw [abs_apply_mul, abs_of_pos limit_pos]
  | finite hu hq => exact hq.le

theorem Stored.neg {u : UnpackedFloat} {q : ℚ} (h : Stored u q) : Stored u.neg (-q) := by
  cases h with
  | infinity s =>
    have hneg := Stored.infinity (-s)
    rwa [cast_apply_neg, neg_mul] at hneg
  | finite hu hq => exact .finite hu.neg (by rwa [abs_neg])

theorem Stored.compare {u v : UnpackedFloat} {p q : ℚ} (hu : Stored u p) (hv : Stored v q) :
    u.compare v = some (compare p q) := by
  have hpos := limit_pos
  cases hu with
  | infinity s =>
    cases hv with
    | infinity s' =>
      cases s <;> cases s' <;> simp only [UnpackedFloat.compare, Sign.apply]
      · rw [compare_eq_iff_eq.mpr rfl]; rfl
      · rw [compare_lt_iff_lt.mpr (by push_cast; linarith)]; rfl
      · rw [compare_gt_iff_gt.mpr (by push_cast; linarith)]; rfl
      · rw [compare_eq_iff_eq.mpr rfl]; rfl
    | finite hv hq =>
      obtain ⟨hlow, hhigh⟩ := abs_lt.mp hq
      cases s with
      | negative =>
        rw [Sign.apply, compare_lt_iff_lt.mpr (by push_cast; linarith)]
        cases hv <;> rfl
      | positive =>
        rw [Sign.apply, compare_gt_iff_gt.mpr (by push_cast; linarith)]
        cases hv <;> rfl
  | finite hu hp =>
    cases hv with
    | infinity s =>
      obtain ⟨hlow, hhigh⟩ := abs_lt.mp hp
      cases s with
      | negative =>
        rw [Sign.apply, compare_gt_iff_gt.mpr (by push_cast; linarith)]
        cases hu with
        | zero => rfl
        | finite s => cases s <;> rfl
      | positive =>
        rw [Sign.apply, compare_lt_iff_lt.mpr (by push_cast; linarith)]
        cases hu with
        | zero => rfl
        | finite s => cases s <;> rfl
    | finite hv hq => exact hu.compare hv

theorem isLE_compare (p q : ℚ) : (compare p q).isLE = true ↔ p ≤ q := by
  rw [Ordering.isLE_iff_ne_gt]
  exact compare_le_iff_le

theorem le_iff_compare (x y : Float) :
    x ≤ y ↔ (x.toModel.unpack.compare y.toModel.unpack).any (·.isLE) = true := by
  show decide (x.toModel.unpack.le y.toModel.unpack = true) = true ↔ _
  rw [decide_eq_true_iff]
  rfl

theorem lt_iff_compare (x y : Float) :
    x < y ↔ x.toModel.unpack.compare y.toModel.unpack = some .lt := by
  show decide (x.toModel.unpack.lt y.toModel.unpack = true) = true ↔ _
  rw [decide_eq_true_iff, UnpackedFloat.lt, beq_iff_eq]

theorem At.le_iff {x y : Float} {p q : ℚ} (hx : At x p) (hy : At y q) : x ≤ y ↔ p ≤ q := by
  rw [le_iff_compare, Stored.compare hx hy]
  exact isLE_compare p q

theorem At.lt_iff {x y : Float} {p q : ℚ} (hx : At x p) (hy : At y q) : x < y ↔ p < q := by
  rw [lt_iff_compare, Stored.compare hx hy, Option.some_inj, compare_lt_iff_lt]

theorem undefined_or_at (x : Float) : x.toModel.unpack = .notANumber ∨ ∃ q, At x q :=
  unpack_stored x.toModel.toBits.toBitVec

theorem at_left_of_le {x y : Float} (h : x ≤ y) : ∃ p, At x p := by
  rcases undefined_or_at x with hx | hx
  · rw [le_iff_compare, hx] at h
    exact absurd h (by simp [UnpackedFloat.compare])
  · exact hx

theorem at_right_of_le {x y : Float} (h : x ≤ y) : ∃ q, At y q := by
  rcases undefined_or_at y with hy | hy
  · rw [le_iff_compare, hy] at h
    cases hu : x.toModel.unpack <;> rw [hu] at h <;>
      exact absurd h (by simp [UnpackedFloat.compare])
  · exact hy

theorem le_trans {x y z : Float} (hxy : x ≤ y) (hyz : y ≤ z) : x ≤ z := by
  obtain ⟨p, hp⟩ := at_left_of_le hxy
  obtain ⟨q, hq⟩ := at_left_of_le hyz
  obtain ⟨r, hr⟩ := at_right_of_le hyz
  rw [hp.le_iff hr]
  rw [hp.le_iff hq] at hxy
  rw [hq.le_iff hr] at hyz
  exact hxy.trans hyz

theorem at_of_isFinite {x : Float} (h : Scalar.isFinite x = true) : ∃ q, At x q ∧ |q| < limit := by
  obtain ⟨q, hq⟩ := Option.isSome_iff_exists.mp h
  exact ⟨q, stored_of_value? hq⟩

theorem abs_clamped_le (q : ℚ) : |clamped q| ≤ limit := by
  have hpos := limit_pos
  exact abs_le.mpr ⟨le_max_left _ _, max_le (by linarith) (min_le_right _ _)⟩

/-- Where the sum of a finite double and another one stands. -/
def total (p q : ℚ) : ℚ := if |q| < limit then clamped (rounded (p + q)) else q

theorem total_mono {p p' q q' : ℚ} (hq : |q| ≤ limit) (hq' : |q'| ≤ limit) (hp : p ≤ p')
    (h : q ≤ q') : total p q ≤ total p' q' := by
  have hbounds (a : ℚ) : -limit ≤ clamped a ∧ clamped a ≤ limit := abs_le.mp (abs_clamped_le a)
  obtain ⟨hlow, hhigh⟩ := abs_le.mp hq
  obtain ⟨hlow', hhigh'⟩ := abs_le.mp hq'
  unfold total
  split_ifs with hfin hfin' hfin'
  · exact clamped_mono (rounded_mono (by linarith))
  · -- The greater of the two is infinite, so it is the upper limit.
    obtain ⟨hgt, -⟩ := abs_lt.mp hfin
    have hlimit : q' = limit := by
      by_contra hne
      exact hfin' (abs_lt.mpr ⟨by linarith, lt_of_le_of_ne hhigh' hne⟩)
    rw [hlimit]
    exact (hbounds _).2
  · obtain ⟨-, hlt⟩ := abs_lt.mp hfin'
    have hlimit : q = -limit := by
      by_contra hne
      exact hfin (abs_lt.mpr ⟨lt_of_le_of_ne hlow (Ne.symm hne), by linarith⟩)
    rw [hlimit]
    exact (hbounds _).1
  · exact h

theorem Stored.add {u v : UnpackedFloat} {p q : ℚ} (hu : Stored u p) (hp : |p| < limit)
    (hv : Stored v q) :
    Stored (Float.Model.pack (UnpackedFloat.add .binary64 u v)).unpack (total p q) := by
  cases hu with
  | infinity s =>
    rw [abs_apply_mul, abs_of_pos limit_pos] at hp
    exact absurd hp (lt_irrefl _)
  | finite hu _ =>
    cases hv with
    | infinity s =>
      have hsum : UnpackedFloat.add .binary64 u (.infinity s) = .infinity s := by
        cases hu <;> rfl
      have htotal : ¬ |(s.apply 1 * limit : ℚ)| < limit := by
        rw [abs_apply_mul, abs_of_pos limit_pos]
        exact lt_irrefl _
      rw [hsum, unpack_pack_infinity, total, if_neg htotal]
      exact .infinity s
    | finite hv hq =>
      rw [total, if_pos hq]
      exact (hu.add hv).stored

theorem unpackedAdd_comm (u v : UnpackedFloat) :
    UnpackedFloat.add .binary64 u v = UnpackedFloat.add .binary64 v u := by
  cases u <;> cases v <;> simp only [UnpackedFloat.add]
  case infinity.infinity s t => cases s <;> cases t <;> rfl
  case zero.zero s t => cases s <;> cases t <;> rfl
  case finite.finite s m d _ t n e _ => rw [min_comm e d, Int.add_comm]

theorem At.add {x y : Float} {p q : ℚ} (hx : At x p) (hp : |p| < limit) (hy : At y q) :
    At (x + y) (total p q) :=
  Stored.add hx hp hy

theorem At.sub {x y : Float} {p q : ℚ} (hx : At x p) (hy : At y q) (hq : |q| < limit) :
    At (x - y) (total (-q) p) := by
  have hsum := Stored.add (Stored.neg hy) (by rwa [abs_neg]) hx
  rw [unpackedAdd_comm, ← unpackedSub_eq] at hsum
  exact hsum

theorem le_refl_of_isFinite {x : Float} (h : Scalar.isFinite x = true) : x ≤ x := by
  obtain ⟨q, hq, -⟩ := at_of_isFinite h
  exact (hq.le_iff hq).mpr (le_refl q)

theorem le_self_of_le {x y : Float} (h : x ≤ y) : y ≤ y := by
  obtain ⟨q, hq⟩ := at_right_of_le h
  exact (hq.le_iff hq).mpr (le_refl q)

theorem add_mono {x x' y y' : Float} (hx : Scalar.isFinite x = true)
    (hx' : Scalar.isFinite x' = true) (hxx : x ≤ x') (hyy : y ≤ y') : x + y ≤ x' + y' := by
  obtain ⟨p, hp, hpfin⟩ := at_of_isFinite hx
  obtain ⟨p', hp', hpfin'⟩ := at_of_isFinite hx'
  obtain ⟨q, hq⟩ := at_left_of_le hyy
  obtain ⟨q', hq'⟩ := at_right_of_le hyy
  rw [(hp.add hpfin hq).le_iff (hp'.add hpfin' hq')]
  exact total_mono hq.abs_le hq'.abs_le ((hp.le_iff hp').mp hxx) ((hq.le_iff hq').mp hyy)

theorem sub_mono {x x' y y' : Float} (hy : Scalar.isFinite y = true)
    (hy' : Scalar.isFinite y' = true) (hxx : x ≤ x') (hyy : y' ≤ y) : x - y ≤ x' - y' := by
  obtain ⟨q, hq, hqfin⟩ := at_of_isFinite hy
  obtain ⟨q', hq', hqfin'⟩ := at_of_isFinite hy'
  obtain ⟨p, hp⟩ := at_left_of_le hxx
  obtain ⟨p', hp'⟩ := at_right_of_le hxx
  rw [(hp.sub hq hqfin).le_iff (hp'.sub hq' hqfin')]
  have hneg : -q ≤ -q' := neg_le_neg ((hq'.le_iff hq).mp hyy)
  exact total_mono hp.abs_le hp'.abs_le hneg ((hp.le_iff hp').mp hxx)

theorem le_of_lt {x y : Float} (h : x < y) : x ≤ y := by
  rw [lt_iff_compare] at h
  rw [le_iff_compare, h]
  rfl

theorem le_of_not_lt {x y : Float} (hx : x ≤ x) (hy : y ≤ y) (h : ¬ y < x) : x ≤ y := by
  obtain ⟨p, hp⟩ := at_left_of_le hx
  obtain ⟨q, hq⟩ := at_left_of_le hy
  rw [hq.lt_iff hp] at h
  exact (hp.le_iff hq).mpr (not_lt.mp h)

theorem least_le_right {x y : Float} (hx : x ≤ x) (hy : y ≤ y) : Scalar.least x y ≤ y := by
  unfold Scalar.least
  split_ifs with h
  · exact hy
  · exact le_of_not_lt hx hy fun hlt => h (.inl hlt)

theorem isFinite_least {x y : Float} (hx : Scalar.isFinite x = true)
    (hy : Scalar.isFinite y = true) : Scalar.isFinite (Scalar.least x y) = true := by
  unfold Scalar.least
  split_ifs
  · exact hy
  · exact hx

theorem le_greatest_right {x y : Float} (hx : x ≤ x) (hy : y ≤ y) :
    y ≤ Scalar.greatest x y := by
  unfold Scalar.greatest
  split_ifs with h
  · exact hy
  · exact le_of_not_lt hy hx fun hlt => h (.inl hlt)

end Double
end Artwork
