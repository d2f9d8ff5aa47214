import Artwork.Proofs.Double.Hundredths
import Artwork.Proofs.Grouping.Members

/-!
# Colours that merge

Shapes merge by the keys of their colours, which count hundredths, and along a chain of shapes the
key stays the same.  So the colours of two shapes that end up as one differ by no more than a
hundredth in any channel (`group_colors`), unless both channels are far out of the range that is
meant for them, below about `-1.4 * 10 ^ 12` or above about `4.5 * 10 ^ 13`: there hundredths get
lost in the spaces between doubles, and the keys of all that is larger still are one
(`distant_reds_merge`).
-/

namespace Artwork

open Double

/-! ## Channels -/

theorem ColorKey.hundredths_eq {v : Float} {p : ℚ} (h : At v p) (hp : |p| < limit) :
    hundredths v = Scalar.clamp64 ⌊lifted (p * 100)⌋ := by
  have hhundred : At 100.0 100 ∧ |(100 : ℚ)| < limit := stored_of_value? (by decide +kernel)
  have hhalf : At 0.5 (1 / 2) ∧ |(1 / 2 : ℚ)| < limit := stored_of_value? (by decide +kernel)
  exact ((h.mul hhundred.1 hp hhundred.2).add_right hhalf.1 hhalf.2).floor64

namespace Color

/-- The values of two channels differ by no more than a hundredth, but for rounding. -/
def NearChannel (v w : Float) : Prop :=
  ∃ p q, (Binary.ofFloat v).value? = some p ∧ (Binary.ofFloat w).value? = some q ∧
    |p - q| ≤ 1 / 100 + 1 / 10 ^ 9

/-- A channel that is meant to be between 0 and 1 and is far outside.  Either end is about where
hundredths begin to get lost: at `-2 ^ 47 / 100` below zero and at `2 ^ 52 / 100` above. -/
def FarChannel (v : Float) : Prop :=
  ∃ p, (Binary.ofFloat v).value? = some p ∧ (p < -1400000000000 ∨ 45000000000000 < p)

theorem NearChannel.symm {v w : Float} (h : NearChannel v w) : NearChannel w v := by
  obtain ⟨p, q, hp, hq, hle⟩ := h
  exact ⟨q, p, hq, hp, abs_sub_comm p q ▸ hle⟩

/-- Equal hundredths mean near channels as soon as one of the two is not far out. -/
theorem nearChannel_of_hundredths {v w : Float} (hv : Scalar.isFinite v = true)
    (hw : Scalar.isFinite w = true) (hfar : ¬ FarChannel v)
    (h : ColorKey.hundredths v = ColorKey.hundredths w) : NearChannel v w := by
  obtain ⟨p, hp⟩ := Option.isSome_iff_exists.mp hv
  obtain ⟨q, hq⟩ := Option.isSome_iff_exists.mp hw
  obtain ⟨hvp, hpfin⟩ := stored_of_value? hp
  obtain ⟨hwq, hqfin⟩ := stored_of_value? hq
  have hlow : -140000000000000 ≤ p * 100 := by
    have hle : -1400000000000 ≤ p := not_lt.mp fun hlt => hfar ⟨p, hp, .inl hlt⟩
    linarith
  have hhigh : p * 100 ≤ 4500000000000000 := by
    have hle : p ≤ 45000000000000 := not_lt.mp fun hlt => hfar ⟨p, hp, .inr hlt⟩
    linarith
  have hfloor : ⌊lifted (p * 100)⌋ = ⌊lifted (q * 100)⌋ := by
    rw [ColorKey.hundredths_eq hvp hpfin, ColorKey.hundredths_eq hwq hqfin] at h
    obtain ⟨hmem, hmem'⟩ := floor_lifted_mem hlow hhigh
    exact Scalar.eq_of_clamp64_eq (hmem.trans_lt' (by decide)) (hmem'.trans_lt (by decide)) h
  have hpkept := (Stored.holds hvp hpfin).rounded_eq
  have hqkept := (Stored.holds hwq hqfin).rounded_eq
  exact ⟨p, q, hp, hq, near_of_floor_eq hpkept hqkept hlow hhigh hfloor⟩

theorem near_or_far_of_hundredths {v w : Float} (hv : Scalar.isFinite v = true)
    (hw : Scalar.isFinite w = true) (h : ColorKey.hundredths v = ColorKey.hundredths w) :
    NearChannel v w ∨ FarChannel v ∧ FarChannel w := by
  by_cases hfar : FarChannel v
  · by_cases hfar' : FarChannel w
    · exact .inr ⟨hfar, hfar'⟩
    · exact .inl (nearChannel_of_hundredths hw hv hfar' h.symm).symm
  · exact .inl (nearChannel_of_hundredths hv hw hfar h)

-- Just behind either end there are two channels of one key that are further apart.
example :
    ColorKey.hundredths (-1407374883553.2852) = ColorKey.hundredths (-1407374883553.2751) ∧
      ColorKey.hundredths 45035996273704.97 = ColorKey.hundredths 45035996273704.984 := by
  decide +kernel

/-! ## Colours -/

def IsFinite (c : Color Float) : Prop := ∀ v ∈ c.channels, Scalar.isFinite v = true

theorem isFinite_iff {c : Color Float} :
    c.IsFinite ↔ Scalar.isFinite c.red = true ∧ Scalar.isFinite c.green = true ∧
      Scalar.isFinite c.blue = true := by
  simp [IsFinite, channels]

/-- No channel differs by more than a hundredth. -/
def Near (c d : Color Float) : Prop := List.Forall₂ NearChannel c.channels d.channels

theorem near_red_of_rel {c d : Color Float} (h : Option.Rel Near (some c) (some d)) :
    NearChannel c.red d.red := by
  cases h with
  | some hchannels =>
    cases hchannels with
    | cons hred _ => exact hred

/-- No channel differs by more than a hundredth, apart from those that are far out in both. -/
def NearInRange (c d : Color Float) : Prop :=
  List.Forall₂ (fun v w => NearChannel v w ∨ FarChannel v ∧ FarChannel w) c.channels d.channels

theorem nearInRange_of_key {c d : Option (Color Float)} (hc : ∀ k ∈ c, k.IsFinite)
    (hd : ∀ k ∈ d, k.IsFinite) (h : ColorKey.ofColor? c = ColorKey.ofColor? d) :
    Option.Rel NearInRange c d := by
  cases c with
  | none =>
    cases d with
    | none => exact .none
    | some d => cases h
  | some c =>
    cases d with
    | none => cases h
    | some d =>
      obtain ⟨hred, hgreen, hblue⟩ : ColorKey.hundredths c.red = ColorKey.hundredths d.red ∧
          ColorKey.hundredths c.green = ColorKey.hundredths d.green ∧
            ColorKey.hundredths c.blue = ColorKey.hundredths d.blue := by
        simpa [ColorKey.ofColor?] using h
      obtain ⟨hcr, hcg, hcb⟩ := isFinite_iff.mp (hc c rfl)
      obtain ⟨hdr, hdg, hdb⟩ := isFinite_iff.mp (hd d rfl)
      exact .some (.cons (near_or_far_of_hundredths hcr hdr hred)
        (.cons (near_or_far_of_hundredths hcg hdg hgreen)
          (.cons (near_or_far_of_hundredths hcb hdb hblue) .nil)))

end Color

/-- The channels of both colours are finite. -/
def Shape.HasFiniteColors (s : Shape Float) : Prop :=
  (∀ c ∈ s.fill, c.IsFinite) ∧ ∀ c ∈ s.stroke, c.IsFinite

namespace Grouping

/-- A filled square in the corner of the canvas. -/
def square (c : Color Float) : Shape Float where
  segments := [.moveTo ⟨0.0, 0.0⟩, .lineTo ⟨10.0, 0.0⟩, .lineTo ⟨10.0, 10.0⟩, .lineTo ⟨0.0, 10.0⟩,
    .close]
  fill := some c
  stroke := none
  strokeWidth := 0.25
  box := ⟨0.0, 0.0, 10.0, 10.0⟩

theorem square_hasFiniteColors {c : Color Float} (h : c.IsFinite) : (square c).HasFiniteColors := by
  refine ⟨fun k hk => ?_, nofun⟩
  obtain rfl := Option.some_inj.mp hk
  exact h

theorem together_squares {c d : Color Float}
    (h : ColorKey.ofColor? (some c) = ColorKey.ofColor? (some d)) :
    Together [square c, square d] 1.5 0 1 := by
  have hnear :
      Box.isNear (⟨0.0, 0.0, 10.0, 10.0⟩ : Box Float) ⟨0.0, 0.0, 10.0, 10.0⟩ 1.5 = true := by
    decide +kernel
  have hadjacent : Adjacent [square c, square d] 1.5 0 1 :=
    ⟨Nat.zero_lt_one, square c, square d, rfl, rfl, h, rfl, hnear⟩
  exact together_iff.mpr ⟨Nat.zero_lt_two, Nat.one_lt_two, .rel 0 1 hadjacent⟩

/-- Of two shapes that end up as one both have a fill or neither has, and the fills are near unless
they are far out of range; likewise the strokes. -/
theorem group_colors {shapes : List (Shape Float)} {gap : Float} {i j : Nat} {s t : Shape Float}
    (hs : shapes[i]? = some s) (ht : shapes[j]? = some t) (hsfin : s.HasFiniteColors)
    (htfin : t.HasFiniteColors) (h : Together shapes gap i j) :
    Option.Rel Color.NearInRange s.fill t.fill ∧
      Option.Rel Color.NearInRange s.stroke t.stroke := by
  obtain ⟨hfill, hstroke⟩ := Prod.mk.inj (h.styleKey_eq hs ht)
  exact ⟨Color.nearInRange_of_key hsfin.1 htfin.1 hfill,
    Color.nearInRange_of_key hsfin.2 htfin.2 hstroke⟩

/-- Two reds of one key. -/
theorem group_colors_reds :
    let red : Color Float := ⟨1.0, 0.0, 0.0⟩
    let brick : Color Float := ⟨0.996, 0.004, 0.0⟩
    (square red).HasFiniteColors ∧ (square brick).HasFiniteColors ∧
      Together [square red, square brick] 1.5 0 1 ∧
        Option.Rel Color.NearInRange (some red) (some brick) := by
  intro red brick
  have hred : (square red).HasFiniteColors :=
    square_hasFiniteColors (Color.isFinite_iff.mpr ⟨by decide, by decide, by decide⟩)
  have hbrick : (square brick).HasFiniteColors :=
    square_hasFiniteColors (Color.isFinite_iff.mpr ⟨by decide, by decide, by decide⟩)
  have htogether := together_squares (c := red) (d := brick) (by decide +kernel)
  exact ⟨hred, hbrick, htogether, (group_colors rfl rfl hred hbrick htogether).1⟩

/-- Reds whose channels are finite merge although they are as far apart as they are far out. -/
theorem distant_reds_merge :
    ¬ ∀ (shapes : List (Shape Float)) (gap : Float) (i j : Nat) (s t : Shape Float),
      isUsable gap = true → (∀ u ∈ shapes, u.HasFiniteColors) → shapes[i]? = some s →
        shapes[j]? = some t → Together shapes gap i j →
          Option.Rel Color.Near s.fill t.fill ∧ Option.Rel Color.Near s.stroke t.stroke := by
  intro hnear
  let near : Color Float := ⟨1e30, 0.0, 0.0⟩
  let far : Color Float := ⟨2e30, 0.0, 0.0⟩
  have hfinite : ∀ u ∈ [square near, square far], u.HasFiniteColors := by
    intro u hu
    have hzero : Scalar.isFinite (0.0 : Float) = true := by decide
    obtain rfl | rfl : u = square near ∨ u = square far := by simpa using hu
    · exact square_hasFiniteColors (Color.isFinite_iff.mpr ⟨by decide +kernel, hzero, hzero⟩)
    · exact square_hasFiniteColors (Color.isFinite_iff.mpr ⟨by decide +kernel, hzero, hzero⟩)
  have htogether := together_squares (c := near) (d := far) (by decide +kernel)
  obtain ⟨hfill, -⟩ := hnear [square near, square far] 1.5 0 1 (square near) (square far)
    (by decide) hfinite rfl rfl htogether
  obtain ⟨p, q, hp, hq, hle⟩ := Color.near_red_of_rel (c := near) (d := far) hfill
  have hp' : (Binary.ofFloat near.red).value? = some 1000000000000000019884624838656 := by
    decide +kernel
  have hq' : (Binary.ofFloat far.red).value? = some 2000000000000000039769249677312 := by
    decide +kernel
  obtain rfl := Option.some_inj.mp (hp.symm.trans hp')
  obtain rfl := Option.some_inj.mp (hq.symm.trans hq')
  norm_num [abs_of_neg] at hle

end Grouping
end Artwork
