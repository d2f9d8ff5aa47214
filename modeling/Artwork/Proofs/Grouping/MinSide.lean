import Artwork.Proofs.Double.Line
import Artwork.Proofs.Grouping.Members
import Artwork.Proofs.Machine.Blocks

/-!
# How thin a merged shape can be

The box of a painted path is widened to `Box.minSide` each way.  The box of a merged shape is not:
it is a union, which adds every size to its origin and takes the difference again, and the two
roundings need not cancel.  What they leave of the last member's sides bounds the sides of the
merged shape from below, and a shape that merges with no other is left with just that
(`group_minSide`).  Within 8 metres of the origin the loss is below a ten-millionth of a millimetre.
-/

namespace Artwork

/-- A box in one direction. -/
structure Extent where
  origin : Float
  size : Float

namespace Extent

def stop (e : Extent) : Float := e.origin + e.size

def union (d e : Extent) : Extent :=
  let origin := Scalar.least d.origin e.origin
  ⟨origin, Scalar.greatest d.stop e.stop - origin⟩

/-- What a union leaves of the size, when the other extent adds nothing. -/
def kept (e : Extent) : Float := e.stop - e.origin

/-- The invariant of a chain of unions: the origin stays finite, and the size stays a number,
although it may overflow. -/
structure IsSound (e : Extent) : Prop where
  origin : Scalar.isFinite e.origin = true
  size : e.size ≤ e.size

variable {d e : Extent}

theorem union_self (e : Extent) : e.union e = ⟨e.origin, e.kept⟩ := by
  simp only [union, Scalar.least, Scalar.greatest, ite_self, kept]

theorem IsSound.origin_le (h : e.IsSound) : e.origin ≤ e.origin :=
  Double.le_refl_of_isFinite h.origin

theorem IsSound.stop_le (h : e.IsSound) : e.stop ≤ e.stop :=
  Double.add_mono h.origin h.origin h.origin_le h.size

/-- A union reaches from no later than the second origin to no earlier than the second stop, and
rounding keeps order. -/
theorem IsSound.kept_le_union (hd : d.IsSound) (he : e.IsSound) : e.kept ≤ (d.union e).size := by
  have horigin : Scalar.least d.origin e.origin ≤ e.origin :=
    Double.least_le_right hd.origin_le he.origin_le
  have hstop : e.stop ≤ Scalar.greatest d.stop e.stop :=
    Double.le_greatest_right hd.stop_le he.stop_le
  exact Double.sub_mono he.origin (Double.isFinite_least hd.origin he.origin) hstop horigin

theorem IsSound.union (hd : d.IsSound) (he : e.IsSound) : (d.union e).IsSound where
  origin := Double.isFinite_least hd.origin he.origin
  size := Double.le_self_of_le (hd.kept_le_union he)

/-- A larger size keeps more. -/
theorem IsSound.kept_mono {s : Float} (h : e.IsSound) (hs : s ≤ e.size) :
    e.origin + s - e.origin ≤ e.kept :=
  Double.sub_mono h.origin h.origin (Double.add_mono h.origin h.origin h.origin_le hs) h.origin_le

end Extent

namespace Box

def across (b : Box Float) : Extent := ⟨b.x, b.w⟩

def down (b : Box Float) : Extent := ⟨b.y, b.h⟩

/-- All four numbers are finite. -/
structure IsFinite (b : Box Float) : Prop where
  x : Scalar.isFinite b.x = true
  y : Scalar.isFinite b.y = true
  w : Scalar.isFinite b.w = true
  h : Scalar.isFinite b.h = true

/-- The least size is reached each way. -/
def Wide (b : Box Float) : Prop := minSide ≤ b.w ∧ minSide ≤ b.h

/-- The least size is still reached after the sizes were added to the origin and taken back. -/
def Keeps (b : Box Float) : Prop := minSide ≤ b.right - b.x ∧ minSide ≤ b.bottom - b.y

variable {b : Box Float}

theorem IsFinite.across (h : b.IsFinite) : b.across.IsSound :=
  ⟨h.x, Double.le_refl_of_isFinite h.w⟩

theorem IsFinite.down (h : b.IsFinite) : b.down.IsSound :=
  ⟨h.y, Double.le_refl_of_isFinite h.h⟩

/-- A wide box keeps its sides when sides of the least size would be kept at its origin. -/
theorem IsFinite.keeps_of_origin (h : b.IsFinite) (hwide : b.Wide)
    (hx : minSide ≤ b.x + minSide - b.x) (hy : minSide ≤ b.y + minSide - b.y) : b.Keeps :=
  ⟨Double.le_trans hx (h.across.kept_mono hwide.1), Double.le_trans hy (h.down.kept_mono hwide.2)⟩

theorem minSide_le_greatest (s : Float) : minSide ≤ Scalar.greatest s minSide := by
  have hmin : (minSide : Float) ≤ minSide := by decide
  unfold Scalar.greatest
  split_ifs with h
  · exact hmin
  · have hs : s ≤ s := by_contra fun hs => h (.inr hs)
    exact Double.le_of_not_lt hmin hs fun hlt => h (.inl hlt)

/-- The box of a painted path is wide, whatever its points are. -/
theorem ofSegments?_wide {path : List (Segment Float)} (h : ofSegments? path = some b) :
    b.Wide := by
  obtain ⟨tight, -, rfl⟩ := Option.map_eq_some_iff.mp h
  exact ⟨minSide_le_greatest tight.w, minSide_le_greatest tight.h⟩

/-! ## How much is lost -/

/-- The origin is at most 8 metres away each way. -/
structure InReach (b : Box Float) : Prop where
  x : -8000 ≤ b.x ∧ b.x ≤ 8000
  y : -8000 ≤ b.y ∧ b.y ≤ 8000

theorem rounded_almost_half :
    Double.rounded (1 / 2 - 1 / 2 ^ 40) = 1 / 2 - 1 / 2 ^ 40 := by
  have hvalue : (1 / 2 - 1 / 2 ^ 40 : ℚ) = ((2 ^ 53 - 2 ^ 14 : ℕ) : ℤ) * 2 ^ (-54 : ℤ) := by
    norm_num
  have hlog : (2 ^ 53 - 2 ^ 14 : ℕ).log2 = 52 := by decide +kernel
  rw [hvalue]
  apply Double.rounded_of_exponent
  rw [Int.cast_natCast, Double.exponent_natCast_mul (by decide), hlog]
  rfl

/-- The sum is rounded by at most 2⁻⁴¹, and the least size less 2⁻⁴⁰ is a double, so that the
rounded difference is no less. -/
theorem almost_half_le {p : ℚ} (h : |p| ≤ 8000) :
    |Double.rounded (p + 1 / 2)| < Double.limit ∧
      1 / 2 - 1 / 2 ^ 40 ≤ Double.clamped (Double.rounded (-p + Double.rounded (p + 1 / 2))) := by
  obtain ⟨hlow, hhigh⟩ := abs_le.mp h
  have hsize : |p + 1 / 2| < (2 : ℚ) ^ (13 : ℤ) := by
    rw [abs_lt]
    constructor <;> norm_num <;> linarith
  have hsum : |Double.rounded (p + 1 / 2) - (p + 1 / 2)| ≤ 1 / 2 ^ 41 := by
    have herror := Double.rounded_error (by decide) hsize
    norm_num at herror ⊢
    exact herror
  obtain ⟨hslow, hshigh⟩ := abs_le.mp hsum
  norm_num at hslow hshigh
  have hdiff : (1 / 2 - 1 / 2 ^ 40 : ℚ) ≤ -p + Double.rounded (p + 1 / 2) := by
    norm_num
    linarith
  have halmost : |(1 / 2 - 1 / 2 ^ 40 : ℚ)| < Double.limit :=
    Double.abs_lt_limit_of_le (by norm_num [abs_of_pos])
  have hmono := Double.clamped_mono (Double.rounded_mono hdiff)
  rw [rounded_almost_half, Double.clamped_of_abs_lt halmost] at hmono
  refine ⟨Double.abs_lt_limit_of_le (abs_le.mpr ⟨?_, ?_⟩), hmono⟩
  · norm_num
    linarith
  · norm_num
    linarith

/-- In reach, the two roundings cost less than a ten-millionth of a millimetre. -/
theorem almost_minSide_le {x : Float} (hx : -8000 ≤ x ∧ x ≤ 8000) :
    0.4999999 ≤ x + minSide - x := by
  have hat {y : Float} {q : ℚ} (h : (Binary.ofFloat y).value? = some q) : Double.At y q :=
    (Double.stored_of_value? h).1
  have hneg : Double.At (-8000) (-8000) := hat (by decide +kernel)
  have hpos : Double.At 8000 8000 := hat (by decide +kernel)
  have hhalf : Double.At minSide (1 / 2) := hat (by decide +kernel)
  have hbound : Double.At 0.4999999 (9007197453301141 / 18014398509481984) :=
    hat (by decide +kernel)
  obtain ⟨p, hp⟩ := Double.at_left_of_le hx.2
  have habs : |p| ≤ 8000 := abs_le.mpr ⟨(hneg.le_iff hp).mp hx.1, (hp.le_iff hpos).mp hx.2⟩
  have hpfin : |p| < Double.limit := Double.abs_lt_limit_of_le (habs.trans (by norm_num))
  obtain ⟨hsumfin, hkept⟩ := almost_half_le habs
  have hadd : Double.At (x + minSide) (Double.rounded (p + 1 / 2)) := by
    have h := hp.add hpfin hhalf
    have hhalffin : |(1 / 2 : ℚ)| < Double.limit :=
      Double.abs_lt_limit_of_le (by norm_num [abs_of_pos])
    rwa [Double.total, if_pos hhalffin, Double.clamped_of_abs_lt hsumfin] at h
  have hsub := hadd.sub hp hpfin
  rw [Double.total, if_pos hsumfin] at hsub
  rw [hbound.le_iff hsub]
  exact (by norm_num : (9007197453301141 / 18014398509481984 : ℚ) ≤ 1 / 2 - 1 / 2 ^ 40).trans hkept

theorem IsFinite.almost_kept (h : b.IsFinite) (hwide : b.Wide) (hreach : b.InReach) :
    0.4999999 ≤ b.across.kept ∧ 0.4999999 ≤ b.down.kept :=
  ⟨Double.le_trans (almost_minSide_le hreach.x) (h.across.kept_mono hwide.1),
    Double.le_trans (almost_minSide_le hreach.y) (h.down.kept_mono hwide.2)⟩

end Box

namespace Grouping

theorem box_of_merge? {members : List (Shape Float)} {c : Shape Float}
    (h : merge? members = some c) :
    ∃ first ∈ members, c.box = members.foldl (fun b s => b.union s.box) first.box := by
  cases members with
  | nil => exact absurd h (by simp [merge?])
  | cons first rest =>
    rw [merge?, Option.some_inj] at h
    exact ⟨first, List.mem_cons_self, by rw [← h]⟩

section Side

-- Both directions are one argument: `side` is `Box.across` or `Box.down`.
variable {side : Box Float → Extent}

theorem isSound_foldl_union (hunion : ∀ b c, side (b.union c) = (side b).union (side c))
    {members : List (Shape Float)} (hs : ∀ s ∈ members, (side s.box).IsSound) {b : Box Float}
    (hb : (side b).IsSound) : (side (members.foldl (fun b s => b.union s.box) b)).IsSound := by
  induction members generalizing b with
  | nil => exact hb
  | cons s rest ih =>
    rw [List.foldl_cons]
    refine ih (fun t ht => hs t (List.mem_cons_of_mem s ht)) ?_
    rw [hunion]
    exact hb.union (hs s List.mem_cons_self)

theorem kept_le_of_merge? (hunion : ∀ b c, side (b.union c) = (side b).union (side c))
    {members : List (Shape Float)} {last c : Shape Float}
    (hs : ∀ s ∈ members ++ [last], (side s.box).IsSound)
    (h : merge? (members ++ [last]) = some c) : (side last.box).kept ≤ (side c.box).size := by
  obtain ⟨first, hfirst, hbox⟩ := box_of_merge? h
  have hmembers : ∀ s ∈ members, (side s.box).IsSound :=
    fun s hmem => hs s (List.mem_append_left _ hmem)
  have hbefore := isSound_foldl_union hunion hmembers (hs first hfirst)
  rw [List.foldl_append, List.foldl_cons, List.foldl_nil] at hbox
  rw [hbox, hunion]
  exact hbefore.kept_le_union (hs last (by simp))

end Side

section Merged

variable {members : List (Shape Float)} {last c : Shape Float}

theorem kept_le_sides (hs : ∀ s ∈ members ++ [last], s.box.IsFinite)
    (h : merge? (members ++ [last]) = some c) :
    last.box.across.kept ≤ c.box.w ∧ last.box.down.kept ≤ c.box.h :=
  ⟨kept_le_of_merge? (fun _ _ => rfl) (fun s hmem => (hs s hmem).across) h,
    kept_le_of_merge? (fun _ _ => rfl) (fun s hmem => (hs s hmem).down) h⟩

theorem wide_of_keeps (hs : ∀ s ∈ members ++ [last], s.box.IsFinite)
    (h : merge? (members ++ [last]) = some c) (hkeeps : last.box.Keeps) : c.box.Wide := by
  obtain ⟨hw, hh⟩ := kept_le_sides hs h
  exact ⟨Double.le_trans hkeeps.1 hw, Double.le_trans hkeeps.2 hh⟩

/-- A shape alone is united with itself, which leaves what it keeps and no more. -/
theorem keeps_of_lone (h : merge? [last] = some c) (hwide : c.box.Wide) : last.box.Keeps := by
  have hbox : c.box = last.box.union last.box := by
    rw [merge?, Option.some_inj] at h
    rw [← h]
    rfl
  have hw : c.box.w = last.box.across.kept := by
    rw [hbox]
    exact congrArg Extent.size (Extent.union_self last.box.across)
  have hh : c.box.h = last.box.down.kept := by
    rw [hbox]
    exact congrArg Extent.size (Extent.union_self last.box.down)
  rwa [Box.Wide, hw, hh] at hwide

end Merged

/-- Some listing makes a machine collect the shape. -/
def IsCollected (s : Shape Float) : Prop :=
  ∃ (height : Float) (entries : List (Entry Float)),
    s ∈ ((Machine.start height Collector.empty).runAll entries).device.shapes

theorem IsCollected.wide {s : Shape Float} (h : IsCollected s) : s.box.Wide := by
  obtain ⟨height, entries, hs⟩ := h
  obtain ⟨state, style, path, hpaint⟩ := Machine.exists_ofPaint?_of_mem hs
  obtain ⟨box, hbox, rfl⟩ := Option.map_eq_some_iff.mp hpaint
  exact Box.ofSegments?_wide hbox

/-- Every merged shape is wide whose last member keeps its sides, and a shape that merges with no
other is wide only then.  A machine collects wide shapes only.  A wide last member keeps its sides
where sides of the least size are kept at its origin, and if it is in reach next to nothing is
lost. -/
theorem group_minSide {shapes : List (Shape Float)} {gap : Float}
    (hfin : ∀ s ∈ shapes, s.box.IsFinite) {c : Shape Float} (hc : c ∈ group shapes gap) :
    ∃ members last, (members ++ [last]).Sublist shapes ∧ merge? (members ++ [last]) = some c ∧
      (last.box.Keeps → c.box.Wide) ∧
      (members = [] → c.box.Wide → last.box.Keeps) ∧
      (IsCollected last → last.box.Wide) ∧
      (last.box.Wide → Box.minSide ≤ last.box.x + Box.minSide - last.box.x →
        Box.minSide ≤ last.box.y + Box.minSide - last.box.y → c.box.Wide) ∧
      (last.box.Wide → last.box.InReach → 0.4999999 ≤ c.box.w ∧ 0.4999999 ≤ c.box.h) := by
  obtain ⟨all, hsub, hmerge⟩ := exists_members hc
  obtain rfl | ⟨members, last, rfl⟩ := List.eq_nil_or_concat' all
  · exact absurd hmerge (by simp [merge?])
  · have hall : ∀ s ∈ members ++ [last], s.box.IsFinite := fun s hs => hfin s (hsub.subset hs)
    have hlast := hall last (by simp)
    refine ⟨members, last, hsub, hmerge, wide_of_keeps hall hmerge, ?_, IsCollected.wide, ?_, ?_⟩
    · rintro rfl hwide
      exact keeps_of_lone hmerge hwide
    · intro hwide hx hy
      exact wide_of_keeps hall hmerge (hlast.keeps_of_origin hwide hx hy)
    · intro hwide hreach
      obtain ⟨hw, hh⟩ := kept_le_sides hall hmerge
      obtain ⟨hw', hh'⟩ := hlast.almost_kept hwide hreach
      exact ⟨Double.le_trans hw' hw, Double.le_trans hh' hh⟩

/-- A painted vertical line of 10 millimetres; its box has been widened. -/
def lineAt (x : Float) : Shape Float :=
  { segments := [.moveTo ⟨x, x⟩, .lineTo ⟨x, x + 10⟩]
    fill := none
    stroke := some ⟨0, 0, 0⟩
    strokeWidth := 0.25
    box := ⟨x, x, 0.5, 10⟩ }

theorem lineAt_isFinite {x : Float} (h : Scalar.isFinite x = true) : (lineAt x).box.IsFinite where
  x := h
  y := h
  w := (by decide : Scalar.isFinite (0.5 : Float) = true)
  h := (by decide : Scalar.isFinite (10 : Float) = true)

theorem group_minSide_pair :
    let shapes := [lineAt 1, lineAt 2]
    let merged : Shape Float :=
      { lineAt 1 with
        segments := (lineAt 1).segments ++ (lineAt 2).segments
        box := ⟨1, 1, 1.5, 11⟩ }
    (∀ s ∈ shapes, s.box.IsFinite) ∧ merged ∈ group shapes 1.5 ∧
      ∃ members last, (members ++ [last]).Sublist shapes ∧
        merge? (members ++ [last]) = some merged ∧
        (last.box.Keeps → merged.box.Wide) ∧
        (members = [] → merged.box.Wide → last.box.Keeps) ∧
        (IsCollected last → last.box.Wide) ∧
        (last.box.Wide → Box.minSide ≤ last.box.x + Box.minSide - last.box.x →
          Box.minSide ≤ last.box.y + Box.minSide - last.box.y → merged.box.Wide) ∧
        (last.box.Wide → last.box.InReach →
          0.4999999 ≤ merged.box.w ∧ 0.4999999 ≤ merged.box.h) := by
  intro shapes merged
  have hfin : ∀ s ∈ shapes, s.box.IsFinite := by
    intro s hs
    rcases List.mem_pair.mp hs with rfl | rfl
    · exact lineAt_isFinite (by decide)
    · exact lineAt_isFinite (by decide)
  have hmem : merged ∈ group shapes 1.5 := by decide +kernel
  exact ⟨hfin, hmem, group_minSide hfin hmem⟩

/-- A wide box is not always left wide: one line alone comes out of grouping thinner than it was. -/
theorem lone_line_not_wide :
    ¬ ∀ (shapes : List (Shape Float)) (gap : Float), isUsable gap = true →
      (∀ s ∈ shapes, s.box.IsFinite ∧ s.box.Wide) → ∀ c ∈ group shapes gap, c.box.Wide := by
  intro hwide
  have hline : ∀ s ∈ [lineAt 0.2], s.box.IsFinite ∧ s.box.Wide := by
    intro s hs
    rw [List.mem_singleton.mp hs]
    exact ⟨lineAt_isFinite (by decide), by decide, by decide⟩
  have hmem : { lineAt 0.2 with box := (lineAt 0.2).box.union (lineAt 0.2).box } ∈
      group [lineAt 0.2] 1.5 := by decide +kernel
  have hthin := (hwide [lineAt 0.2] 1.5 (by decide) hline _ hmem).1
  exact absurd hthin (by decide +kernel)

end Grouping
end Artwork
