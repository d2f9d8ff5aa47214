import Artwork.Proofs.Geometry.Hull
import Artwork.Proofs.Grouping.Members
import Artwork.Proofs.Import.Endings
import Artwork.Proofs.Machine.Blocks

/-!
# Boxes of a drawing

On exact coordinates the box of every shape in a drawing holds every point of the shape, merged or
not, and the box of a merged shape is the smallest around the boxes of its members
(`page_boxes`).  The points get into a box where a path is painted; from there on only boxes have
to be compared with boxes.
-/

namespace Artwork

open Relation

/-- The box holds every point that the segments name. -/
def Shape.Enclosed (s : Shape Rat) : Prop :=
  ∀ g ∈ s.segments, ∀ p ∈ g.points, s.box.containsPoint p 0 = true

theorem Shape.enclosed_of_ofPaint? {s : Shape Rat} {state : GraphicsState Rat} {style : PaintStyle}
    {path : List (Segment Rat)} (h : ofPaint? state style path = some s) : s.Enclosed := by
  obtain ⟨box, hbox, rfl⟩ := Option.map_eq_some_iff.mp h
  intro g hg p hp
  exact Box.containsPoint_of_ofSegments? hbox (List.mem_flatMap.mpr ⟨g, hg, hp⟩)

theorem Import.enclosed_painted {size : PageSize Rat} {entries : List (Entry Rat)} :
    ∀ s ∈ painted size entries, s.Enclosed := by
  intro s hs
  obtain ⟨state, style, path, hpaint⟩ := Machine.exists_ofPaint?_of_mem hs
  exact Shape.enclosed_of_ofPaint? hpaint

namespace Grouping

/-- The box that grows over the members is the smallest around their boxes. -/
theorem isHull_foldl {first : Shape Rat} {members : List (Shape Rat)} (hfirst : first ∈ members)
    (hproper : ∀ m ∈ members, m.box.Proper) :
    (members.foldl (fun b m => b.union m.box) first.box).IsHull (members.map Shape.box) := by
  rw [← List.foldl_map]
  exact Box.isHull_foldl_union (List.forall_mem_map.mpr hproper) (List.mem_map_of_mem hfirst)

theorem isHull_of_merge? {members : List (Shape Rat)} (hne : members ≠ [])
    (hproper : ∀ m ∈ members, m.box.Proper) :
    ∃ s, merge? members = some s ∧ s.box.IsHull (members.map Shape.box) := by
  cases members with
  | nil => exact absurd rfl hne
  | cons first rest => exact ⟨_, rfl, isHull_foldl List.mem_cons_self hproper⟩

/-- The boxes at some indices. -/
def boxesAt (shapes : List (Shape Rat)) (c : List Nat) : List (Box Rat) :=
  c.filterMap fun i => shapes[i]?.map Shape.box

theorem IsMerger.isHull {shapes : List (Shape Rat)} {c : List Nat} {s : Shape Rat}
    (h : IsMerger shapes c s) (hproper : ∀ m ∈ shapes, m.box.Proper) :
    s.box.IsHull (boxesAt shapes c) := by
  obtain ⟨first, rest, hmembers, -, -, -, -, hbox⟩ := h
  have hboxes : boxesAt shapes c = (first :: rest).map Shape.box := by
    have hmap := congrArg (List.filterMap (Option.map Shape.box)) hmembers
    rw [List.filterMap_map, List.filterMap_map] at hmap
    rw [← List.filterMap_eq_map]
    exact hmap
  have hmem : ∀ m ∈ first :: rest, m ∈ shapes := by
    intro m hm
    have hsome : some m ∈ c.map (shapes[·]?) := hmembers ▸ List.mem_map_of_mem hm
    obtain ⟨i, -, hi⟩ := List.mem_map.mp hsome
    exact List.mem_of_getElem? hi
  rw [hbox, hboxes]
  exact isHull_foldl List.mem_cons_self fun m hm => hproper m (hmem m hm)

/-- A box that encloses the box of a member holds the points of the member. -/
theorem enclosed_of_merge? {members : List (Shape Rat)} {s : Shape Rat}
    (h : merge? members = some s) (hall : ∀ m ∈ members, m.Enclosed) : s.Enclosed := by
  cases members with
  | nil => cases h
  | cons first rest =>
    cases h
    intro g hg p hp
    obtain ⟨m, hm, hgm⟩ := List.mem_flatMap.mp hg
    have hencloses :
        ((first :: rest).foldl (fun b s => b.union s.box) first.box).Encloses m.box := by
      rw [← List.foldl_map]
      exact (Box.encloses_foldl_union_iff.mp (.refl _)).2 m.box (List.mem_map_of_mem hm)
    exact hencloses.containsPoint (hall m hm g hgm p hp)

theorem enclosed_group {shapes : List (Shape Rat)} {gap : Rat} (hall : ∀ m ∈ shapes, m.Enclosed) :
    ∀ s ∈ group shapes gap, s.Enclosed := by
  intro s hs
  obtain ⟨members, hsub, hmerge⟩ := exists_members hs
  exact enclosed_of_merge? hmerge fun m hm => hall m (hsub.subset hm)

end Grouping

namespace Import

open Grouping

theorem enclosed_drawn {o : Options Rat} {size : PageSize Rat} {entries : List (Entry Rat)}
    {runs : List (TextRun Rat)} : ∀ s ∈ (drawn o size entries runs).shapes, s.Enclosed := by
  unfold drawn drawing
  cases o.gap with
  | none => exact enclosed_painted
  | some gap => exact enclosed_group enclosed_painted

/-- The box of an imported shape holds all its points.  The box of a merged shape contains that of
each member, and is contained in every box that does so. -/
theorem page_boxes :
    (∀ (o : Options Rat) (entries : List (Entry Rat)) (runs : List (TextRun Rat))
        (size : PageSize Rat), (∃ d, page o false entries runs size = .ok d) ∧
          ∀ (raised : Bool) (d : Drawing Rat), page o raised entries runs size = .ok d →
            ∀ s ∈ d.shapes, ∀ g ∈ s.segments, ∀ p ∈ g.points, s.box.containsPoint p 0 = true) ∧
      (∀ members : List (Shape Rat), members ≠ [] →
        (∀ m ∈ members, 0 ≤ m.box.w ∧ 0 ≤ m.box.h) →
          ∃ s, merge? members = some s ∧ s.box.IsHull (members.map Shape.box)) ∧
      ∀ (shapes : List (Shape Rat)) (gap : Rat), (∀ m ∈ shapes, 0 ≤ m.box.w ∧ 0 ≤ m.box.h) →
        ∃ cs, Listing shapes.length (EqvGen (Adjacent shapes gap)) cs ∧
          List.Forall₂ (fun c s => s.box.IsHull (boxesAt shapes c)) cs (group shapes gap) := by
  refine ⟨fun o entries runs size => ⟨?_, fun raised d hpage => ?_⟩,
    fun members => isHull_of_merge?, fun shapes gap hproper => ?_⟩
  · exact ⟨_, page_false⟩
  · obtain rfl := eq_drawn_of_page hpage
    exact enclosed_drawn
  · refine ⟨_, listing_classes shapes gap, (mergers shapes gap).imp ?_⟩
    exact fun c s hmerger => hmerger.isHull hproper

/-- A curve that bulges out of the box around its ends, up to the height of its control points, and
two strokes that merge against the order of their places. -/
theorem page_boxes_bulge :
    let bulge : List (Entry Rat) :=
      [.numbers (.verb (.path .moveTo)) [0, 0],
        .numbers (.verb (.path .curveTo)) [0, 72, 72, 72, 72, 0], .bare (.verb (.paint .stroke))]
    let tile (x : Rat) : Shape Rat :=
      { segments := [], fill := none, stroke := some ⟨0, 0, 0⟩, strokeWidth := 1
        box := ⟨x, 0, 1, 1⟩ }
    (∃ d, page .standard false bulge [] ⟨100, 100⟩ = .ok d ∧
        d.shapes.map Shape.segments =
          [[.moveTo ⟨0, 100⟩, .curveTo ⟨0, 74.6⟩ ⟨25.4, 74.6⟩ ⟨25.4, 100⟩]] ∧
        d.shapes.map Shape.box = [⟨0, 74.6, 25.4, 25.4⟩] ∧
        ∀ s ∈ d.shapes, ∀ g ∈ s.segments, ∀ p ∈ g.points, s.box.containsPoint p 0 = true) ∧
      (∃ s, merge? [tile 3, tile 0] = some s ∧ s.box.IsHull [⟨3, 0, 1, 1⟩, ⟨0, 0, 1, 1⟩]) ∧
      ∃ cs, Listing 2 (EqvGen (Adjacent [tile 3, tile 0] 2)) cs ∧
        List.Forall₂ (fun c s => s.box.IsHull (boxesAt [tile 3, tile 0] c)) cs
          (group [tile 3, tile 0] 2) := by
  intro bulge tile
  obtain ⟨hpage, hmerge, hgroup⟩ := page_boxes
  have hd : page .standard false bulge [] ⟨100, 100⟩ = .ok (drawn .standard ⟨100, 100⟩ bulge []) :=
    page_false
  have henclosed := (hpage .standard bulge [] ⟨100, 100⟩).2 false _ hd
  have hproper : ∀ m ∈ [tile 3, tile 0], 0 ≤ m.box.w ∧ 0 ≤ m.box.h := by
    intro m hm
    obtain rfl | rfl : m = tile 3 ∨ m = tile 0 := by simpa using hm
    · exact ⟨by decide, by decide⟩
    · exact ⟨by decide, by decide⟩
  exact ⟨⟨_, hd, by decide +kernel, by decide +kernel, henclosed⟩, hmerge _ nofun hproper,
    hgroup _ 2 hproper⟩

end Import
end Artwork
