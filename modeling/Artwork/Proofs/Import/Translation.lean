import Artwork.Proofs.Import.Endings
import Artwork.Proofs.Machine.Translation

/-!
# Moved drawings

Grouping looks at the colours of shapes and at the distances between their boxes, so that it finds
the same classes in shapes that have all been moved by one vector (`group_shift`).  With what is
known of moved machines, a page whose list begins with a translation becomes the drawing of the
list without it, moved (`page_translation`).
-/

namespace Artwork

namespace Grouping

variable (shapes : List (Shape Rat)) (v : Point Rat) (gap : Rat)

theorem buckets_shift : buckets (shapes.map (·.shift v)) = buckets shapes := by
  unfold buckets
  rw [List.map_map]
  rfl

theorem nearAt_shift : nearAt (shapes.map (·.shift v)).toArray gap = nearAt shapes.toArray gap := by
  funext i j
  unfold nearAt
  simp only [List.getElem?_toArray, List.getElem?_map]
  cases shapes[i]? with
  | none => rfl
  | some s =>
    cases shapes[j]? with
    | none => rfl
    | some t => exact Box.isNear_shift s.box t.box v gap

theorem classes_shift : classes (shapes.map (·.shift v)) gap = classes shapes gap := by
  unfold classes
  rw [buckets_shift, nearAt_shift, List.length_map]

theorem merge?_shift (members : List (Shape Rat)) :
    merge? (members.map (·.shift v)) = (merge? members).map (·.shift v) := by
  cases members with
  | nil => rfl
  | cons first rest =>
    have hsegments : ((first :: rest).map (·.shift v)).flatMap Shape.segments =
        ((first :: rest).flatMap Shape.segments).map (·.shift v) := by
      rw [List.flatMap_map, List.map_flatMap]
      rfl
    have hbox : ((first :: rest).map (·.shift v)).foldl (fun b s => b.union s.box)
        (first.box.shift v) =
          ((first :: rest).foldl (fun b s => b.union s.box) first.box).shift v := by
      rw [List.foldl_map]
      exact List.foldl_hom (Box.shift · v) fun b s => Box.union_shift b s.box v
    exact congrArg₂ (fun p b => some { first.shift v with segments := p, box := b }) hsegments hbox

/-- Shapes that have all been moved merge as they did. -/
theorem group_shift : group (shapes.map (·.shift v)) gap = (group shapes gap).map (·.shift v) := by
  have hmembers : ∀ c : List Nat, c.filterMap ((shapes.map (·.shift v)).toArray[·]?) =
      (c.filterMap (shapes.toArray[·]?)).map (·.shift v) := by
    intro c
    rw [List.map_filterMap]
    refine List.filterMap_congr fun i _ => ?_
    rw [List.getElem?_toArray, List.getElem?_map, List.getElem?_toArray]
  unfold group
  rw [classes_shift, List.map_filterMap]
  refine List.filterMap_congr fun c _ => ?_
  rw [hmembers, merge?_shift]

end Grouping

/-- The drawing with its shapes at another place; the text stays. -/
def Drawing.shift (d : Drawing Rat) (v : Point Rat) : Drawing Rat :=
  { d with shapes := d.shapes.map (·.shift v) }

namespace Import

variable (o : Options Rat) (size : PageSize Rat) (entries : List (Entry Rat))
  (runs : List (TextRun Rat)) (d : Point Rat)

theorem painted_translation :
    painted size (.numbers (.verb .transform) (Matrix.translation d).toList :: entries) =
      (painted size entries).map (·.shift d.toCanvas) := by
  show (((Machine.start size.height Collector.empty).step _).runAll entries).device.shapes = _
  rw [Machine.start_step_transform, Machine.runAll_shift]
  exact Collector.shapes_shift _ _

theorem drawn_translation :
    drawn o size (.numbers (.verb .transform) (Matrix.translation d).toList :: entries) runs =
      (drawn o size entries runs).shift d.toCanvas := by
  unfold drawn drawing
  rw [painted_translation]
  cases o.gap with
  | none => rfl
  | some gap =>
    exact congrArg (Drawing.mk size · _)
      (Grouping.group_shift (painted size entries) d.toCanvas gap)

/-- A translation in front of a list moves what the list draws, and nothing else: the canvas has
`25.4 / 72` millimetres to a point, and its `y` grows downward. -/
theorem page_translation (tx ty : Rat) :
    ∃ r, page o false entries runs size = .ok r ∧
      page o false (.numbers (.verb .transform) [1, 0, 0, 1, tx, ty] :: entries) runs size =
        .ok (r.shift ⟨tx * 25.4 / 72, -(ty * 25.4 / 72)⟩) := by
  refine ⟨drawn o size entries runs, page_false, ?_⟩
  rw [page_false]
  exact congrArg Except.ok (drawn_translation o size entries runs ⟨tx, ty⟩)

end Import
end Artwork
