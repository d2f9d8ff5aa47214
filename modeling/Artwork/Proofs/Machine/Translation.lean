import Artwork.Proofs.Geometry.Translation
import Artwork.Proofs.Machine.Matrices
import Artwork.Shape

/-!
# Moved machines

Two machines run over one list, and one of them is the other moved: every matrix it holds, the saved
ones too, has a translation behind it, and what it has on the canvas is moved by the vector of that
translation.  No entry can tell them apart (`perform_shift`), so that they still stand in this way
behind the list (`runAll_shift`).
-/

namespace Artwork

/-- The matrix that moves page points. -/
def Matrix.translation (d : Point Rat) : Matrix Rat := ⟨1, 0, 0, 1, d.x, d.y⟩

/-- The way on the canvas of a point that is moved on the page, where `y` grows upward. -/
def Point.toCanvas (d : Point Rat) : Point Rat := ⟨d.x * 25.4 / 72, -(d.y * 25.4 / 72)⟩

theorem Matrix.followedBy_assoc (m n outer : Matrix Rat) :
    (m.followedBy n).followedBy outer = m.followedBy (n.followedBy outer) := by
  unfold followedBy
  congr 1 <;> ring

theorem Matrix.translation_followedBy_identity (d : Point Rat) :
    (translation d).followedBy identity = identity.followedBy (translation d) := by
  have hone : (1.0 : Rat) = 1 := by norm_num
  have hzero : (0.0 : Rat) = 0 := by norm_num
  unfold followedBy identity translation
  rw [hone, hzero]
  congr 1 <;> ring

theorem Point.onCanvas_translation (d p : Point Rat) (height : Rat) :
    ((Matrix.translation d).apply p).onCanvas height = (p.onCanvas height).shift d.toCanvas := by
  show Point.mk (millimetres (1 * p.x + 0 * p.y + d.x))
    (height - millimetres (0 * p.x + 1 * p.y + d.y)) =
      ⟨millimetres p.x + d.x * 25.4 / 72, height - millimetres p.y + -(d.y * 25.4 / 72)⟩
  simp only [millimetres_exact]
  congr 1 <;> ring

/-- The state whose matrix has a translation behind it. -/
def GraphicsState.shift (s : GraphicsState Rat) (d : Point Rat) : GraphicsState Rat :=
  { s with ctm := s.ctm.followedBy (.translation d) }

theorem GraphicsState.transform_shift (s : GraphicsState Rat) (d : Point Rat) (t : Matrix Rat) :
    (s.shift d).transform t = (s.transform t).shift d := by
  unfold transform shift
  rw [Matrix.followedBy_assoc]

/-! ## Paths and shapes -/

namespace Path

/-- The path at another place of the canvas. -/
def shift (q : Path Rat) (v : Point Rat) : Path Rat :=
  ⟨q.trail.map (·.shift v), q.current.map (·.shift v), q.start.map (·.shift v)⟩

theorem segments_shift (q : Path Rat) (v : Point Rat) :
    (q.shift v).segments = q.segments.map (·.shift v) :=
  List.map_reverse.symm

theorem closeIfOpen_shift (q : Path Rat) (v : Point Rat) :
    (q.shift v).closeIfOpen = q.closeIfOpen.shift v := by
  obtain ⟨trail, current, start⟩ := q
  cases trail <;> rfl

/-- A step that places its points elsewhere continues a path that was moved in the same way. -/
theorem add_shift {place placed : Point Rat → Point Rat} {v : Point Rat}
    (hplaced : ∀ p, placed p = (place p).shift v) (q : Path Rat) (s : PathStep Rat) :
    (q.shift v).add placed s = (q.add place s).shift v := by
  obtain rfl : placed = fun p => (place p).shift v := funext hplaced
  cases s with
  | curveFromCurrent c₂ p =>
    obtain ⟨trail, current, start⟩ := q
    cases current <;> rfl
  | _ => rfl

end Path

namespace Shape

/-- The shape at another place of the canvas. -/
def shift (s : Shape Rat) (v : Point Rat) : Shape Rat :=
  { s with segments := s.segments.map (·.shift v), box := s.box.shift v }

theorem ofPaint?_shift (s : GraphicsState Rat) (d v : Point Rat) (style : PaintStyle)
    (path : List (Segment Rat)) :
    ofPaint? (s.shift d) style (path.map (·.shift v)) =
      (ofPaint? s style path).map (·.shift v) := by
  unfold ofPaint?
  rw [Box.ofSegments?_shift, Option.map_map, Option.map_map]
  rfl

end Shape

namespace Collector

def shift (c : Collector Rat) (v : Point Rat) : Collector Rat := ⟨c.trail.map (·.shift v)⟩

theorem shapes_shift (c : Collector Rat) (v : Point Rat) :
    (c.shift v).shapes = c.shapes.map (·.shift v) :=
  List.map_reverse.symm

theorem paint_shift (c : Collector Rat) (s : GraphicsState Rat) (d v : Point Rat)
    (style : PaintStyle) (path : List (Segment Rat)) :
    PaintDevice.paint (c.shift v) (s.shift d) style (path.map (·.shift v)) =
      (PaintDevice.paint c s style path).shift v := by
  show Collector.mk ((Shape.ofPaint? (s.shift d) style (path.map (·.shift v))).toList ++
    c.trail.map (·.shift v)) = ⟨((Shape.ofPaint? s style path).toList ++ c.trail).map (·.shift v)⟩
  rw [Shape.ofPaint?_shift, List.map_append]
  cases Shape.ofPaint? s style path <;> rfl

end Collector

/-! ## Machines -/

namespace Machine

/-- The machine that draws everything at another place. -/
def shift (m : Machine Rat (Collector Rat)) (d : Point Rat) : Machine Rat (Collector Rat) where
  state := m.state.shift d
  saved := m.saved.map (·.shift d)
  path := m.path.shift d.toCanvas
  height := m.height
  device := m.device.shift d.toCanvas

variable (m : Machine Rat (Collector Rat)) (d : Point Rat)

theorem place_shift (p : Point Rat) : (m.shift d).place p = (m.place p).shift d.toCanvas := by
  show ((m.state.ctm.followedBy (.translation d)).apply p).onCanvas m.height = _
  rw [Matrix.apply_followedBy, Point.onCanvas_translation]
  rfl

theorem addStep_shift (s : PathStep Rat) : (m.shift d).addStep s = (m.addStep s).shift d := by
  have hpath : (m.path.shift d.toCanvas).add (m.shift d).place s =
      (m.path.add m.place s).shift d.toCanvas :=
    Path.add_shift (m.place_shift d) m.path s
  exact congrArg (fun q => { m.shift d with path := q }) hpath

theorem addSteps_shift (steps : List (PathStep Rat)) :
    steps.foldl addStep (m.shift d) = (steps.foldl addStep m).shift d :=
  List.foldl_hom (shift · d) fun n s => addStep_shift n d s

theorem paintPath_shift (style : PaintStyle) :
    (m.shift d).paintPath style = (m.paintPath style).shift d := by
  unfold paintPath
  have hempty : (m.shift d).path.trail.isEmpty = m.path.trail.isEmpty := List.isEmpty_map
  rw [hempty]
  split
  · rfl
  · have hpaint : PaintDevice.paint (m.shift d).device (m.shift d).state style
        (m.shift d).path.segments =
          (PaintDevice.paint m.device m.state style m.path.segments).shift d.toCanvas := by
      show PaintDevice.paint _ _ style (m.path.shift d.toCanvas).segments = _
      rw [Path.segments_shift]
      exact m.device.paint_shift m.state d d.toCanvas style m.path.segments
    exact congrArg (fun c => endPath { m.shift d with device := c }) hpaint

theorem paint_shift (v : PaintVerb) : (m.shift d).paint v = (m.paint v).shift d := by
  unfold paint
  cases v.closes with
  | false => exact m.paintPath_shift d v.style
  | true =>
    have hclosed := m.path.closeIfOpen_shift d.toCanvas
    calc paintPath { m.shift d with path := (m.path.shift d.toCanvas).closeIfOpen } v.style
        = paintPath (shift { m with path := m.path.closeIfOpen } d) v.style :=
          congrArg (fun q => paintPath { m.shift d with path := q } v.style) hclosed
      _ = (paintPath { m with path := m.path.closeIfOpen } v.style).shift d :=
          paintPath_shift _ d v.style

/-- Whatever an entry means, it means the same to a machine that has been moved. -/
theorem perform_shift (a : Meaning Rat) : (m.shift d).perform a = (m.perform a).shift d := by
  cases a with
  | restore =>
    obtain ⟨state, saved, path, height, device⟩ := m
    cases saved <;> rfl
  | transform t =>
    exact congrArg (fun s => { m.shift d with state := s }) (m.state.transform_shift d t)
  | enterForm t =>
    cases t with
    | none => rfl
    | some t =>
      exact congrArg (fun s => { (m.shift d).save with state := s }) (m.state.transform_shift d t)
  | color ink c => cases ink <;> rfl
  | construct steps => exact m.addSteps_shift d steps
  | paint v => exact m.paint_shift d v
  | _ => rfl

theorem step_shift (e : Entry Rat) : (m.shift d).step e = (m.step e).shift d := by
  rw [step_eq_perform, step_eq_perform, perform_shift]

theorem runAll_shift (entries : List (Entry Rat)) :
    (m.shift d).runAll entries = (m.runAll entries).shift d :=
  List.foldl_hom (shift · d) fun n e => step_shift n d e

/-- A translation moves a machine that has not begun. -/
theorem start_step_transform (height : Rat) :
    (start height Collector.empty).step
        (.numbers (.verb .transform) (Matrix.translation d).toList) =
      (start height Collector.empty).shift d := by
  have hstate : GraphicsState.initial.transform (.translation d) = GraphicsState.initial.shift d :=
    congrArg (fun t => { GraphicsState.initial with ctm := t })
      (Matrix.translation_followedBy_identity d)
  exact congrArg (fun s => { start height Collector.empty with state := s }) hstate

end Machine
end Artwork
