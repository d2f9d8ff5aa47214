import Artwork.Proofs.Machine.Batch
import Artwork.Proofs.Machine.Blocks
import Artwork.Recorder
import Artwork.Scalar.Exact

/-!
# Words with two spellings

Some words of an operator list say what others say one by one: a paint that closes first, a
rectangle, and a curve whose second control point is its end.  Either spelling can stand for the
other inside every list (`interchangeable_spellings`).

Only the paints need a collector for that.  Of a path without segments, a paint that closes first
hands nothing to the device; a close that comes before the paint makes it a path of one segment,
which is handed over, and of which the collector makes no shape.
-/

namespace Artwork

variable {α : Type} [Scalar α]

/-- No machine over a collector can tell the two lists apart, whatever it has drawn before them and
whatever stands around them. -/
def Interchangeable (xs ys : List (Entry α)) : Prop :=
  ∀ (m : Machine α (Collector α)) (before after : List (Entry α)),
    m.run (fun _ => false) (before ++ (xs ++ after)) =
      m.run (fun _ => false) (before ++ (ys ++ after))

/-- The paint `v` can be spelled as a close and the paint `w`, whatever operands they have. -/
def ClosesInto (α : Type) [Scalar α] (v w : PaintVerb) : Prop :=
  ∀ operands operands₁ operands₂ : List (Operand α),
    Interchangeable [⟨.verb (.paint v), operands⟩]
      [⟨.verb (.path .closePath), operands₁⟩, ⟨.verb (.paint w), operands₂⟩]

/-- The path words `us` can be spelled as `vs`, each word as an entry or all of them in a batch. -/
def SpelledAs (us vs : List (PathWord α)) : Prop :=
  Interchangeable (us.map PathWord.entry) (vs.map PathWord.entry) ∧
    ∀ before after : List (PathWord α),
      Interchangeable [PathWord.batch (before ++ us ++ after)]
        [PathWord.batch (before ++ vs ++ after)]

theorem interchangeable_of_runAll {xs ys : List (Entry α)}
    (h : ∀ m : Machine α (Collector α), m.runAll xs = m.runAll ys) : Interchangeable xs ys := by
  intro m before after
  have hrun : ∀ zs : List (Entry α), m.runAll (before ++ (zs ++ after)) =
      ((m.runAll before).runAll zs).runAll after := by
    intro zs
    simp only [Machine.runAll, List.foldl_append]
  rw [Machine.run_never, Machine.run_never, hrun, hrun, h]

/-! ## Paints that close first -/

theorem Collector.paint_lone_close (c : Collector α) (s : GraphicsState α) (style : PaintStyle) :
    PaintDevice.paint c s style [.close] = c := by
  show Collector.mk ((Shape.ofPaint? s style [.close]).toList ++ c.trail) = c
  rw [Shape.ofPaint?_lone_close]
  rfl

theorem Machine.paint_of_closes (m : Machine α (Collector α)) {v w : PaintVerb}
    (hv : v.closes = true) (hw : w.closes = false) (hstyle : v.style = w.style) :
    m.paint v = (m.addStep .close).paint w := by
  obtain ⟨state, saved, ⟨trail, current, start⟩, height, device⟩ := m
  simp only [paint, hv, hw, hstyle, paintPath_eq]
  cases trail with
  | nil =>
    -- Nothing is open, so that only the close by itself makes a path.
    exact congrArg (Machine.mk state saved .empty height)
      (device.paint_lone_close state w.style).symm
  | cons s rest => rfl

theorem closesInto_of_style {v w : PaintVerb} (hv : v.closes = true) (hw : w.closes = false)
    (hstyle : v.style = w.style) : ClosesInto α v w :=
  fun _ _ _ => interchangeable_of_runAll fun m => m.paint_of_closes hv hw hstyle

/-! ## Path words -/

/-- Words that make the same steps of every path can be exchanged among entries and among the words
of a batch. -/
theorem spelledAs_of_steps {us vs : List (PathWord α)}
    (h : ∀ m : Machine α (Collector α),
      (us.filterMap PathWord.step?).foldl Machine.addStep m =
        (vs.filterMap PathWord.step?).foldl Machine.addStep m) : SpelledAs us vs := by
  refine ⟨interchangeable_of_runAll fun m => ?_, fun before after =>
    interchangeable_of_runAll fun m => ?_⟩
  · rw [Machine.runAll_entries, Machine.runAll_entries, h]
  · have hbatch : ∀ ws : List (PathWord α), m.runAll [PathWord.batch ws] =
        (ws.filterMap PathWord.step?).foldl Machine.addStep m :=
      fun ws => Machine.step_constructs (PathWord.meaning_batch ws)
    rw [hbatch, hbatch]
    simp only [List.filterMap_append, List.foldl_append, h]

/-- A paint that closes first, a rectangle, and a curve whose second control point is its end can be
spelled with other words in every list: every machine, whatever its path, ends in the same state
with the same shapes. -/
theorem interchangeable_spellings (α : Type) [Scalar α] :
    ClosesInto α .closeStroke .stroke ∧ ClosesInto α .closeFillStroke .fillStroke ∧
      ClosesInto α .closeEoFillStroke .eoFillStroke ∧
      (∀ x y w h : α,
        SpelledAs [⟨.rectangle, [x, y, w, h], rfl⟩]
          [⟨.moveTo, [x, y], rfl⟩, ⟨.lineTo, [x + w, y], rfl⟩, ⟨.lineTo, [x + w, y + h], rfl⟩,
            ⟨.lineTo, [x, y + h], rfl⟩, ⟨.closePath, [], rfl⟩]) ∧
      ∀ x₁ y₁ x₃ y₃ : α,
        SpelledAs [⟨.curveToEnd, [x₁, y₁, x₃, y₃], rfl⟩]
          [⟨.curveTo, [x₁, y₁, x₃, y₃, x₃, y₃], rfl⟩] :=
  ⟨closesInto_of_style rfl rfl rfl, closesInto_of_style rfl rfl rfl,
    closesInto_of_style rfl rfl rfl, fun _ _ _ _ => spelledAs_of_steps fun _ => rfl,
    fun _ _ _ _ => spelledAs_of_steps fun _ => rfl⟩

/-- A device that looks at every call can tell the two spellings of a paint apart. -/
example :
    let m : Machine Rat (Recorder Rat) := .start 100 (.start none)
    (m.runAll [.bare (.verb (.paint .closeStroke))]).device.paintings = [] ∧
      (m.runAll [.bare (.verb (.path .closePath)),
        .bare (.verb (.paint .stroke))]).device.paintings = [⟨⟨true, false, false⟩, none⟩] := by
  decide

end Artwork
