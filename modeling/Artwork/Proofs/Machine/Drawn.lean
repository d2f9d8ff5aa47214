import Artwork.Proofs.Machine.Meaning

/-!
# What construction appends

The current point and the start of the current subpath are kept beside the segments of a path, and
yet both can be read off the segments (`Path.Coherent`).  Hence a step of construction appends
segments that depend on the segments so far and on the matrix in force, and on nothing else
(`PathStep.segments`), and so do the entries of a list that does not end its path (`drawn`).
-/

namespace Artwork

variable {α : Type}

/-! ## Points of a path -/

namespace Segment

/-- The point at which the segment begins a subpath. -/
def opens? : Segment α → Option (Point α)
  | moveTo p => some p
  | _ => none

end Segment

/-- The start of the last subpath. -/
def subpathStart (path : List (Segment α)) : Option (Point α) :=
  (path.filterMap Segment.opens?).getLast?

/-- The point at which a path leaves off: the end of its last segment, or, where this is a close,
the start of the last subpath. -/
def currentPoint (path : List (Segment α)) : Option (Point α) :=
  match path.getLast? with
  | none => none
  | some (.moveTo p) | some (.lineTo p) | some (.curveTo _ _ p) => some p
  | some .close => subpathStart path

theorem subpathStart_moveTo (path : List (Segment α)) (p : Point α) :
    subpathStart (path ++ [.moveTo p]) = some p := by
  simp [subpathStart, Segment.opens?]

theorem subpathStart_other (path : List (Segment α)) {s : Segment α} (h : s.opens? = none) :
    subpathStart (path ++ [s]) = subpathStart path := by
  simp [subpathStart, h]

theorem currentPoint_moveTo (path : List (Segment α)) (p : Point α) :
    currentPoint (path ++ [.moveTo p]) = some p := by
  simp [currentPoint]

theorem currentPoint_lineTo (path : List (Segment α)) (p : Point α) :
    currentPoint (path ++ [.lineTo p]) = some p := by
  simp [currentPoint]

theorem currentPoint_curveTo (path : List (Segment α)) (c₁ c₂ p : Point α) :
    currentPoint (path ++ [.curveTo c₁ c₂ p]) = some p := by
  simp [currentPoint]

theorem currentPoint_close (path : List (Segment α)) :
    currentPoint (path ++ [.close]) = subpathStart path := by
  have h : subpathStart (path ++ [.close]) = subpathStart path := subpathStart_other path rfl
  simp [currentPoint, h]

/-! ## Coherence -/

namespace Path

/-- The points that the path keeps are the ones its segments show. -/
structure Coherent (q : Path α) : Prop where
  start_eq : q.start = subpathStart q.segments
  current_eq : q.current = currentPoint q.segments

namespace Coherent

theorem empty : (Path.empty : Path α).Coherent := ⟨rfl, rfl⟩

variable {q : Path α}

theorem moveTo (p : Point α) : (q.moveTo p).Coherent := by
  constructor
  · rw [segments_moveTo, subpathStart_moveTo]
    rfl
  · rw [segments_moveTo, currentPoint_moveTo]
    rfl

theorem lineTo (h : q.Coherent) (p : Point α) : (q.lineTo p).Coherent := by
  constructor
  · rw [segments_lineTo, subpathStart_other _ rfl]
    exact h.start_eq
  · rw [segments_lineTo, currentPoint_lineTo]
    rfl

theorem curveTo (h : q.Coherent) (c₁ c₂ p : Point α) : (q.curveTo c₁ c₂ p).Coherent := by
  constructor
  · rw [segments_curveTo, subpathStart_other _ rfl]
    exact h.start_eq
  · rw [segments_curveTo, currentPoint_curveTo]
    rfl

theorem close (h : q.Coherent) : q.close.Coherent := by
  constructor
  · rw [segments_close, subpathStart_other _ rfl]
    exact h.start_eq
  · rw [segments_close, currentPoint_close]
    exact h.start_eq

theorem add [Scalar α] (h : q.Coherent) (place : Point α → Point α) (s : PathStep α) :
    (q.add place s).Coherent := by
  cases s with
  | moveTo p => exact moveTo (place p)
  | lineTo p => exact h.lineTo (place p)
  | curveTo c₁ c₂ p => exact h.curveTo _ _ _
  | curveFromCurrent c₂ p => exact h.curveTo _ _ _
  | curveToEnd c₁ p => exact h.curveTo _ _ _
  | close => exact h.close
  | rectangle p w h => exact (((moveTo (place p)).lineTo _).lineTo _ |>.lineTo _).close

end Coherent
end Path

/-! ## Steps -/

variable [Scalar α]

namespace PathStep

/-- The segments that a step appends behind `done`. -/
def segments (place : Point α → Point α) (done : List (Segment α)) :
    PathStep α → List (Segment α)
  | .moveTo p => [.moveTo (place p)]
  | .lineTo p => [.lineTo (place p)]
  | .curveTo c₁ c₂ p => [.curveTo (place c₁) (place c₂) (place p)]
  | .curveFromCurrent c₂ p =>
    [.curveTo ((currentPoint done).getD (place .origin)) (place c₂) (place p)]
  | .curveToEnd c₁ p => [.curveTo (place c₁) (place p) (place p)]
  | .close => [.close]
  | .rectangle p w h =>
    [.moveTo (place p), .lineTo (place ⟨p.x + w, p.y⟩), .lineTo (place ⟨p.x + w, p.y + h⟩),
      .lineTo (place ⟨p.x, p.y + h⟩), .close]

/-- The path behind `done` and some more steps. -/
def draw (place : Point α → Point α) (done : List (Segment α)) (steps : List (PathStep α)) :
    List (Segment α) :=
  steps.foldl (fun done s => done ++ s.segments place done) done

end PathStep

theorem Path.segments_add {q : Path α} (h : q.Coherent) (place : Point α → Point α)
    (s : PathStep α) : (q.add place s).segments = q.segments ++ s.segments place q.segments := by
  cases s with
  | curveFromCurrent c₂ p => rw [add, segments_curveTo, h.current_eq, PathStep.segments]
  | rectangle p w h => simp [add, PathStep.segments]
  | _ => simp [add, PathStep.segments]

/-! ## Entries -/

/-- The path behind `done` and what an entry of this meaning constructs. -/
def Meaning.draw (place : Point α → Point α) (done : List (Segment α)) :
    Meaning α → List (Segment α)
  | .construct steps => PathStep.draw place done steps
  | _ => done

/-- The path behind `done` and some entries that start out in the scope `g`.  Each entry draws with
the matrix that is in force when its turn comes. -/
def drawn (height : α) (g : Scope α) (done : List (Segment α)) :
    List (Entry α) → List (Segment α)
  | [] => done
  | e :: rest => drawn height (g.step e) (e.meaning.draw (g.place height) done) rest

theorem drawn_append (height : α) (g : Scope α) (done : List (Segment α))
    (entries rest : List (Entry α)) :
    drawn height g done (entries ++ rest) =
      drawn height (g.run entries) (drawn height g done entries) rest := by
  induction entries generalizing g done with
  | nil => rfl
  | cons e entries ih => exact ih (g.step e) (e.meaning.draw (g.place height) done)

namespace Machine

variable {δ : Type}

theorem coherent_addSteps {m : Machine α δ} (h : m.path.Coherent) (steps : List (PathStep α)) :
    (steps.foldl addStep m).path.Coherent := by
  induction steps generalizing m with
  | nil => exact h
  | cons s rest ih => exact ih (m := m.addStep s) (h.add m.place s)

theorem segments_addSteps {m : Machine α δ} (h : m.path.Coherent) (steps : List (PathStep α)) :
    (steps.foldl addStep m).path.segments =
      PathStep.draw (m.scope.place m.height) m.path.segments steps := by
  induction steps generalizing m with
  | nil => rfl
  | cons s rest ih =>
    rw [List.foldl_cons, ih (m := m.addStep s) (h.add m.place s), scope_addStep, height_addStep]
    show PathStep.draw _ (m.path.add m.place s).segments rest = _
    rw [Path.segments_add h, place_eq]
    rfl

variable [PaintDevice α δ]

omit [Scalar α] in
theorem path_paint (m : Machine α δ) (v : PaintVerb) : (m.paint v).path = .empty := by
  simp only [paint, paintPath_eq]

theorem coherent_perform {m : Machine α δ} (h : m.path.Coherent) (a : Meaning α) :
    (m.perform a).path.Coherent := by
  cases a with
  | restore =>
    simp only [perform, restore]
    split <;> exact h
  | enterForm t => cases t <;> exact h
  | construct steps => exact coherent_addSteps h steps
  | paint v => exact path_paint m v ▸ Path.Coherent.empty
  | endPath => exact Path.Coherent.empty
  | _ => exact h

theorem coherent_step {m : Machine α δ} (h : m.path.Coherent) (e : Entry α) :
    (m.step e).path.Coherent := by
  rw [step_eq_perform]
  exact coherent_perform h e.meaning

end Machine
end Artwork
