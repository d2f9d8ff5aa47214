import Artwork.Proofs.Machine.Drawn
import Artwork.Scalar.Exact
import Artwork.Shape

/-!
# Points that a machine keeps

Beside the segments of its path a machine keeps the current point and the start of the current
subpath.  Seven words of construction move these points, alone or in a batch, and two more kinds of
entries drop them.  In every state that a machine can reach they are the ones that the segments show
(`points_of_reachable`), so that a curve that starts out from the current point starts out where the
last segment ends on the canvas, whatever has become of the matrix since.
-/

namespace Artwork

variable {α : Type}

/-- Whether the entry is of a kind that leaves the path as it is. -/
def Entry.keepsPath (e : Entry α) : Bool :=
  match e.operator with
  | .verb .constructPath | .verb (.path _) | .verb (.paint _) | .verb .endPath => false
  | _ => true

variable [Scalar α]

namespace Machine

variable {δ : Type} [PaintDevice α δ]

/-- The states of a machine that starts out fresh and runs one list after another, each of them to
its end or until it is stopped. -/
inductive Reachable : Machine α δ → Prop
  | start (height : α) (device : δ) : Reachable (start height device)
  | run {m : Machine α δ} (stop : δ → Bool) (entries : List (Entry α)) :
    Reachable m → Reachable (m.run stop entries).1

theorem coherent_runAll {m : Machine α δ} (h : m.path.Coherent) (entries : List (Entry α)) :
    (m.runAll entries).path.Coherent := by
  induction entries generalizing m with
  | nil => exact h
  | cons e rest ih => exact ih (coherent_step h e)

theorem Reachable.coherent {m : Machine α δ} (h : m.Reachable) : m.path.Coherent := by
  induction h with
  | start height device => exact .empty
  | @run m stop entries _ ih =>
    obtain ⟨front, -, hrun⟩ := exists_front stop m entries
    rw [hrun]
    exact coherent_runAll ih front

/-! ## The path between two steps of construction -/

theorem path_step_of_keepsPath (m : Machine α δ) {e : Entry α} (he : e.keepsPath = true) :
    (m.step e).path = m.path := by
  obtain ⟨o, operands⟩ := e
  cases o with
  | other name unlisted => rfl
  | verb v =>
    have hmeans := v.canMean_ofVerb operands
    rw [step_eq_perform]
    simp only [Entry.meaning]
    generalize Meaning.ofVerb operands v = a at hmeans
    cases hmeans with
    | restore | formEnd =>
      simp only [perform, restore]
      split <;> rfl
    | constructPath | path | paint | endPath => cases he
    | _ => rfl

theorem path_runAll_of_keepsPath (m : Machine α δ) {entries : List (Entry α)}
    (h : ∀ e ∈ entries, e.keepsPath = true) : (m.runAll entries).path = m.path := by
  induction entries generalizing m with
  | nil => rfl
  | cons e rest ih =>
    obtain ⟨he, hrest⟩ := List.forall_mem_cons.mp h
    show ((m.step e).runAll rest).path = m.path
    rw [ih (m.step e) hrest, path_step_of_keepsPath m he]

/-- A curve from the current point is drawn behind the steps in front of it, and in front of those
behind it. -/
theorem segments_step_curve {m : Machine α δ} (h : m.path.Coherent) {e : Entry α}
    {before after : List (PathStep α)} {c₂ p : Point α}
    (he : e.meaning = .construct (before ++ .curveFromCurrent c₂ p :: after)) :
    let done := PathStep.draw m.place m.path.segments before
    (m.step e).path.segments =
      PathStep.draw m.place
        (done ++ [.curveTo ((currentPoint done).getD (m.place .origin)) (m.place c₂) (m.place p)])
        after := by
  intro done
  rw [step_eq_perform, he]
  show ((before ++ .curveFromCurrent c₂ p :: after).foldl addStep m).path.segments = _
  rw [segments_addSteps h, PathStep.draw, List.foldl_append]
  rfl

/-- In every state that a machine can reach, the two points it keeps can be told from the segments
of its path.  Entries that leave the path alone leave both points where they are on the canvas, and
a curve from the current point, alone or anywhere in a batch, begins there. -/
theorem points_of_reachable {m : Machine α δ} (h : m.Reachable) :
    m.path.start = subpathStart m.path.segments ∧
      m.path.current = currentPoint m.path.segments ∧
      ∀ between : List (Entry α), (∀ e ∈ between, e.keepsPath = true) →
        let n := m.runAll between
        (∀ (x₂ y₂ x₃ y₃ : α) (more : List (Operand α)),
          (n.step ⟨.verb (.path .curveFromCurrent),
              [x₂, y₂, x₃, y₃].map .number ++ more⟩).path.segments =
            m.path.segments ++
              [.curveTo ((currentPoint m.path.segments).getD (n.place .origin))
                (n.place ⟨x₂, y₂⟩) (n.place ⟨x₃, y₃⟩)]) ∧
        ∀ (e : Entry α) (before after : List (PathStep α)) (c₂ p : Point α),
          e.meaning = .construct (before ++ .curveFromCurrent c₂ p :: after) →
            let done := PathStep.draw n.place m.path.segments before
            (n.step e).path.segments =
              PathStep.draw n.place
                (done ++
                  [.curveTo ((currentPoint done).getD (n.place .origin)) (n.place c₂) (n.place p)])
                after := by
  have hcoherent := h.coherent
  refine ⟨hcoherent.start_eq, hcoherent.current_eq, fun between hbetween => ?_⟩
  intro n
  have hpath : n.path = m.path := path_runAll_of_keepsPath m hbetween
  have hn : n.path.Coherent := hpath ▸ hcoherent
  refine ⟨fun x₂ y₂ x₃ y₃ more => ?_, fun e before after c₂ p he => ?_⟩
  · have halone : Entry.meaning ⟨.verb (.path .curveFromCurrent),
        [x₂, y₂, x₃, y₃].map .number ++ more⟩ =
          .construct ([] ++ .curveFromCurrent ⟨x₂, y₂⟩ ⟨x₃, y₃⟩ :: []) := rfl
    rw [← hpath]
    exact segments_step_curve hn halone
  · rw [← hpath]
    exact segments_step_curve hn he

/-- The point that a scaled matrix has set stays when the matrix is restored, and behind a close
that no subpath stands before there is none. -/
theorem points_of_reachable_restored :
    let front : List (Entry Rat) :=
      [.bare (.verb .restore), .bare (.verb .save), .numbers (.verb .transform) [2, 0, 0, 2, 0, 0],
        .numbers (.verb (.path .moveTo)) [36, 36]]
    let lone : List (Entry Rat) :=
      [.numbers (.verb (.path .lineTo)) [72, 72], .bare (.verb (.path .closePath))]
    let batch : Entry Rat := .batch [.verb (.path .curveFromCurrent)] [0, 72, 72, 0]
    let fresh : Machine Rat (Collector Rat) := start 100 .empty
    let m := (fresh.run (fun _ => false) front).1
    let n := (fresh.run (fun _ => false) lone).1
    m.Reachable ∧ m.path.start = some ⟨25.4, 74.6⟩ ∧ m.path.current = some ⟨25.4, 74.6⟩ ∧
      ((m.runAll [.bare (.verb .restore)]).step batch).path.segments =
        [.moveTo ⟨25.4, 74.6⟩, .curveTo ⟨25.4, 74.6⟩ ⟨0, 74.6⟩ ⟨25.4, 100⟩] ∧
      n.Reachable ∧ n.path.start = none ∧ n.path.current = none ∧
      (n.step (.numbers (.verb (.path .curveFromCurrent)) [0, 72, 72, 0])).path.segments =
        [.lineTo ⟨25.4, 74.6⟩, .close, .curveTo ⟨0, 100⟩ ⟨0, 74.6⟩ ⟨25.4, 100⟩] := by
  intro front lone batch fresh m n
  have hfresh : fresh.Reachable := Reachable.start _ _
  have hm : m.Reachable := hfresh.run (fun _ => false) front
  have hn : n.Reachable := hfresh.run (fun _ => false) lone
  obtain ⟨hmstart, hmcurrent, hmcurve⟩ := points_of_reachable hm
  obtain ⟨hnstart, hncurrent, hncurve⟩ := points_of_reachable hn
  have hrestore : ∀ e ∈ [(.bare (.verb .restore) : Entry Rat)], e.keepsPath = true := by decide
  refine ⟨hm, ?_, ?_, ?_, hn, ?_, ?_, ?_⟩
  · rw [hmstart]
    decide +kernel
  · rw [hmcurrent]
    decide +kernel
  · rw [(hmcurve [.bare (.verb .restore)] hrestore).2 batch [] [] ⟨0, 72⟩ ⟨72, 0⟩ rfl]
    decide +kernel
  · rw [hnstart]
    decide +kernel
  · rw [hncurrent]
    decide +kernel
  · have hcurve := (hncurve [] (List.forall_mem_nil _)).1 0 72 72 0 []
    refine hcurve.trans ?_
    decide +kernel

end Machine
end Artwork
