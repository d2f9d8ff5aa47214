import Artwork.GraphicsState
import Artwork.Operand
import Artwork.Path

/-!
# The drawing machine

The machine that draws an operator list.

It walks the list once, keeps the graphics state with a stack of saved ones and the path under
construction, and hands every painted path to a device.  Nothing in a list is an error: operators
that are not understood, or whose operands are of no use, change nothing, and so does a restore
without a saved state.  The one way to stop early is the test `stop`, which is made before every
entry.
-/

namespace Artwork

/-- A device that takes painted paths, which are never empty. -/
class PaintDevice (α : Type) (δ : Type) where
  paint : δ → GraphicsState α → PaintStyle → List (Segment α) → δ

structure Machine (α : Type) (δ : Type) where
  state : GraphicsState α
  /-- Newest first. -/
  saved : List (GraphicsState α)
  path : Path α
  /-- The height of the page, in millimetres. -/
  height : α
  device : δ
deriving DecidableEq

inductive Outcome
  | finished
  | cancelled
deriving DecidableEq, Repr

namespace Machine

variable {α δ : Type} [Scalar α]

def start (height : α) (device : δ) : Machine α δ := ⟨.initial, [], .empty, height, device⟩

/-- The canvas point of a point in user space. -/
def place (m : Machine α δ) (p : Point α) : Point α := (m.state.ctm.apply p).onCanvas m.height

/-! ## Graphics state -/

def save (m : Machine α δ) : Machine α δ := { m with saved := m.state :: m.saved }

/-- Returns to the state saved last; without one nothing changes. -/
def restore (m : Machine α δ) : Machine α δ :=
  match m.saved with
  | [] => m
  | s :: rest => { m with state := s, saved := rest }

def transform (m : Machine α δ) (t : Matrix α) : Machine α δ :=
  { m with state := m.state.transform t }

/-- Enters a form: saves the state, and applies the form's matrix if it has one. -/
def enterForm (m : Machine α δ) : Option (Matrix α) → Machine α δ
  | some t => m.save.transform t
  | none => m.save

/-! ## Path construction -/

def addStep (m : Machine α δ) (s : PathStep α) : Machine α δ :=
  { m with path := m.path.add m.place s }

/-- Adds the steps of a batch.  Operands that are no path words take no coordinates, and the batch
ends at the first word for which too few are left. -/
def addBatch (m : Machine α δ) : List (Operand α) → List α → Machine α δ
  | [], _ => m
  | word :: words, coordinates =>
    match word.pathVerb? with
    | none => m.addBatch words coordinates
    | some v =>
      match v.step? (coordinates.take v.arity) with
      | some s => (m.addStep s).addBatch words (coordinates.drop v.arity)
      | none => m

/-! ## Painting -/

def endPath (m : Machine α δ) : Machine α δ := { m with path := .empty }

variable [PaintDevice α δ]

/-- Hands the path to the device, unless it is empty, and drops it. -/
def paintPath (m : Machine α δ) (style : PaintStyle) : Machine α δ :=
  if m.path.trail.isEmpty then m.endPath
  else { m with device := PaintDevice.paint m.device m.state style m.path.segments }.endPath

def paint (m : Machine α δ) (v : PaintVerb) : Machine α δ :=
  let m := if v.closes then { m with path := m.path.closeIfOpen } else m
  m.paintPath v.style

/-! ## Running -/

def act (m : Machine α δ) (v : Verb) (operands : List (Operand α)) : Machine α δ :=
  match v with
  | .save => m.save
  | .restore | .formEnd => m.restore
  | .transform =>
    match (operands.mapM Operand.number?).bind Matrix.ofList? with
    | some t => m.transform t
    | none => m
  | .formBegin => m.enterForm ((operands.head?.bind Operand.numbers?).bind Matrix.ofList?)
  | .lineWidth =>
    match Operand.leading? 1 operands with
    | some [w] => { m with state := { m.state with lineWidth := w } }
    | _ => m
  | .color ink space =>
    match (Operand.leading? space.arity operands).bind space.color? with
    | some c => { m with state := m.state.setColor ink c }
    | none => m
  | .constructPath =>
    match operands[0]?.bind Operand.array?, operands[1]?.bind Operand.numbers? with
    | some words, some coordinates => m.addBatch words coordinates
    | _, _ => m
  | .path v =>
    match (Operand.leading? v.arity operands).bind v.step? with
    | some s => m.addStep s
    | none => m
  | .paint v => m.paint v
  | .endPath => m.endPath
  -- Clipping would affect later painting only, and is not modelled.
  | .clip | .eoClip => m

def step (m : Machine α δ) (e : Entry α) : Machine α δ :=
  match e.operator with
  | .verb v => m.act v e.operands
  | .other .. => m

/-- Runs a list until its end, or until `stop` holds of the device before an entry. -/
def run (stop : δ → Bool) (m : Machine α δ) : List (Entry α) → Machine α δ × Outcome
  | [] => (m, .finished)
  | e :: rest => if stop m.device then (m, .cancelled) else run stop (m.step e) rest

def runAll (m : Machine α δ) (entries : List (Entry α)) : Machine α δ := entries.foldl step m

theorem run_never (m : Machine α δ) (entries : List (Entry α)) :
    m.run (fun _ => false) entries = (m.runAll entries, .finished) := by
  induction entries generalizing m with
  | nil => rfl
  | cons e rest ih => simpa [run, runAll] using ih (m.step e)

/-- However a run ends, the machine stands where a beginning of the list leaves it. -/
theorem exists_front (stop : δ → Bool) (m : Machine α δ) (entries : List (Entry α)) :
    ∃ front, front <+: entries ∧ (m.run stop entries).1 = m.runAll front := by
  induction entries generalizing m with
  | nil => exact ⟨[], List.nil_prefix, rfl⟩
  | cons e rest ih =>
    rw [run]
    split
    · exact ⟨[], List.nil_prefix, rfl⟩
    · obtain ⟨front, hfront, hrun⟩ := ih (m.step e)
      exact ⟨e :: front, List.cons_prefix_cons.mpr ⟨rfl, hfront⟩, hrun⟩

end Machine
end Artwork
