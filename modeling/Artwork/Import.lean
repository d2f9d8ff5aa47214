import Artwork.Grouping
import Artwork.Page
import Artwork.Text.Label

/-!
# Importing a page

The operator list is drawn, its shapes are merged, and the genuine text is placed.  An import
answers one drawing or one failure, never a part of a drawing.
-/

namespace Artwork

/-- How a page is imported. -/
structure Options (α : Type) where
  /-- Shapes this close to each other are merged; none are without it. -/
  gap : Option α
  texts : Bool
  /-- Whether the cancel flag is looked at. -/
  cancellable : Bool
deriving DecidableEq

namespace Options

variable {α : Type} [Scalar α]

def standard : Options α := ⟨some Grouping.defaultGap, true, false⟩

/-- Sets a gap; none when it is not usable. -/
def withGap? (o : Options α) (gap : α) : Option (Options α) :=
  if Grouping.isUsable gap then some { o with gap := some gap } else none

def withoutGrouping (o : Options α) : Options α := { o with gap := none }

def withoutText (o : Options α) : Options α := { o with texts := false }

def watchingCancel (o : Options α) : Options α := { o with cancellable := true }

end Options

/-- An imported page. -/
structure Drawing (α : Type) where
  page : PageSize α
  shapes : List (Shape α)
  labels : List (Label α)
deriving DecidableEq

namespace Drawing

variable {α : Type}

def summary (d : Drawing α) : String :=
  let paths := ["Imported ", toString d.shapes.length, " paths"]
  let texts := if d.labels.isEmpty then [] else [", ", toString d.labels.length, " text"]
  String.join (paths ++ texts)

end Drawing

namespace Import

variable {α : Type} [Scalar α]

/-- The shapes that an operator list paints on a page of the given height, and whether the list has
been drawn to its end.  `raised` tells whether the import has been cancelled. -/
def draw (raised : Bool) (height : α) (entries : List (Entry α)) : List (Shape α) × Outcome :=
  let (m, outcome) := (Machine.start height Collector.empty).run (fun _ => raised) entries
  (m.device.shapes, outcome)

/-- The drawing that painted shapes and the text of a page make. -/
def drawing (o : Options α) (size : PageSize α) (painted : List (Shape α))
    (runs : List (TextRun α)) : Drawing α where
  page := size
  shapes :=
    match o.gap with
    | some gap => Grouping.group painted gap
    | none => painted
  labels := if o.texts then Label.ofRuns runs size.height else []

/-- Imports the listings of a page; `raised` is the state of the cancel flag. -/
def page (o : Options α) (raised : Bool) (entries : List (Entry α)) (runs : List (TextRun α))
    (size : PageSize α) : Except (Failure α) (Drawing α) :=
  match draw (o.cancellable && raised) size.height entries with
  | (_, .cancelled) => .error .cancelled
  | (shapes, .finished) => .ok (drawing o size shapes runs)

/-- Imports what a source supplies.  Its size is asked for first, then its operator list, then its
text listing. -/
def source (o : Options α) (raised : Bool) (s : Source α) : Except (Failure α) (Drawing α) := do
  let size ← s.size
  let entries ← s.operators
  let runs ← s.texts
  page o raised entries runs size

end Import
end Artwork
