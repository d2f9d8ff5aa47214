import Artwork.Shape

/-!
# The recording device

A device that keeps a record of every call, and can raise an alarm.

The alarm goes off during a chosen call.  A run that looks at the alarm before each entry stops
after the entry that made that call.
-/

namespace Artwork

/-- One call of the device: what it was asked to paint, and the shape that came of it. -/
structure Painting (α : Type) where
  style : PaintStyle
  shape : Option (Shape α)
deriving DecidableEq

structure Recorder (α : Type) where
  paintings : List (Painting α)
  /-- The number of the call, from 1, during which the alarm goes off. -/
  alarmAt : Option Nat
  alarm : Bool
deriving DecidableEq

namespace Recorder

variable {α : Type}

def start (alarmAt : Option Nat) : Recorder α := ⟨[], alarmAt, false⟩

def raise (r : Recorder α) : Recorder α := { r with alarm := true }

instance [Scalar α] : PaintDevice α (Recorder α) where
  paint r s style path :=
    { r with
      paintings := r.paintings ++ [⟨style, Shape.ofPaint? s style path⟩]
      alarm := r.alarm || r.alarmAt == some (r.paintings.length + 1) }

end Recorder
end Artwork
