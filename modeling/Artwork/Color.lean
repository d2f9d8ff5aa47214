import Artwork.Scalar

/-!
# Colours

Colours, normalized to red, green and blue as soon as they are read.

Channels are meant to lie between 0 and 1.  Some producers count to 255 instead, so a colour with
any channel above 1 is taken to do so.
-/

namespace Artwork

structure Color (α : Type) where
  red : α
  green : α
  blue : α
deriving DecidableEq, Repr

namespace Color

variable {α : Type}

def channels (c : Color α) : List α := [c.red, c.green, c.blue]

variable [Scalar α]

def black : Color α := ⟨0.0, 0.0, 0.0⟩

/-- Brings one of the `values` of a colour to the range up to 1: all are divided by 255 when any of
them is above 1. -/
def normalize (values : List α) (v : α) : α := if values.any (1.0 < ·) then v / 255.0 else v

def ofRgb (r g b : α) : Color α :=
  let n := normalize [r, g, b]
  ⟨n r, n g, n b⟩

/-- A gray level, from 0 for black to 1 for white. -/
def ofGray (g : α) : Color α :=
  let v := normalize [g] g
  ⟨v, v, v⟩

/-- Subtracts the inks and black from white. -/
def ofCmyk (c m y k : α) : Color α :=
  let n := normalize [c, m, y, k]
  ⟨(1.0 - n c) * (1.0 - n k), (1.0 - n m) * (1.0 - n k), (1.0 - n y) * (1.0 - n k)⟩

end Color

/-- What two colours have in common when they count as one: each channel in hundredths, halves
rounded up.  No colour has a key of its own. -/
structure ColorKey where
  channels : Option (Int × Int × Int)
deriving DecidableEq, Repr

namespace ColorKey

variable {α : Type} [Scalar α]

/-- A channel in hundredths. -/
def hundredths (v : α) : Int := Scalar.floor64 (v * 100.0 + 0.5)

def ofColor? (c : Option (Color α)) : ColorKey :=
  ⟨c.map fun c => (hundredths c.red, hundredths c.green, hundredths c.blue)⟩

def text (k : ColorKey) : String :=
  match k.channels with
  | some (r, g, b) => ",".intercalate [toString r, toString g, toString b]
  | none => "none"

end ColorKey
end Artwork
