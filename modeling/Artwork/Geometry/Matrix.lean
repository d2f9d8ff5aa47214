import Artwork.Scalar

/-!
# Points and matrices

Points, affine matrices, and the two coordinate systems.

A page is measured in points of 1/72 inch from its bottom left corner; the canvas is measured in
millimetres from its top left corner, with `y` growing downward.
-/

namespace Artwork

structure Point (α : Type) where
  x : α
  y : α
deriving DecidableEq, Repr

/-- The affine map that takes `(x, y)` to `(a·x + c·y + e, b·x + d·y + f)`. -/
structure Matrix (α : Type) where
  a : α
  b : α
  c : α
  d : α
  e : α
  f : α
deriving DecidableEq, Repr

variable {α : Type} [Scalar α]

/-- A length in points, in millimetres: an inch has 72 points and 25.4 millimetres. -/
def millimetres (points : α) : α := points * (25.4 / 72.0)

/-- Whether two values differ by less than `slack`. -/
def near (a b slack : α) : Bool := decide (Scalar.magnitude (a - b) < slack)

namespace Point

def origin : Point α := ⟨0.0, 0.0⟩

/-- A page point on a canvas of the given height. -/
def onCanvas (p : Point α) (height : α) : Point α := ⟨millimetres p.x, height - millimetres p.y⟩

end Point

namespace Matrix

def identity : Matrix α := ⟨1.0, 0.0, 0.0, 1.0, 0.0, 0.0⟩

def apply (m : Matrix α) (p : Point α) : Point α :=
  ⟨m.a * p.x + m.c * p.y + m.e, m.b * p.x + m.d * p.y + m.f⟩

/-- The map that goes through `m` first and through `outer` after it. -/
def followedBy (m outer : Matrix α) : Matrix α where
  a := outer.a * m.a + outer.c * m.b
  b := outer.b * m.a + outer.d * m.b
  c := outer.a * m.c + outer.c * m.d
  d := outer.b * m.c + outer.d * m.d
  e := outer.a * m.e + outer.c * m.f + outer.e
  f := outer.b * m.e + outer.d * m.f + outer.f

/-- Exactly six numbers make a matrix. -/
def ofList? {β : Type} : List β → Option (Matrix β)
  | [a, b, c, d, e, f] => some ⟨a, b, c, d, e, f⟩
  | _ => none

def toList {β : Type} (m : Matrix β) : List β := [m.a, m.b, m.c, m.d, m.e, m.f]

end Matrix
end Artwork
