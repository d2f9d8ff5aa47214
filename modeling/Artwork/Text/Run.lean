import Artwork.Geometry.Matrix

/-!
# Text runs

The entries of a page's text listing.
-/

namespace Artwork

/-- One entry of a page's text listing. -/
structure TextRun (α : Type) where
  text : String
  /-- From text space to page points. -/
  transform : Matrix α
  /-- The advance width, in points. -/
  width : α
deriving DecidableEq

end Artwork
