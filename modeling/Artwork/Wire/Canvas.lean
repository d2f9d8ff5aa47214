import Artwork.Color
import Artwork.Geometry.Box
import Artwork.Json.Reader
import Artwork.Page

/-!
# Data form of the canvas

The data form of what lies on a canvas: matrices, segments, boxes, colours and page sizes.

For each type there is the record it is read with and the JSON value it is written as.
-/

namespace Artwork

variable {α : Type}

namespace Json

def numbers (xs : List α) : Json α := .array (xs.map .number)

end Json

namespace Matrix

def record : Record α (Matrix α) :=
  Matrix.mk <$> .required "a" .number <*> .required "b" .number <*> .required "c" .number <*>
    .required "d" .number <*> .required "e" .number <*> .required "f" .number

/-- Six numbers in a list. -/
def reader : Reader α (Matrix α) := record.row

def json (m : Matrix α) : Json α := .numbers m.toList

end Matrix

namespace Point

def record : Record α (Point α) := Point.mk <$> .required "x" .number <*> .required "y" .number

/-- Two numbers in a list. -/
def reader : Reader α (Point α) := record.row

def json (p : Point α) : Json α := .numbers [p.x, p.y]

end Point

namespace Color

def record : Record α (Color α) :=
  Color.mk <$> .required "red" .number <*> .required "green" .number <*> .required "blue" .number

/-- Three numbers in a list. -/
def reader : Reader α (Color α) := record.row

def json (c : Color α) : Json α := .numbers c.channels

/-- A colour, or `null` for none. -/
def optionJson : Option (Color α) → Json α
  | some c => c.json
  | none => .null

end Color

namespace Segment

/-- A letter and the coordinates, which a close may leave out. -/
def record : Record α (String × List α) :=
  Prod.mk <$> .required "o" .string <*> .defaulted "a" (.list .number) []

/-- The letter and the number of coordinates have to fit together. -/
def reader : Reader α (Segment α) := record.reader.filterMap fun (o, a) => ofLetter? o a

def json (s : Segment α) : Json α :=
  .object [("o", .string s.letter), ("a", .numbers s.coordinates)]

end Segment

namespace Box

def record : Record α (Box α) :=
  Box.mk <$> .required "x" .number <*> .required "y" .number <*> .required "w" .number <*>
    .required "h" .number

def reader : Reader α (Box α) := record.reader

def json (b : Box α) : Json α :=
  .object [("x", .number b.x), ("y", .number b.y), ("w", .number b.w), ("h", .number b.h)]

end Box

namespace PageSize

def record : Record α (PageSize α) :=
  PageSize.mk <$> .required "widthMm" .number <*> .required "heightMm" .number

/-- The size is not judged when it is read. -/
def reader : Reader α (PageSize α) := record.reader

def json (s : PageSize α) : Json α :=
  .object [("widthMm", .number s.width), ("heightMm", .number s.height)]

end PageSize
end Artwork
