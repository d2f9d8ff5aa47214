import Artwork.Import
import Artwork.Wire.Document

/-!
# Data form of drawings

The data form of drawings: shapes, labels, and the drawing around them.
-/

namespace Artwork

variable {α : Type}

namespace Shape

/-- The colours may be null, or be left out of an object. -/
def record : Record α (Shape α) :=
  Shape.mk <$> .required "segments" (.list Segment.reader) <*> .optional "fill" Color.reader <*>
    .optional "stroke" Color.reader <*> .required "strokeWidthMm" .number <*>
    .required "bbox" Box.reader

def reader : Reader α (Shape α) := record.reader

def json (s : Shape α) : Json α :=
  .object
    [("segments", .array (s.segments.map Segment.json)), ("fill", Color.optionJson s.fill),
      ("stroke", Color.optionJson s.stroke), ("strokeWidthMm", .number s.strokeWidth),
      ("bbox", s.box.json)]

end Shape

namespace Label

def record : Record α (Label α) :=
  Label.mk <$> .required "text" .string <*> .required "xMm" .number <*> .required "yMm" .number <*>
    .required "fontSize" .number <*> .required "widthMm" .number <*> .required "heightMm" .number

def reader : Reader α (Label α) := record.reader

def json (l : Label α) : Json α :=
  .object
    [("text", .string l.text), ("xMm", .number l.x), ("yMm", .number l.y),
      ("fontSize", .number l.fontSize), ("widthMm", .number l.width),
      ("heightMm", .number l.height)]

end Label

namespace Drawing

def record : Record α (Drawing α) :=
  Drawing.mk <$> .required "page" PageSize.reader <*> .required "shapes" (.list Shape.reader) <*>
    .required "texts" (.list Label.reader)

def reader : Reader α (Drawing α) := record.reader

def json (d : Drawing α) : Json α :=
  .object
    [("page", d.page.json), ("shapes", .array (d.shapes.map Shape.json)),
      ("texts", .array (d.labels.map Label.json))]

end Drawing

namespace Import

variable [Scalar α] [Written α]

/-- Imports the text of a page document. -/
def text (o : Options α) (raised : Bool) (text : List Char) : Except (Failure α) (Drawing α) := do
  source o raised (← PageDocument.ofText text).source

end Import
end Artwork
