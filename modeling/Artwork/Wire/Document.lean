import Artwork.Wire.Canvas

/-!
# Data form of page documents

The data form of page documents: operands, entries, text runs, and the document around them.
-/

namespace Artwork

variable {α : Type}

namespace Operand

mutual

/-- The operand that a JSON value stands for: a number, the name of an operator, a list, or null.
Truth values and objects stand for none, wherever they are. -/
def ofJson? : Json α → Option (Operand α)
  | .number x => some (.number x)
  | .string s => some (.operator (.ofName s))
  | .array items => (ofJsons? items).map .array
  | .null => some .null
  | .bool _ | .object _ => none

def ofJsons? : List (Json α) → Option (List (Operand α))
  | [] => some []
  | v :: rest => do return (← ofJson? v) :: (← ofJsons? rest)

end

/-- An operand is read in full before it is judged. -/
def reader : Reader α (Operand α) := Reader.json.filterMap ofJson?

mutual

def json : Operand α → Json α
  | .number x => .number x
  | .operator o => .string o.name
  | .array items => .array (jsons items)
  | .null => .null

def jsons : List (Operand α) → List (Json α)
  | [] => []
  | o :: rest => json o :: jsons rest

end

end Operand

namespace Entry

/-- The operands may be left out. -/
def record : Record α (Entry α) :=
  (fun name operands => Entry.mk (.ofName name) operands) <$> .required "fn" .string <*>
    .defaulted "args" (.list Operand.reader) []

def reader : Reader α (Entry α) := record.reader

def json (e : Entry α) : Json α :=
  .object [("fn", .string e.operator.name), ("args", .array (e.operands.map Operand.json))]

end Entry

namespace TextRun

/-- The width may be left out, and is zero then. -/
def record [Scalar α] : Record α (TextRun α) :=
  TextRun.mk <$> .required "str" .string <*> .required "transform" Matrix.reader <*>
    .defaulted "width" .number 0.0

def reader [Scalar α] : Reader α (TextRun α) := record.reader

def json (r : TextRun α) : Json α :=
  .object [("str", .string r.text), ("transform", r.transform.json), ("width", .number r.width)]

end TextRun

namespace PageDocument

variable [Scalar α]

/-- The listings may be null or left out. -/
def record : Record α (PageDocument α) :=
  PageDocument.mk <$> .required "width" .number <*> .required "height" .number <*>
    .defaulted "operators" (.nullable (.list Entry.reader)) none <*>
    .defaulted "textItems" (.nullable (.list TextRun.reader)) none

def reader : Reader α (PageDocument α) := record.reader

/-- Reads the text of a document. -/
def ofText [Written α] (text : List Char) : Except (Failure α) (PageDocument α) :=
  (reader.decode text).mapError .document

omit [Scalar α] in
/-- A listing that is missing is left out. -/
def json (d : PageDocument α) : Json α :=
  let listing {β : Type} (name : String) (write : β → Json α) :
      Option (List β) → List (String × Json α)
    | some items => [(name, .array (items.map write))]
    | none => []
  .object ([("width", .number d.width), ("height", .number d.height)] ++
    listing "operators" Entry.json d.operators ++ listing "textItems" TextRun.json d.texts)

end PageDocument
end Artwork
