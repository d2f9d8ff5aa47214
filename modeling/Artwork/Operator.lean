/-!
# Words of an operator list

Of all words that can stand in an operator list, 31 are understood (`Verb`); the others are kept by
name and have no effect.  `Operator.ofName` and `Operator.name` are inverse to each other, since no
verb's name can be kept as another word.
-/

namespace Artwork

inductive PathVerb
  | moveTo
  | lineTo
  | curveTo
  /-- A curve whose first control point is the current point. -/
  | curveFromCurrent
  /-- A curve whose second control point is its end. -/
  | curveToEnd
  | closePath
  | rectangle
deriving DecidableEq, Repr

namespace PathVerb

def arity : PathVerb → Nat
  | moveTo | lineTo => 2
  | curveTo => 6
  | curveFromCurrent | curveToEnd | rectangle => 4
  | closePath => 0

def name : PathVerb → String
  | moveTo => "moveTo"
  | lineTo => "lineTo"
  | curveTo => "curveTo"
  | curveFromCurrent => "curveTo2"
  | curveToEnd => "curveTo3"
  | closePath => "closePath"
  | rectangle => "rectangle"

end PathVerb

/-- What is painted of a path. -/
structure PaintStyle where
  stroke : Bool
  fill : Bool
  /-- The even-odd rule tells inside from outside, not the winding number. -/
  evenOdd : Bool
deriving DecidableEq, Repr

inductive PaintVerb
  | stroke
  | closeStroke
  | fill
  | eoFill
  | fillStroke
  | eoFillStroke
  | closeFillStroke
  | closeEoFillStroke
deriving DecidableEq, Repr

namespace PaintVerb

def name : PaintVerb → String
  | stroke => "stroke"
  | closeStroke => "closeStroke"
  | fill => "fill"
  | eoFill => "eoFill"
  | fillStroke => "fillStroke"
  | eoFillStroke => "eoFillStroke"
  | closeFillStroke => "closeFillStroke"
  | closeEoFillStroke => "closeEoFillStroke"

/-- Whether the subpath is closed before it is painted. -/
def closes : PaintVerb → Bool
  | closeStroke | closeFillStroke | closeEoFillStroke => true
  | _ => false

def style : PaintVerb → PaintStyle
  | stroke | closeStroke => ⟨true, false, false⟩
  | fill => ⟨false, true, false⟩
  | eoFill => ⟨false, true, true⟩
  | fillStroke | closeFillStroke => ⟨true, true, false⟩
  | eoFillStroke | closeEoFillStroke => ⟨true, true, true⟩

end PaintVerb

inductive Ink
  | stroke
  | fill
deriving DecidableEq, Repr

inductive ColorSpace
  | rgb
  | gray
  | cmyk
deriving DecidableEq, Repr

namespace ColorSpace

def arity : ColorSpace → Nat
  | rgb => 3
  | gray => 1
  | cmyk => 4

end ColorSpace

inductive Verb
  | save
  | restore
  | transform
  | formBegin
  | formEnd
  | lineWidth
  | color (ink : Ink) (space : ColorSpace)
  /-- Many path words at once, with one list of coordinates. -/
  | constructPath
  | path (v : PathVerb)
  | paint (v : PaintVerb)
  | endPath
  | clip
  | eoClip
deriving DecidableEq, Repr

namespace Verb

def all : List Verb :=
  [save, restore, transform, formBegin, formEnd, lineWidth,
    color .stroke .rgb, color .fill .rgb, color .stroke .gray, color .fill .gray,
    color .stroke .cmyk, color .fill .cmyk,
    constructPath, path .moveTo, path .lineTo, path .curveTo, path .curveFromCurrent,
    path .curveToEnd, path .closePath, path .rectangle,
    paint .stroke, paint .closeStroke, paint .fill, paint .eoFill, paint .fillStroke,
    paint .eoFillStroke, paint .closeFillStroke, paint .closeEoFillStroke,
    endPath, clip, eoClip]

def name : Verb → String
  | save => "save"
  | restore => "restore"
  | transform => "transform"
  | formBegin => "paintFormXObjectBegin"
  | formEnd => "paintFormXObjectEnd"
  | lineWidth => "setLineWidth"
  | color .stroke .rgb => "setStrokeRGBColor"
  | color .fill .rgb => "setFillRGBColor"
  | color .stroke .gray => "setStrokeGray"
  | color .fill .gray => "setFillGray"
  | color .stroke .cmyk => "setStrokeCMYKColor"
  | color .fill .cmyk => "setFillCMYKColor"
  | constructPath => "constructPath"
  | path v => v.name
  | paint v => v.name
  | endPath => "endPath"
  | clip => "clip"
  | eoClip => "eoClip"

def ofName? (s : String) : Option Verb := all.find? (·.name == s)

theorem ofName?_name (v : Verb) : ofName? v.name = some v := by
  rcases v with _ | _ | _ | _ | _ | _ | ⟨⟨⟩, ⟨⟩⟩ | _ | ⟨⟨⟩⟩ | ⟨⟨⟩⟩ | _ | _ | _ <;> decide +kernel

theorem name_of_ofName? {s : String} {v : Verb} (h : ofName? s = some v) : v.name = s := by
  simpa using List.find?_some h

end Verb

inductive Operator
  | verb (v : Verb)
  /-- A word that is not understood. -/
  | other (name : String) (unlisted : Verb.ofName? name = none)
deriving DecidableEq

namespace Operator

def name : Operator → String
  | verb v => v.name
  | other name _ => name

def ofName (s : String) : Operator :=
  match h : Verb.ofName? s with
  | some v => verb v
  | none => other s h

def isOther : Operator → Bool
  | verb _ => false
  | other .. => true

theorem name_ofName (s : String) : (ofName s).name = s := by
  unfold ofName
  split
  · next v h => exact Verb.name_of_ofName? h
  · rfl

theorem ofName_name (o : Operator) : ofName o.name = o := by
  cases o with
  | verb v =>
    have h := Verb.ofName?_name v
    unfold ofName name
    split
    · next w hw => rw [hw] at h; rw [Option.some.inj h]
    · next hw => rw [hw] at h; cases h
  | other s hs =>
    unfold ofName name
    split
    · next w hw => rw [hw] at hs; cases hs
    · rfl

end Operator

end Artwork
