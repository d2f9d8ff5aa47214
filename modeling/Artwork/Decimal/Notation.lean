import Artwork.Decimal.Shortest

/-!
# Spelling of doubles

Data files spell a number with at least one place, or with an exponent where it is very large or
very small (`Numeral.ofFloat?`).  Messages spell every digit out, with no exponent and no empty
places (`plainText`).  Reading goes the other way: `Numeral.toFloat?` is the nearest double.

That the nearest double is read is what lets a written double come back as itself.  A JSON library
built without exact reading (its feature `float_roundtrip`) agrees on short numerals of everyday
size, and may miss the last place of longer ones: it can read `215.89999999999998` as `215.9`.
-/

namespace Artwork
namespace Numeral

open Decimal

/-- With a point and at least one place while the first digit counts a power of ten from `-5` to
`15`; beyond that one digit, the places, and an exponent. -/
def dataForm (negative : Bool) (d : Digits) : Numeral :=
  let first : Int := d.power + (digits d.digits).length - 1
  if first < -5 ∨ 15 < first then
    ⟨negative, d.digits, (digits d.digits).length - 1, first⟩
  else if 0 ≤ d.power then ⟨negative, d.digits * tenTo (d.power.toNat + 1), 1, 0⟩
  else ⟨negative, d.digits, d.power.natAbs, 0⟩

/-- The numeral of a data file; none for a double that is not finite. -/
def ofFloat? (x : Float) : Option Numeral :=
  match Binary.ofFloat x with
  | .finite s m q => some (dataForm s (shortest .toEven m q))
  | _ => none

/-- All digits written out, with no place more than needed. -/
def plainForm (negative : Bool) (d : Digits) : Numeral :=
  if 0 ≤ d.power then ⟨negative, d.digits * tenTo d.power.toNat, 0, 0⟩
  else ⟨negative, d.digits, d.power.natAbs, 0⟩

/-- The spelling of messages. -/
def plainText (x : Float) : String :=
  match Binary.ofFloat x with
  | .undefined => "NaN"
  | .infinite s => if s then "-inf" else "inf"
  | .finite s m q => String.ofList (plainForm s (shortest .up m q)).text

/-- The nearest double, rounded exactly once, and infinite when the numeral is too large.  Sizes far
outside the range are settled by counting digits. -/
def toFloat (n : Numeral) : Float :=
  let first : Int := n.lastPower + (digits n.significand).length
  let size : Float :=
    if n.significand = 0 ∨ first < -330 then 0.0
    else if 310 < first then 1.0 / 0.0
    else Float.ofScientific n.significand (n.lastPower < 0) n.lastPower.natAbs
  if n.negative then -size else size

/-- The nearest double; none when the numeral is too large for one.  A reader that rounds on the way
may answer a neighbour of it. -/
def toFloat? (n : Numeral) : Option Float :=
  let x := n.toFloat
  if Scalar.isFinite x then some x else none

end Numeral

/-- A number type with a written form: what a numeral stands for, if it is in range, and how a value
is spelled, if it has a spelling. -/
class Written (α : Type) where
  ofNumeral? : Numeral → Option α
  numeral? : α → Option Numeral
  /-- The spelling in messages. -/
  plain : α → String

instance : Written Float where
  ofNumeral? := Numeral.toFloat?
  numeral? := Numeral.ofFloat?
  plain := Numeral.plainText

end Artwork
