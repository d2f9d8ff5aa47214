/-!
# Decimal numerals

A numeral keeps what its text says and nothing else: the digits with the point taken out, how many
of them follow the point, and the exponent.  Its value is `significand · 10 ^ (exponent - places)`.
-/

namespace Artwork

structure Numeral where
  negative : Bool
  significand : Nat
  /-- How many digits follow the point. -/
  places : Nat
  exponent : Int
deriving DecidableEq, Repr

namespace Numeral

/-- The decimal digits of a natural number, without leading zeros. -/
def digits (n : Nat) : List Char := Nat.toDigits 10 n

def tenTo (k : Nat) : Nat := Nat.pow 10 k

/-- The number a run of digits stands for. -/
def ofDigits (ds : List Char) : Nat := ds.foldl (fun n d => 10 * n + (d.toNat - '0'.toNat)) 0

/-- At least one digit stands before the point. -/
def mantissa (n : Numeral) : List Char :=
  let ds := digits n.significand
  let ds := List.replicate (n.places + 1 - ds.length) '0' ++ ds
  let whole := ds.length - n.places
  ds.take whole ++ if n.places = 0 then [] else '.' :: ds.drop whole

/-- The written form.  An exponent has a sign always, and is left out when it is zero. -/
def text (n : Numeral) : List Char :=
  let sign := if n.negative then ['-'] else []
  let power :=
    if n.exponent = 0 then []
    else 'e' :: (if n.exponent < 0 then '-' else '+') :: digits n.exponent.natAbs
  sign ++ n.mantissa ++ power

/-- The power of ten that the last digit counts. -/
def lastPower (n : Numeral) : Int := n.exponent - n.places

end Numeral
end Artwork
