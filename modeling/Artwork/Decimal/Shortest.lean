import Artwork.Scalar.Binary
import Artwork.Decimal.Numeral

/-!
# Shortest decimal digits

The fewest decimal digits that read back as the same double.

The reals that round to a double form an interval around it, half a step wide on either side; its
ends belong to it when the significand is even.  For one digit, then two, and so on, the two
neighbours of the value on that decimal grid are tested in exact arithmetic, and the first grid with
a neighbour inside the interval gives the digits.
-/

namespace Artwork
namespace Decimal

/-- The value `digits · 10 ^ power`. -/
structure Digits where
  digits : Nat
  power : Int
deriving DecidableEq, Repr

/-- Which of two equally near candidates is taken. -/
inductive Tie
  | toEven
  | up

/-- The reals that round to a double: `center` lies between `low` and `high`, all three counted in
the same unit `num / den`. -/
structure Interval where
  low : Nat
  center : Nat
  high : Nat
  num : Nat
  den : Nat
  /-- Whether the ends belong to the interval. -/
  closed : Bool

namespace Interval

/-- The interval of `m · 2 ^ q`, in quarters of a step.  Below a power of two the steps are half as
long, so the lower end is nearer there. -/
def ofBinary (m : Nat) (q : Int) : Interval where
  low := if m = Binary.twoTo 52 ∧ -1074 < q then 4 * m - 1 else 4 * m - 2
  center := 4 * m
  high := 4 * m + 2
  num := if q < 2 then 1 else Binary.twoTo (q - 2).toNat
  den := if q < 2 then Binary.twoTo (2 - q).toNat else 1
  closed := m % 2 = 0

/-- The power of ten of the first digit of a positive value `n / d`. -/
def firstPower (n d : Nat) : Int :=
  if d ≤ n then ((Numeral.digits (n / d)).length : Int) - 1
  else -((Numeral.digits ((d + n - 1) / n - 1)).length : Int)

/-- The unit divided by `10 ^ power`, as a fraction. -/
def unitOn (i : Interval) (power : Int) : Nat × Nat :=
  if power < 0 then (i.num * Numeral.tenTo power.natAbs, i.den)
  else (i.num, i.den * Numeral.tenTo power.natAbs)

/-- The candidate for the grid `10 ^ power`: of the two neighbours of the value those inside the
interval count, and of two the nearer. -/
def onGrid? (i : Interval) (tie : Tie) (power : Int) : Option Nat :=
  let (a, b) := i.unitOn power
  let d := i.center * a / b
  let inside (x : Nat) : Bool :=
    if i.closed then decide (i.low * a ≤ x * b ∧ x * b ≤ i.high * a)
    else decide (i.low * a < x * b ∧ x * b < i.high * a)
  let below := i.center * a - d * b
  let above := (d + 1) * b - i.center * a
  let upper : Bool :=
    decide (above < below) || (above == below &&
      match tie with
      | .toEven => d % 2 == 1
      | .up => true)
  match inside d, inside (d + 1) with
  | true, true => some (if upper then d + 1 else d)
  | true, false => some d
  | false, true => some (d + 1)
  | false, false => none

/-- Tries the grids `10 ^ power`, `10 ^ (power - 1)`, and so on; the value itself rounded down
stands in when none of `tries` grids has a candidate. -/
def search (i : Interval) (tie : Tie) : Nat → Int → Digits
  | 0, power =>
    let (a, b) := i.unitOn power
    ⟨i.center * a / b, power⟩
  | tries + 1, power =>
    match i.onGrid? tie power with
    | some d => ⟨d, power⟩
    | none => i.search tie tries (power - 1)

end Interval

/-- Drops zeros at the end; at most `limit` of them. -/
def Digits.trim : Nat → Digits → Digits
  | 0, d => d
  | limit + 1, d =>
    if d.digits ≠ 0 ∧ d.digits % 10 = 0 then trim limit ⟨d.digits / 10, d.power + 1⟩ else d

/-- The shortest digits of `m · 2 ^ q`.  Seventeen digits tell any two doubles apart. -/
def shortest (tie : Tie) (m : Nat) (q : Int) : Digits :=
  if m = 0 then ⟨0, 0⟩
  else
    let i := Interval.ofBinary m q
    (i.search tie 17 (Interval.firstPower (i.center * i.num) i.den)).trim 17

end Decimal
end Artwork
