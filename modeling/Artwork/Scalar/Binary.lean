import Artwork.Scalar.Exact

/-!
# Double precision coordinates

A double is taken apart into a sign, a significand and a power of two (`Binary.ofFloat`), and its
size is judged on the exact rational it stands for.  Rounding to a whole value and the floor are
computed on that rational, so both can be evaluated wherever a proof needs them.
-/

namespace Artwork

/-- What the bits of a double say. -/
inductive Binary
  | undefined
  | infinite (negative : Bool)
  /-- The value `significand · 2 ^ exponent`, with a sign. -/
  | finite (negative : Bool) (significand : Nat) (exponent : Int)
deriving DecidableEq

namespace Binary

/-- A power of two. -/
def twoTo (k : Nat) : Nat := Nat.pow 2 k

/-- Reads the three bit fields: a subnormal has no hidden bit. -/
def ofFloat (x : Float) : Binary :=
  let bits : Nat := x.toBits.toNat
  let negative := decide (twoTo 63 ≤ bits)
  let biased : Nat := bits / twoTo 52 % twoTo 11
  let fraction : Nat := bits % twoTo 52
  if biased = 2047 then
    if fraction = 0 then .infinite negative else .undefined
  else if biased = 0 then .finite negative fraction (-1074)
  else .finite negative (twoTo 52 + fraction) (biased - 1075)

/-- The rational a finite value stands for. -/
def value? : Binary → Option Rat
  | .finite s m e =>
    let size : Rat := if e < 0 then mkRat m (twoTo e.natAbs) else (m * twoTo e.natAbs : Nat)
    some (if s then -size else size)
  | _ => none

end Binary

namespace Scalar

/-- The floor of a double as a 64-bit integer; an infinite value goes to the end of the range. -/
def floor64Float (x : Float) : Int :=
  match Binary.ofFloat x with
  | .undefined => 0
  | .infinite true => least64
  | .infinite false => greatest64
  | b@(.finite ..) => (b.value?.map fun q => clamp64 q.floor).getD 0

/-- The nearest whole double, halves away from zero; what is not finite stays as it is. -/
def roundFloat (x : Float) : Float :=
  match (Binary.ofFloat x).value? with
  | some q => Float.ofInt (nearestInt q)
  | none => x

instance instBinary : Scalar Float where
  decidableLE := Float.decLe
  decidableLT := Float.decLt
  isFinite x := (Binary.ofFloat x).value?.isSome
  round := roundFloat
  floor64 := floor64Float

end Scalar
end Artwork
