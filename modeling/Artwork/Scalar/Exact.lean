import Artwork.Scalar

/-!
# Exact rational coordinates

With this instance the definitions of the library compute without rounding, and every value is a
number.
-/

namespace Artwork
namespace Scalar

/-- The nearest integer of a rational, halves away from zero. -/
def nearestInt (q : Rat) : Int :=
  if q < 0 then -(-q + 1 / 2).floor else (q + 1 / 2).floor

instance instExact : Scalar Rat where
  decidableLE := inferInstance
  decidableLT := inferInstance
  isFinite _ := true
  round q := (nearestInt q : Rat)
  floor64 q := clamp64 q.floor

end Scalar
end Artwork
