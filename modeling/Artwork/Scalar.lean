/-!
# Numbers of page geometry

Everything from matrices to grouping is written over a type `α` with the class `Scalar`, so that one
definition runs on doubles and can be reasoned about on exact rationals.  The order need not be
total: a value that is not at most itself is no number, and `least` and `greatest` pass over it.
-/

namespace Artwork

/-- A type of page coordinates: arithmetic, an order that can be tested, decimal constants, and the
few operations that look at the size of a value. -/
class Scalar (α : Type) extends Add α, Sub α, Mul α, Div α, Neg α, LE α, LT α, OfScientific α where
  decidableLE : DecidableLE α
  decidableLT : DecidableLT α
  /-- Neither infinite nor undefined. -/
  isFinite : α → Bool
  /-- The nearest whole value, halves away from zero. -/
  round : α → α
  /-- The largest integer not above the value, kept inside the signed 64-bit range; 0 for a value
  that is no number. -/
  floor64 : α → Int

namespace Scalar

/-
The operations of a concrete type come from its own instances; the class is asked only when the type
is a variable.
-/
attribute [instance (50)] toAdd toSub toMul toDiv toNeg toLE toLT toOfScientific

instance (priority := low) instDecidableLE {α : Type} [Scalar α] : DecidableLE α := decidableLE

instance (priority := low) instDecidableLT {α : Type} [Scalar α] : DecidableLT α := decidableLT

variable {α : Type} [Scalar α]

/-- Whether `a` is a number at all: every number is at most itself. -/
def isNumber (a : α) : Bool := decide (a ≤ a)

/-- The smaller of two values.  A value that is no number gives way to the other one, and of two
equal values the first is kept. -/
def least (a b : α) : α := if b < a ∨ ¬ a ≤ a then b else a

/-- The greater of two values.  A value that is no number gives way to the other one, and of two
equal values the first is kept. -/
def greatest (a b : α) : α := if a < b ∨ ¬ a ≤ a then b else a

/-- The value without its sign. -/
def magnitude (a : α) : α := if a < 0.0 then -a else a

/-- The smallest number of a list, if it holds a number. -/
def lowest? (xs : List α) : Option α :=
  match xs.filter isNumber with
  | [] => none
  | x :: rest => some (rest.foldl least x)

/-- The greatest number of a list, if it holds a number. -/
def highest? (xs : List α) : Option α :=
  match xs.filter isNumber with
  | [] => none
  | x :: rest => some (rest.foldl greatest x)

/-- The least signed 64-bit integer. -/
def least64 : Int := -0x8000000000000000

/-- The greatest signed 64-bit integer. -/
def greatest64 : Int := 0x7FFFFFFFFFFFFFFF

/-- Keeps an integer inside the signed 64-bit range. -/
def clamp64 (n : Int) : Int := max least64 (min greatest64 n)

end Scalar

end Artwork
