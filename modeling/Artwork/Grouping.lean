import Artwork.Forest
import Artwork.Shape

/-!
# Grouping of shapes

Shapes of the same style whose boxes are within a gap of each other are merged, transitively.  A
merged shape stands where its earliest member stood, has that member's style, and lists the
segments of its members in the order of painting.
-/

namespace Artwork
namespace Grouping

variable {α : Type} [Scalar α]

def defaultGap : α := 1.5

/-- A gap is usable when it is finite and not negative. -/
def isUsable (gap : α) : Bool := Scalar.isFinite gap && decide ((0.0 : α) ≤ gap)

/-- What a caller with another gap is told. -/
def unusableGap : String := "gap should be a finite, non-negative number of millimetres"

/-- Shapes merge only when their fills have one key and their strokes have one key. -/
def styleKey (s : Shape α) : ColorKey × ColorKey := (.ofColor? s.fill, .ofColor? s.stroke)

/-- The pairs of a list, first with second, first with third, and so on. -/
def pairs {β : Type} : List β → List (β × β)
  | [] => []
  | x :: rest => rest.map (x, ·) ++ pairs rest

def linkBucket (near : Nat → Nat → Bool) (f : Forest) (members : List Nat) : Forest :=
  (pairs members).foldl (fun f (i, j) => if near i j then (f.union i j).2 else f) f

/-- Whether two of the shapes are within the gap. -/
def nearAt (shapes : Array (Shape α)) (gap : α) (i j : Nat) : Bool :=
  match shapes[i]?, shapes[j]? with
  | some s, some t => s.box.isNear t.box gap
  | _, _ => false

/-- The shapes of one style each, by index. -/
def buckets (shapes : List (Shape α)) : List (List Nat) :=
  (Buckets.ofKeys (shapes.map styleKey)).members

/-- The classes of shapes that merge, by index. -/
def classes (shapes : List (Shape α)) (gap : α) : List (List Nat) :=
  let near := nearAt shapes.toArray gap
  ((buckets shapes).foldl (linkBucket near) (Forest.singletons shapes.length)).classes.1

/-- One shape out of several; none out of none. -/
def merge? : List (Shape α) → Option (Shape α)
  | [] => none
  | first :: rest =>
    some { first with
      segments := (first :: rest).flatMap Shape.segments
      box := (first :: rest).foldl (fun b s => b.union s.box) first.box }

def group (shapes : List (Shape α)) (gap : α) : List (Shape α) :=
  let all := shapes.toArray
  (classes shapes gap).filterMap fun members => merge? (members.filterMap (all[·]?))

end Grouping
end Artwork
