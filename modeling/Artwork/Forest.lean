import Artwork.Buckets

/-!
# Disjoint-set forests

A disjoint-set forest over the indices below a size.

Every index has a parent, and the roots are their own parents; the root above an index represents
its class.  Looking a root up halves the path to it: each index on the way is hung under its
grandparent.  An index outside the forest is an error; what has been halved before it is met stays
so.
-/

namespace Artwork

/-- An index that is not below the size of what it looks into. -/
structure OutOfRange where
  size : Nat
  index : Nat
deriving DecidableEq, Repr

namespace OutOfRange

def message (e : OutOfRange) : String :=
  String.join ["index out of bounds: the len is ", toString e.size, " but the index is ",
    toString e.index]

end OutOfRange

structure Forest where
  parents : Array Nat
deriving DecidableEq, Repr

namespace Forest

/-- Every index below `n` in a class of its own. -/
def singletons (n : Nat) : Forest := ⟨Array.range n⟩

def size (f : Forest) : Nat := f.parents.size

/-- The parent of an index; an index outside is its own. -/
def parent (f : Forest) (x : Nat) : Nat := f.parents.getD x x

/-- Hangs `x` under `y`. -/
def hang (f : Forest) (x y : Nat) : Forest := ⟨f.parents.setIfInBounds x y⟩

/-- Climbs from `x` to its root and halves the path, at most `steps` times. -/
def climb (f : Forest) (x : Nat) : Nat → Nat × Forest
  | 0 => (x, f)
  | steps + 1 =>
    if f.parent x = x then (x, f)
    else
      let f := f.hang x (f.parent (f.parent x))
      f.climb (f.parent x) steps

/-- The root above `x`.  A path has fewer steps than the forest has indices. -/
def find (f : Forest) (x : Nat) : Except OutOfRange Nat × Forest :=
  if x < f.size then
    let (root, f) := f.climb x f.size
    (.ok root, f)
  else (.error ⟨f.size, x⟩, f)

/-- Merges the classes of `a` and `b`: the root of `a` is hung under that of `b`. -/
def union (f : Forest) (a b : Nat) : Except OutOfRange Unit × Forest :=
  match f.find a with
  | (.error e, f) => (.error e, f)
  | (.ok rootA, f) =>
    match f.find b with
    | (.error e, f) => (.error e, f)
    | (.ok rootB, f) => (.ok (), if rootA = rootB then f else f.hang rootA rootB)

/-- Looks up the root of each index and adds the index there. -/
def collect (f : Forest) (found : Buckets Nat) : List Nat → Buckets Nat × Forest
  | [] => (found, f)
  | x :: rest =>
    let (root, f) := f.climb x f.size
    f.collect (found.add root x) rest

/-- The classes, each in ascending order, ordered by their smallest members. -/
def classes (f : Forest) : List (List Nat) × Forest :=
  let (found, f) := f.collect [] (List.range f.size)
  (found.members, f)

end Forest
end Artwork
