/-!
# Buckets

Indices sorted by a key.

The buckets stand in the order in which their keys came up first, and each bucket holds its indices
in the order in which they were added.
-/

namespace Artwork

abbrev Buckets (κ : Type) : Type := List (κ × List Nat)

namespace Buckets

variable {κ : Type} [DecidableEq κ]

/-- Adds an index to the bucket of its key, or begins a bucket with it. -/
def add (key : κ) (x : Nat) : Buckets κ → Buckets κ
  | [] => [(key, [x])]
  | (k, members) :: rest =>
    if k = key then (k, members ++ [x]) :: rest else (k, members) :: add key x rest

/-- The positions of a list by what stands there. -/
def ofKeys (keys : List κ) : Buckets κ := keys.zipIdx.foldl (fun b (key, x) => add key x b) []

def members (b : Buckets κ) : List (List Nat) := b.map (·.2)

end Buckets
end Artwork
