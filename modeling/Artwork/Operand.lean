import Artwork.Operator

/-!
# Entries and operands

The entries of an operator list: an operator and its raw operands.

What an operator wants of its operands is read off here.  An operand that is of no use is not an
error: the readers below answer `none`, and the operator is passed over.
-/

namespace Artwork

inductive Operand (α : Type)
  | number (x : α)
  /-- The name of an operator, as batches hold them. -/
  | operator (o : Operator)
  | array (items : List (Operand α))
  | null

namespace Operand

variable {α : Type}

def number? : Operand α → Option α
  | number x => some x
  | _ => none

def operator? : Operand α → Option Operator
  | operator o => some o
  | _ => none

def array? : Operand α → Option (List (Operand α))
  | array items => some items
  | _ => none

/-- The items of a list that holds numbers only. -/
def numbers? (o : Operand α) : Option (List α) := do (← o.array?).mapM number?

/-- The path word an operand names. -/
def pathVerb? : Operand α → Option PathVerb
  | operator (.verb (.path v)) => some v
  | _ => none

/-- The first `n` of some operands, when there are so many and all of them are numbers. -/
def leading? (n : Nat) (operands : List (Operand α)) : Option (List α) :=
  if n ≤ operands.length then (operands.take n).mapM number? else none

end Operand

structure Entry (α : Type) where
  operator : Operator
  operands : List (Operand α)

namespace Entry

variable {α : Type}

def bare (o : Operator) : Entry α := ⟨o, []⟩

/-- An entry whose operands are plain numbers. -/
def numbers (o : Operator) (xs : List α) : Entry α := ⟨o, xs.map .number⟩

/-- A batch of path words over one list of coordinates. -/
def batch (words : List Operator) (coordinates : List α) : Entry α :=
  ⟨.verb .constructPath,
    [.array (words.map .operator), .array (coordinates.map .number)]⟩

end Entry

end Artwork
