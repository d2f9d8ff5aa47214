import Artwork.Json.Outline

/-!
# Readers of typed values

A reader walks the outline of a value and stops at the first thing it cannot accept.  A `Record`
knows the names of its fields and reads them from an object, in any order, or from a list, in the
order of their declaration; when several things are wrong, the one that stands first in the text is
reported.
-/

namespace Artwork

/-- Reads a value inside of which so many more lists and objects may be opened. -/
abbrev Reader (α β : Type) : Type := Nat → Outline α → Except Fault β

namespace Outline

variable {α : Type}

/-- The fault of a value that is not of the wanted shape.  A number or a string is read before it is
refused; a list or an object is refused where it begins. -/
def misfit : Outline α → Fault
  | .unusable => .malformed
  | .broken t => t.kept
  | _ => .mismatch

end Outline

namespace Reader

open Outline

variable {α β : Type}

def number : Reader α α
  | _, .number x => .ok x
  | _, v => .error v.misfit

def string : Reader α String
  | _, .string s => .ok s
  | _, v => .error v.misfit

/-- A value, or `null` for none. -/
def nullable (r : Reader α β) : Reader α (Option β)
  | _, .null => .ok none
  | room, v => (r room v).map some

def list (r : Reader α β) : Reader α (List β)
  | room, .array items stop => do
    let room ← deeper room
    let xs ← items.mapM (r room)
    ending xs stop
  | _, v => .error v.misfit

/-- Reads a value and then interprets it; what has no interpretation does not fit. -/
def filterMap {γ : Type} (r : Reader α β) (f : β → Option γ) : Reader α γ :=
  fun room v => do
    match f (← r room v) with
    | some c => .ok c
    | none => .error .mismatch

/-- Any JSON value, read in full. -/
def json : Reader α (Json α) := keep

/-- How many lists and objects may be open at once. -/
def maxDepth : Nat := 127

/-- Reads a whole text. -/
def decode [Written α] (r : Reader α β) (text : List Char) : Except Fault β :=
  let (v, more) := Outline.ofText text
  do
    let b ← r maxDepth v
    if more then .error .malformed else .ok b

end Reader

/-- A fault and the place of the item or member where it was met. -/
abbrev Placed (β : Type) : Type := Except (Nat × Fault) β

namespace Placed

variable {β γ : Type}

/-- Of two faults the one that stands first counts. -/
def ap (f : Placed (β → γ)) (x : Placed β) : Placed γ :=
  match f, x with
  | .ok f, .ok b => .ok (f b)
  | .error e, .ok _ => .error e
  | .ok _, .error e => .error e
  | .error e, .error e' => .error (if e'.1 < e.1 then e' else e)

end Placed

/-- The fields that a value offers. -/
inductive Offer (α : Type)
  | members (ms : List (Key × Outline α))
  | items (vs : List (Outline α))

namespace Offer

variable {α : Type}

/-- The place of the field `name`, which is declared as number `index`, and its value.  A field that
is not there is missed at the end. -/
def find (o : Offer α) (index : Nat) (name : String) : Nat × Option (Outline α) :=
  match o with
  | .members ms =>
    let place := ms.findIdx fun m => m.1 == .name name
    (place, ms[place]?.map (·.2))
  | .items vs => (min index vs.length, vs[index]?)

end Offer

/-- A record with named fields in an order. -/
structure Record (α β : Type) where
  names : List String
  /-- Reads the fields, the first of which is declared as number `index`. -/
  fields : (room : Nat) → Offer α → (index : Nat) → Placed β

namespace Record

variable {α β γ : Type}

instance : Functor (Record α) where
  map f r := ⟨r.names, fun room o i => (r.fields room o i).map f⟩

instance : Seq (Record α) where
  seq f x := ⟨f.names ++ (x ()).names, fun room o i =>
    Placed.ap (f.fields room o i) ((x ()).fields room o (i + f.names.length))⟩

/-- A field.  `absent` stands in for a missing member of an object, `short` for a missing item of a
list. -/
def field (name : String) (r : Reader α β) (absent short : Option β) : Record α β where
  names := [name]
  fields room o i :=
    match o.find i name with
    | (place, some v) => (r room v).mapError (place, ·)
    | (place, none) =>
      let standIn := match o with
        | .members _ => absent
        | .items _ => short
      match standIn with
      | some b => .ok b
      | none => .error (place, .mismatch)

def required (name : String) (r : Reader α β) : Record α β := field name r none none

/-- A field with a value that stands in when it is left out. -/
def defaulted (name : String) (r : Reader α β) (b : β) : Record α β :=
  field name r (some b) (some b)

/-- A field that may be `null`, or be left out of an object. -/
def optional (name : String) (r : Reader α β) : Record α (Option β) :=
  field name r.nullable (some none) none

/-- The first fault among the members of an object that no field accounts for: a key that cannot be
kept, a known key for the second time, an unknown key whose value is torn, or a torn end. -/
def strayMember (names : List String) (stop : Option Fault) (place : Nat) (seen : List String) :
    List (Key × Outline α) → Option (Nat × Fault)
  | [] => stop.map (place, ·)
  | (.torn t, _) :: _ => some (place, t.kept)
  | (.unpaired, _) :: _ => some (place, .malformed)
  | (.name s, v) :: rest =>
    if s ∈ names then
      if s ∈ seen then some (place, .mismatch)
      else strayMember names stop (place + 1) (s :: seen) rest
    else
      match v.skip with
      | .error f => some (place, f)
      | .ok () => strayMember names stop (place + 1) seen rest

/-- The fault behind the last field of a list: nothing may follow it. -/
def strayItem (count : Nat) (stop : Option Fault) (items : List (Outline α)) :
    Option (Nat × Fault) :=
  if count < items.length then some (count, .malformed) else stop.map (items.length, ·)

/-- The result of the fields, unless something else is wrong before their first fault. -/
def settle (stray : Option (Nat × Fault)) (found : Placed β) : Except Fault β :=
  match stray, found with
  | none, found => found.mapError (·.2)
  | some e, .ok _ => .error e.2
  | some e, .error e' => .error (if e'.1 < e.1 then e'.2 else e.2)

/-- Reads the record from a list. -/
def ofItems (r : Record α β) (room : Nat) (items : List (Outline α)) (stop : Option Fault) :
    Except Fault β :=
  settle (strayItem r.names.length stop items) (r.fields room (.items items) 0)

/-- Reads the record from an object. -/
def ofMembers (r : Record α β) (room : Nat) (members : List (Key × Outline α))
    (stop : Option Fault) : Except Fault β :=
  settle (strayMember r.names stop 0 [] members) (r.fields room (.members members) 0)

/-- A record written as a list of its fields only. -/
def row (r : Record α β) : Reader α β
  | room, .array items stop => do r.ofItems (← Outline.deeper room) items stop
  | _, v => .error v.misfit

/-- A record written as an object, or as a list of its fields. -/
def reader (r : Record α β) : Reader α β
  | room, .object members stop => do r.ofMembers (← Outline.deeper room) members stop
  | room, v => r.row room v

end Record
end Artwork
