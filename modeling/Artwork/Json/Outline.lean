import Artwork.Json.Token
import Artwork.Decimal.Notation

/-!
# Outlines of JSON texts

The outline of a JSON text: its values as far as they can be read.

A text that breaks has an outline too.  The break stands where it was met, as a `broken` value or
as the `stop` of a list or an object, so a reader that walks the outline from the front meets a
break and a value of the wrong shape in the order of the text.
-/

namespace Artwork

/-- The key of an object member. -/
inductive Key
  | name (s : String)
  /-- A key with a surrogate that has no partner. -/
  | unpaired
  | torn (t : Tear)
deriving DecidableEq, Repr

inductive Outline (α : Type)
  | null
  | bool (b : Bool)
  | number (x : α)
  | string (s : String)
  /-- A complete number that is out of range, or a complete string with half a surrogate pair: it
  can be passed over and cannot be kept. -/
  | unusable
  /-- `stop` is the break between the last item and the end of the list, if there is one. -/
  | array (items : List (Outline α)) (stop : Option Fault)
  /-- `stop` is the break between the last member and the end of the object, if there is one. -/
  | object (members : List (Key × Outline α)) (stop : Option Fault)
  | broken (t : Tear)

namespace Outline

variable {α : Type}

/-! ## Reading tokens -/

/-- A place that waits for a value, with what stands before it, newest first. -/
inductive Place (α : Type)
  | item (before : List (Outline α))
  | member (before : List (Key × Outline α)) (key : Key)

/-- What may come next. -/
inductive Stage (α : Type)
  /-- A value. -/
  | value
  /-- A value, or the end of a list that has just been opened. -/
  | firstItem
  /-- A key; or, with no member before it, the end of the object. -/
  | key (before : List (Key × Outline α))
  | colon (before : List (Key × Outline α)) (key : Key)
  /-- A comma, or the end of what the complete value `v` stands in. -/
  | done (v : Outline α)

/-- Puts a value that breaks into its place, and closes everything that is open around it. -/
def enclose : List (Place α) → Outline α → Outline α
  | [], v => v
  | .item before :: places, v => enclose places (.array (v :: before).reverse (some .cut))
  | .member before key :: places, v =>
    enclose places (.object ((key, v) :: before).reverse (some .cut))

/-- What is wrong when the next token is `t`, or the text ends, and something else is needed. -/
def unexpected : Option Token → Fault
  | none => .cut
  | some _ => .malformed

section Building

variable [Written α]

/-- The value of a numeral. -/
def ofNumeral (n : Numeral) : Outline α :=
  match Written.ofNumeral? n with
  | some x => .number x
  | none => .unusable

/-- What follows the first token of a value; none when the token begins no value. -/
def begin? : Token → Option (Stage α)
  | .openArray => some .firstItem
  | .openObject => some (.key [])
  | .null => some (.done .null)
  | .bool b => some (.done (.bool b))
  | .number n => some (.done (ofNumeral n))
  | .string s => some (.done (.string s))
  | .unpaired => some (.done .unusable)
  | _ => none

/-- The break when a value is needed and the token begins none. -/
def noValue : Token → Outline α
  | .tornString t | .torn t => .broken t
  | _ => .broken (.both .malformed)

/-- Reads tokens with the `places` open.  The flag tells whether something follows the outermost
value. -/
def build (places : List (Place α)) : Stage α → List Token → Outline α × Bool
  | .value, [] => (enclose places (.broken (.both .cut)), false)
  | .value, t :: ts =>
    match begin? t with
    | some stage => build places stage ts
    | none => (enclose places (noValue t), false)
  | .firstItem, [] => (enclose places (.array [] (some .cut)), false)
  | .firstItem, .closeArray :: ts => build places (.done (.array [] none)) ts
  | .firstItem, t :: ts =>
    match begin? t with
    | some stage => build (.item [] :: places) stage ts
    | none => (enclose (.item [] :: places) (noValue t), false)
  | .key [], .closeObject :: ts => build places (.done (.object [] none)) ts
  | .key before, .string s :: ts => build places (.colon before (.name s)) ts
  | .key before, .unpaired :: ts => build places (.colon before .unpaired) ts
  | .key before, .tornString t :: _ =>
    (enclose (.member before (.torn t) :: places) (.broken t), false)
  | .key before, ts => (enclose places (.object before.reverse (some (unexpected ts.head?))), false)
  | .colon before key, .colon :: ts => build (.member before key :: places) .value ts
  | .colon before key, ts =>
    (enclose (.member before key :: places) (.broken (.both (unexpected ts.head?))), false)
  | .done v, ts =>
    match places, ts with
    | [], ts => (v, !ts.isEmpty)
    | .item before :: outer, .comma :: ts => build (.item (v :: before) :: outer) .value ts
    | .item before :: outer, .closeArray :: ts =>
      build outer (.done (.array (v :: before).reverse none)) ts
    | .item before :: outer, ts =>
      (enclose outer (.array (v :: before).reverse (some (unexpected ts.head?))), false)
    | .member before key :: outer, .comma :: ts => build outer (.key ((key, v) :: before)) ts
    | .member before key :: outer, .closeObject :: ts =>
      build outer (.done (.object ((key, v) :: before).reverse none)) ts
    | .member before key :: outer, ts =>
      (enclose outer (.object ((key, v) :: before).reverse (some (unexpected ts.head?))), false)

/-- The outline of a text, and whether something follows its value. -/
def ofText (text : List Char) : Outline α × Bool := build [] .value (Token.ofText text)

end Building

/-! ## Passing over a value -/

/-- How a stretch of items or members ends. -/
def ending {β : Type} (b : β) : Option Fault → Except Fault β
  | none => .ok b
  | some f => .error f

mutual

/-- The first fault of a value that is passed over. -/
def skip : Outline α → Except Fault Unit
  | .array items stop => do
    skipItems items
    ending () stop
  | .object members stop => do
    skipMembers members
    ending () stop
  | .broken t => .error t.skipped
  | _ => .ok ()

def skipItems : List (Outline α) → Except Fault Unit
  | [] => .ok ()
  | v :: rest => do
    skip v
    skipItems rest

def skipMembers : List (Key × Outline α) → Except Fault Unit
  | [] => .ok ()
  | (.torn t, _) :: _ => .error t.skipped
  | (_, v) :: rest => do
    skip v
    skipMembers rest

end

/-! ## Keeping a value -/

/-- Opens one more list or object inside of which `room` may still be opened. -/
def deeper : Nat → Except Fault Nat
  | 0 => .error .malformed
  | room + 1 => .ok room

/-- The text of a key that is kept. -/
def keepKey : Key → Except Fault String
  | .name s => .ok s
  | .unpaired => .error .malformed
  | .torn t => .error t.kept

mutual

/-- Reads a value in full, at most `room` lists and objects deep. -/
def keep (room : Nat) : Outline α → Except Fault (Json α)
  | .null => .ok .null
  | .bool b => .ok (.bool b)
  | .number x => .ok (.number x)
  | .string s => .ok (.string s)
  | .unusable => .error .malformed
  | .array items stop => do
    let kept ← keepItems (← deeper room) items
    ending (.array kept) stop
  | .object members stop => do
    let kept ← keepMembers (← deeper room) members
    ending (.object kept) stop
  | .broken t => .error t.kept

def keepItems (room : Nat) : List (Outline α) → Except Fault (List (Json α))
  | [] => .ok []
  | v :: rest => do
    let kept ← keep room v
    return kept :: (← keepItems room rest)

def keepMembers (room : Nat) : List (Key × Outline α) → Except Fault (List (String × Json α))
  | [] => .ok []
  | (key, v) :: rest => do
    let name ← keepKey key
    let kept ← keep room v
    return (name, kept) :: (← keepMembers room rest)

end

end Outline
end Artwork
