import Artwork.Decimal.Notation
import Artwork.Json.Value

/-!
# Written form of JSON values

A `Spacing` says what stands between the parts of a list or an object; the compact form puts nothing
there, the indented one gives every item a line of its own.
-/

namespace Artwork

inductive Spacing
  | compact
  /-- Every item on its own line, two spaces deeper than what it stands in. -/
  | indented
deriving DecidableEq, Repr

namespace Spacing

/-- What stands in front of an item at a depth, and in front of the closing bracket. -/
def gap : Spacing → Nat → List Char
  | .compact, _ => []
  | .indented, depth => '\n' :: List.replicate (2 * depth) ' '

/-- What stands between a key and its value. -/
def colon : Spacing → List Char
  | .compact => [':']
  | .indented => [':', ' ']

end Spacing

namespace Json

/-- The digit of a value below sixteen. -/
def hexDigit (n : Nat) : Char :=
  if n < 10 then Char.ofNat ('0'.toNat + n) else Char.ofNat ('a'.toNat + (n - 10))

/-- A character inside a string. Quotes, backslashes and control characters are escaped, nothing
else. -/
def escape (c : Char) : List Char :=
  match c with
  | '"' => ['\\', '"']
  | '\\' => ['\\', '\\']
  | '\x08' => ['\\', 'b']
  | '\x0c' => ['\\', 'f']
  | '\n' => ['\\', 'n']
  | '\r' => ['\\', 'r']
  | '\t' => ['\\', 't']
  | c =>
    if c < ' ' then ['\\', 'u', '0', '0', hexDigit (c.toNat / 16), hexDigit (c.toNat % 16)] else [c]

def quoted (s : String) : List Char := '"' :: s.toList.flatMap escape ++ ['"']

variable {α : Type} [Written α]

/-- A number without a spelling is written as `null`. -/
def numberText (x : α) : List Char :=
  match Written.numeral? x with
  | some n => n.text
  | none => ['n', 'u', 'l', 'l']

mutual

/-- The text of a value that stands at a depth. -/
def textAt (sp : Spacing) (depth : Nat) : Json α → List Char
  | .null => ['n', 'u', 'l', 'l']
  | .bool true => ['t', 'r', 'u', 'e']
  | .bool false => ['f', 'a', 'l', 's', 'e']
  | .number x => numberText x
  | .string s => quoted s
  | .array [] => ['[', ']']
  | .array (v :: rest) =>
    '[' :: sp.gap (depth + 1) ++ textAt sp (depth + 1) v ++ itemsText sp (depth + 1) rest ++
      sp.gap depth ++ [']']
  | .object [] => ['\x7b', '\x7d']
  | .object ((key, v) :: rest) =>
    '\x7b' :: sp.gap (depth + 1) ++ quoted key ++ sp.colon ++ textAt sp (depth + 1) v ++
      membersText sp (depth + 1) rest ++ sp.gap depth ++ ['\x7d']

/-- The items behind the first one. -/
def itemsText (sp : Spacing) (depth : Nat) : List (Json α) → List Char
  | [] => []
  | v :: rest => ',' :: sp.gap depth ++ textAt sp depth v ++ itemsText sp depth rest

/-- The members behind the first one. -/
def membersText (sp : Spacing) (depth : Nat) : List (String × Json α) → List Char
  | [] => []
  | (key, v) :: rest =>
    ',' :: sp.gap depth ++ quoted key ++ sp.colon ++ textAt sp depth v ++ membersText sp depth rest

end

def text (sp : Spacing) (v : Json α) : String := String.ofList (textAt sp 0 v)

end Json
end Artwork
