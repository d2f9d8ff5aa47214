import Artwork.Decimal.Numeral
import Artwork.Json.Value

/-!
# Words of a JSON text

`Token.ofText` cuts a text into tokens up to its end or to the first word that is torn.  What is
wrong with a torn word can depend on whether its value is kept or only passed over, so a tear names
a fault for both.  A complete string that names half of a surrogate pair is a word of its own kind:
passing over it is no fault, keeping it is one.
-/

namespace Artwork

/-- The fault of a torn word, when its value is kept and when it is passed over. -/
structure Tear where
  kept : Fault
  skipped : Fault
deriving DecidableEq, Repr

namespace Tear

def both (f : Fault) : Tear := ⟨f, f⟩

end Tear

inductive Token
  | openArray
  | closeArray
  | openObject
  | closeObject
  | comma
  | colon
  | null
  | bool (b : Bool)
  | number (n : Numeral)
  | string (s : String)
  /-- A complete string with a surrogate that has no partner. -/
  | unpaired
  /-- A string that breaks off. -/
  | tornString (t : Tear)
  /-- Any other word that breaks off, or a character that starts no word. -/
  | torn (t : Tear)
deriving DecidableEq, Repr

namespace Token

/-! ## Strings -/

def hexDigit? (c : Char) : Option Nat :=
  if '0' ≤ c ∧ c ≤ '9' then some (c.toNat - '0'.toNat)
  else if 'a' ≤ c ∧ c ≤ 'f' then some (c.toNat - 'a'.toNat + 10)
  else if 'A' ≤ c ∧ c ≤ 'F' then some (c.toNat - 'A'.toNat + 10)
  else none

/-- The value of a run of hexadecimal digits. -/
def hex? (cs : List Char) : Option Nat :=
  cs.foldlM (fun n c => (hexDigit? c).map (16 * n + ·)) 0

/-- The character a one-letter escape stands for. -/
def escaped? : Char → Option Char
  | '"' => some '"'
  | '\\' => some '\\'
  | '/' => some '/'
  | 'b' => some '\x08'
  | 'f' => some '\x0c'
  | 'n' => some '\n'
  | 'r' => some '\r'
  | 't' => some '\t'
  | _ => none

structure Draft where
  /-- Newest first. -/
  chars : List Char
  /-- A leading surrogate that waits for its partner. -/
  lead : Option Nat
  /-- A surrogate has been left without a partner. -/
  unpaired : Bool

namespace Draft

def start : Draft := ⟨[], none, false⟩

def push (d : Draft) (c : Char) : Draft :=
  ⟨c :: d.chars, none, d.unpaired || d.lead.isSome⟩

/-- Takes in one UTF-16 unit. -/
def pushUnit (d : Draft) (u : Nat) : Draft :=
  let trailing := 0xDC00 ≤ u ∧ u < 0xE000
  match d.lead with
  | some hi =>
    if trailing then
      ⟨Char.ofNat (0x10000 + (hi - 0xD800) * 0x400 + (u - 0xDC00)) :: d.chars, none, d.unpaired⟩
    else ⟨d.chars, none, true⟩
  | none =>
    if 0xD800 ≤ u ∧ u < 0xDC00 then ⟨d.chars, some u, d.unpaired⟩
    else if trailing then ⟨d.chars, none, true⟩
    else ⟨Char.ofNat u :: d.chars, none, d.unpaired⟩

/-- The string breaks off.  When it is kept, an earlier lone surrogate has been refused first. -/
def tear (d : Draft) (f : Fault) : Token :=
  .tornString ⟨if d.unpaired then .malformed else f, f⟩

def close (d : Draft) : Token :=
  if d.unpaired || d.lead.isSome then .unpaired else .string (String.ofList d.chars.reverse)

end Draft

/-- Reads a string behind its opening quote. -/
def stringBody (d : Draft) : List Char → Token × List Char
  | [] => (d.tear .cut, [])
  | '"' :: rest => (d.close, rest)
  | '\\' :: rest =>
    match rest with
    | [] => (d.tear .cut, [])
    | 'u' :: h₁ :: h₂ :: h₃ :: h₄ :: after =>
      match hex? [h₁, h₂, h₃, h₄] with
      | some u => stringBody (d.pushUnit u) after
      | none => (d.tear .malformed, [])
    | 'u' :: short =>
      -- Four bytes are looked at before any of them is judged.
      (d.tear (if (String.ofList short).utf8ByteSize < 4 then .cut else .malformed), [])
    | c :: after =>
      match escaped? c with
      | some e => stringBody (d.push e) after
      | none => (d.tear .malformed, [])
  | c :: rest => if c < ' ' then (d.tear .malformed, []) else stringBody (d.push c) rest

theorem stringBody_length_le (d : Draft) (cs : List Char) :
    (stringBody d cs).2.length ≤ cs.length := by
  fun_induction stringBody d cs <;> simp_all <;> omega

/-! ## Numbers -/

/-- A number breaks off before a digit it needs.  A number that is passed over is never cut. -/
def missingDigit (rest : List Char) : Token × List Char :=
  (torn ⟨if rest.isEmpty then .cut else .malformed, .malformed⟩, [])

/-- Reads the exponent, if there is one. -/
def exponent (negative : Bool) (ds : List Char) (places : Nat) (cs : List Char) :
    Token × List Char :=
  let withPower (down : Bool) (cs : List Char) : Token × List Char :=
    let power := cs.takeWhile Char.isDigit
    if power.isEmpty then missingDigit cs
    else
      let size : Int := Numeral.ofDigits power
      (number ⟨negative, Numeral.ofDigits ds, places, if down then -size else size⟩,
        cs.dropWhile Char.isDigit)
  match cs with
  | [] => (number ⟨negative, Numeral.ofDigits ds, places, 0⟩, [])
  | c :: rest =>
    if c = 'e' ∨ c = 'E' then
      match rest with
      | '+' :: after => withPower false after
      | '-' :: after => withPower true after
      | _ => withPower false rest
    else (number ⟨negative, Numeral.ofDigits ds, places, 0⟩, cs)

/-- Reads the places and the exponent behind the digits `ds`. -/
def fraction (negative : Bool) (ds cs : List Char) : Token × List Char :=
  match cs with
  | '.' :: rest =>
    let places := rest.takeWhile Char.isDigit
    if places.isEmpty then missingDigit rest
    else exponent negative (ds ++ places) places.length (rest.dropWhile Char.isDigit)
  | _ => exponent negative ds 0 cs

/-- Reads a number behind its sign.  A leading zero stands alone. -/
def numberBody (negative : Bool) (cs : List Char) : Token × List Char :=
  match cs with
  | '0' :: rest =>
    if (rest.takeWhile Char.isDigit).isEmpty then fraction negative ['0'] rest
    else (torn (.both .malformed), [])
  | _ =>
    let whole := cs.takeWhile Char.isDigit
    if whole.isEmpty then missingDigit cs
    else fraction negative whole (cs.dropWhile Char.isDigit)

theorem length_dropWhile_le (p : Char → Bool) (cs : List Char) :
    (cs.dropWhile p).length ≤ cs.length :=
  (List.dropWhile_suffix p).length_le

theorem exponent_length_le (negative : Bool) (ds : List Char) (places : Nat) (cs : List Char) :
    (exponent negative ds places cs).2.length ≤ cs.length := by
  have h := length_dropWhile_le Char.isDigit
  unfold exponent missingDigit
  split
  · simp
  · next c rest =>
    split
    · split
      all_goals
        dsimp only
        split
        · simp
        · grind
    · simp

theorem fraction_length_le (negative : Bool) (ds cs : List Char) :
    (fraction negative ds cs).2.length ≤ cs.length := by
  unfold fraction missingDigit
  split
  · next rest =>
    dsimp only
    split
    · simp
    · have h₁ := exponent_length_le negative (ds ++ rest.takeWhile Char.isDigit)
        (rest.takeWhile Char.isDigit).length (rest.dropWhile Char.isDigit)
      have h₂ := length_dropWhile_le Char.isDigit rest
      simp only [List.length_cons]
      omega
  · exact exponent_length_le ..

theorem numberBody_length_le (negative : Bool) (cs : List Char) :
    (numberBody negative cs).2.length ≤ cs.length := by
  unfold numberBody missingDigit
  split
  · next rest =>
    split
    · have := fraction_length_le negative ['0'] rest
      simp only [List.length_cons]
      omega
    · simp
  · dsimp only
    split
    · simp
    · have h₁ := fraction_length_le negative (cs.takeWhile Char.isDigit) (cs.dropWhile Char.isDigit)
      have h₂ := length_dropWhile_le Char.isDigit cs
      omega

/-! ## Words -/

/-- Reads the rest of a fixed word. -/
def wordBody (t : Token) : List Char → List Char → Token × List Char
  | [], rest => (t, rest)
  | _ :: _, [] => (torn (.both .cut), [])
  | e :: expected, c :: rest =>
    if c = e then wordBody t expected rest else (torn (.both .malformed), [])

theorem wordBody_length_le (t : Token) (expected cs : List Char) :
    (wordBody t expected cs).2.length ≤ cs.length := by
  fun_induction wordBody t expected cs with
  | case1 => simp
  | case2 => simp
  | case3 _ _ _ ih => exact Nat.le_succ_of_le ih
  | case4 => simp

/-- Reads the token that starts with `c`. -/
def next (c : Char) (rest : List Char) : Token × List Char :=
  match c with
  | '[' => (openArray, rest)
  | ']' => (closeArray, rest)
  | '\x7b' => (openObject, rest)
  | '\x7d' => (closeObject, rest)
  | ',' => (comma, rest)
  | ':' => (colon, rest)
  | 'n' => wordBody null ['u', 'l', 'l'] rest
  | 't' => wordBody (bool true) ['r', 'u', 'e'] rest
  | 'f' => wordBody (bool false) ['a', 'l', 's', 'e'] rest
  | '"' => stringBody .start rest
  | '-' => numberBody true rest
  | _ => if c.isDigit then numberBody false (c :: rest) else (torn (.both .malformed), [])

/-- White space between tokens. -/
def isBlank (c : Char) : Bool := c = ' ' || c = '\n' || c = '\t' || c = '\r'

theorem numberBody_digit_length_le (negative : Bool) {c : Char} (hc : c.isDigit = true)
    (rest : List Char) : (numberBody negative (c :: rest)).2.length ≤ rest.length := by
  unfold numberBody
  split
  · next rest' heq =>
    obtain ⟨-, rfl⟩ := List.cons.inj heq
    split
    · exact fraction_length_le negative ['0'] rest
    · simp
  · have h₁ := fraction_length_le negative ((c :: rest).takeWhile Char.isDigit)
      ((c :: rest).dropWhile Char.isDigit)
    have h₂ := length_dropWhile_le Char.isDigit rest
    simp only [List.takeWhile_cons, List.dropWhile_cons, hc, if_true, List.isEmpty_cons,
      Bool.false_eq_true, if_false] at h₁ ⊢
    omega

/-- A token takes at least its first character. -/
theorem next_length_le (c : Char) (rest : List Char) : (next c rest).2.length ≤ rest.length := by
  unfold next
  split
  case h_7 | h_8 | h_9 => exact wordBody_length_le ..
  case h_10 => exact stringBody_length_le ..
  case h_11 => exact numberBody_length_le ..
  case h_12 =>
    split
    · next hc => exact numberBody_digit_length_le false hc rest
    · simp
  all_goals simp

/-- The tokens of a text.  Nothing follows a torn word. -/
def ofText : List Char → List Token
  | [] => []
  | c :: rest =>
    if isBlank c then ofText rest
    else (next c rest).1 :: ofText (next c rest).2
termination_by cs => cs.length
decreasing_by
  · simp
  · have := next_length_le c rest
    simp only [List.length_cons]
    omega

end Token
end Artwork
