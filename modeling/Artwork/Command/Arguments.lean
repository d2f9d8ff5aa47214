import Artwork.Decimal.Notation

/-!
# Arguments of the command

Switches and settings may stand anywhere among the files, until `--` ends them.  A setting takes
its value from the same word, or from the next one, which then must not look like an option.
Nothing may be given twice, except files.
-/

namespace Artwork
namespace Command

inductive Switch
  | debug
  | noGrouping
  | noText
  | pretty
deriving DecidableEq, Repr

inductive Setting
  | gap
  | outfile
deriving DecidableEq, Repr

/-- What a word on the command line is. -/
inductive Word
  | file (name : String)
  | endOfOptions
  /-- Switches, and a setting with its value, if the word holds it. -/
  | options (switches : List Switch) (setting : Option (Setting × Option String))
deriving DecidableEq, Repr

namespace Word

/-- Splits at the first equals sign. -/
def splitValue (cs : List Char) : List Char × Option String :=
  match cs.dropWhile (· != '=') with
  | [] => (cs, none)
  | _ :: value => (cs.takeWhile (· != '='), some (String.ofList value))

def ofLong? (cs : List Char) : Option Word :=
  let (name, value) := splitValue cs
  let switch (s : Switch) : Option Word := if value.isSome then none else some (.options [s] none)
  match String.ofList name with
  | "debug" => switch .debug
  | "no-grouping" => switch .noGrouping
  | "no-text" => switch .noText
  | "pretty" => switch .pretty
  | "gap" => some (.options [] (some (.gap, value)))
  | "outfile" => some (.options [] (some (.outfile, value)))
  | _ => none

/-- The letters behind one dash.  The rest of the word behind a setting is its value, less an equals
sign in front. -/
def ofShort? (switches : List Switch) : List Char → Option Word
  | [] => some (.options switches none)
  | 'd' :: rest => ofShort? (switches ++ [.debug]) rest
  | 'o' :: rest =>
    let value : Option String := match rest with
      | [] => none
      | '=' :: value => some (String.ofList value)
      | value => some (String.ofList value)
    some (.options switches (some (.outfile, value)))
  | _ :: _ => none

/-- The meaning of a word; none for an option that is not known.  A single dash is a file name. -/
def of? (w : String) : Option Word :=
  match w.toList with
  | ['-', '-'] => some .endOfOptions
  | '-' :: '-' :: rest => ofLong? rest
  | ['-'] => some (.file w)
  | '-' :: rest => ofShort? [] rest
  | _ => some (.file w)

end Word

/-- Whether a word can be the value of the setting before it. -/
def isValue (w : String) : Bool :=
  match w.toList with
  | ['-'] => true
  | '-' :: _ => false
  | _ => true

/-! ## The gap -/

/-- Whether the letters of `cs` are those of `word`, in either case. -/
def isWord (cs : List Char) (word : String) : Bool := String.ofList (cs.map Char.toLower) == word

/-- Reads digits, a point among them or around them, and an exponent. -/
def numeral? (negative : Bool) (cs : List Char) : Option Numeral := do
  let whole := cs.takeWhile Char.isDigit
  let rest := cs.dropWhile Char.isDigit
  let (places, rest) := match rest with
    | '.' :: after => (after.takeWhile Char.isDigit, after.dropWhile Char.isDigit)
    | _ => ([], rest)
  if whole.isEmpty && places.isEmpty then none
  else
    let n : Numeral := ⟨negative, Numeral.ofDigits (whole ++ places), places.length, 0⟩
    match rest with
    | [] => some n
    | e :: rest =>
      if e = 'e' ∨ e = 'E' then
        let (down, power) := match rest with
          | '-' :: power => (true, power)
          | '+' :: power => (false, power)
          | _ => (false, rest)
        if power.isEmpty || !power.all Char.isDigit then none
        else
          let size : Int := Numeral.ofDigits power
          some { n with exponent := if down then -size else size }
      else none

/-- The double a text stands for: a number, or the words for infinity and for no number. -/
def gapValue? (w : String) : Option Float :=
  let (negative, cs) := match w.toList with
    | '-' :: rest => (true, rest)
    | '+' :: rest => (false, rest)
    | cs => (false, cs)
  if isWord cs "inf" || isWord cs "infinity" then
    some (if negative then -(1.0 / 0.0) else 1.0 / 0.0)
  else if isWord cs "nan" then some (0.0 / 0.0)
  else (numeral? negative cs).map Numeral.toFloat

/-! ## All arguments -/

/-- One thing that the command line says. -/
inductive Item
  | file (name : String)
  | switch (s : Switch)
  | setting (s : Setting) (value : String)
deriving DecidableEq, Repr

namespace Item

/-- What the words say one after the other; none when a word is not known or a value is missing. -/
def ofWords? : List String → Option (List Item)
  | [] => some []
  | w :: rest =>
    match Word.of? w with
    | none => none
    | some .endOfOptions => some (rest.map file)
    | some (.file name) => (ofWords? rest).map (file name :: ·)
    | some (.options ss none) => (ofWords? rest).map (ss.map switch ++ ·)
    | some (.options ss (some (s, some value))) =>
      (ofWords? rest).map (ss.map switch ++ setting s value :: ·)
    | some (.options ss (some (s, none))) =>
      match rest with
      | [] => none
      | value :: rest =>
        if isValue value then (ofWords? rest).map (ss.map switch ++ setting s value :: ·) else none

end Item

structure Arguments where
  files : List String
  switches : List Switch
  gap : Option Float
  outfile : Option String

namespace Arguments

def empty : Arguments := ⟨[], [], none, none⟩

def has (a : Arguments) (s : Switch) : Bool := decide (s ∈ a.switches)

/-- Takes in one item.  A file has to have a name, and nothing else may come twice. -/
def add (a : Arguments) : Item → Option Arguments
  | .file name => if name.isEmpty then none else some { a with files := a.files ++ [name] }
  | .switch s => if a.has s then none else some { a with switches := a.switches ++ [s] }
  | .setting .gap value =>
    match a.gap, gapValue? value with
    | none, some x => some { a with gap := some x }
    | _, _ => none
  | .setting .outfile value =>
    if a.outfile.isSome then none else some { a with outfile := some value }

/-- The arguments in some words; at least one file is needed. -/
def ofWords? (ws : List String) : Option Arguments := do
  let a ← (← Item.ofWords? ws).foldlM add empty
  if a.files.isEmpty then none else some a

end Arguments
end Command
end Artwork
