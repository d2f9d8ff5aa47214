import Artwork.Text.Blank

/-!
# Genuine text

Which text runs are genuine.

Outlined fonts leave runs of placeholder characters in a page's text listing.  A run is kept when it
is not blank and at least half of what can be read of it is printable, counted in UTF-16 units.
-/

namespace Artwork
namespace Text

/-- Characters that are left out before a run is judged: control characters and the replacement
character. -/
def isUnreadable (c : Char) : Bool := decide (c.toNat ≤ 0x1F) || c.toNat == 0xFFFD

/-- The scripts whose characters count as printable, as ranges of code points: ASCII, Latin with its
supplement and extensions, Cyrillic, unified ideographs, ideographic punctuation with the kana, and
Hangul syllables. -/
def printableRanges : List (Nat × Nat) :=
  [(0x20, 0x7E), (0xA0, 0x24F), (0x400, 0x4FF), (0x4E00, 0x9FFF), (0x3000, 0x30FF),
    (0xAC00, 0xD7AF)]

def isPrintable (c : Char) : Bool := printableRanges.any fun (lo, hi) => lo ≤ c.toNat ∧ c.toNat ≤ hi

/-- How many UTF-16 units a character takes. -/
def units (c : Char) : Nat := if c.toNat < 0x10000 then 1 else 2

/-- The readable units of a run, and how many of them are printable. -/
def tally (cs : List Char) : Nat × Nat :=
  (cs.filter (!isUnreadable ·)).foldl
    (fun (readable, printable) c =>
      (readable + units c, if isPrintable c then printable + units c else printable))
    (0, 0)

/-- The least share of printable units among the readable ones. -/
def minShare : Float := 0.5

/-- Whether a run is mostly genuine text.  The share is judged in doubles. -/
def isGenuine (text : String) : Bool :=
  let (readable, printable) := tally text.toList
  !text.toList.all isBlank && decide (Float.ofNat readable * minShare ≤ Float.ofNat printable)

end Text
end Artwork
