import Artwork.Json.Token

/-!
# Numerals read back

The text of a numeral is one token, and the token holds the same numeral (`ofText_numeral`), as long
as nothing follows that would go on with it.
-/

namespace Artwork
namespace Numeral

/-! ## Digits -/

theorem isDigit_of_mem_digits {n : Nat} {c : Char} (h : c ∈ digits n) : c.isDigit = true :=
  Nat.isDigit_of_mem_toDigits (by omega) (by omega) h

theorem ofDigits_eq (ds : List Char) : ofDigits ds = Nat.ofDigitChars 10 ds 0 :=
  Nat.ofDigitChars_eq_foldl.symm

theorem ofDigits_digits (n : Nat) : ofDigits (digits n) = n := by
  rw [ofDigits_eq]
  exact Nat.ofDigitChars_ten_toDigits

theorem ofDigits_zeros (k : Nat) (ds : List Char) :
    ofDigits (List.replicate k '0' ++ ds) = ofDigits ds := by
  rw [ofDigits_eq, ofDigits_eq, Nat.ofDigitChars_append, Nat.ofDigitChars_replicate_zero,
    Nat.mul_zero]

theorem head?_digits {n : Nat} (h : 0 < n) : (digits n).head? ≠ some '0' := by
  induction n using Nat.strongRecOn with
  | ind n ih =>
    unfold digits
    rw [Nat.toDigits_eq_if (by omega)]
    split
    · next hn =>
      have hdigit : ∀ d < 10, 0 < d → d.digitChar ≠ '0' := by decide
      simpa using hdigit n hn h
    · next hn =>
      have hhead := ih (n / 10) (by omega) (by omega)
      obtain ⟨c, cs, hcs⟩ :=
        List.exists_cons_of_ne_nil (Nat.toDigits_ne_nil (n := n / 10) (b := 10))
      rw [digits, hcs] at hhead
      rwa [hcs]

/-- The digits of the mantissa, at least one of which stands before the point. -/
def padded (n : Numeral) : List Char :=
  List.replicate (n.places + 1 - (digits n.significand).length) '0' ++ digits n.significand

/-- The digits before the point. -/
def whole (n : Numeral) : List Char := n.padded.take (n.padded.length - n.places)

/-- The digits behind the point. -/
def fraction (n : Numeral) : List Char := n.padded.drop (n.padded.length - n.places)

theorem mantissa_eq (n : Numeral) :
    n.mantissa = n.whole ++ if n.places = 0 then [] else '.' :: n.fraction := rfl

theorem places_lt_length (n : Numeral) : n.places < n.padded.length := by
  simp only [padded, List.length_append, List.length_replicate]
  omega

theorem isDigit_of_mem_padded {n : Numeral} {c : Char} (h : c ∈ n.padded) : c.isDigit = true := by
  rcases List.mem_append.mp h with h | h
  · rw [List.eq_of_mem_replicate h]
    rfl
  · exact isDigit_of_mem_digits h

theorem isDigit_of_mem_whole {n : Numeral} {c : Char} (h : c ∈ n.whole) : c.isDigit = true :=
  isDigit_of_mem_padded (List.mem_of_mem_take h)

theorem isDigit_of_mem_fraction {n : Numeral} {c : Char} (h : c ∈ n.fraction) :
    c.isDigit = true :=
  isDigit_of_mem_padded (List.mem_of_mem_drop h)

theorem whole_append_fraction (n : Numeral) : n.whole ++ n.fraction = n.padded :=
  List.take_append_drop _ _

theorem length_fraction (n : Numeral) : n.fraction.length = n.places := by
  have h := n.places_lt_length
  rw [fraction, List.length_drop]
  omega

theorem ofDigits_padded (n : Numeral) : ofDigits n.padded = n.significand := by
  rw [padded, ofDigits_zeros, ofDigits_digits]

theorem whole_ne_nil (n : Numeral) : n.whole ≠ [] := by
  have h := n.places_lt_length
  intro hnil
  have hlength := congrArg List.length hnil
  rw [whole, List.length_take, List.length_nil] at hlength
  omega

/-- A zero in front stands alone. -/
theorem whole_eq_zero_or (n : Numeral) : n.whole = ['0'] ∨ n.whole.head? ≠ some '0' := by
  have hlength := n.places_lt_length
  by_cases hpad : (digits n.significand).length < n.places + 1
  · -- The digits are filled up with zeros, up to the one before the point.
    left
    obtain ⟨k, hk⟩ : ∃ k, n.places + 1 - (digits n.significand).length = k + 1 :=
      ⟨n.places - (digits n.significand).length, by omega⟩
    have hone : n.padded.length - n.places = 1 := by
      simp only [padded, List.length_append, List.length_replicate]
      omega
    rw [whole, hone, padded, hk, List.replicate_succ]
    rfl
  · have hdigits : n.padded = digits n.significand := by
      rw [padded, show n.places + 1 - (digits n.significand).length = 0 by omega]
      rfl
    rcases Nat.eq_zero_or_pos n.significand with hzero | hpos
    · left
      have hplaces : n.places = 0 := by
        rw [hzero] at hpad
        simpa [digits] using hpad
      rw [whole, hdigits, hzero, hplaces]
      rfl
    · right
      rw [whole, List.head?_take, if_neg (by omega), hdigits]
      exact head?_digits hpos

/-- The digits of the exponent with what stands before them. -/
def power (n : Numeral) : List Char :=
  if n.exponent = 0 then []
  else 'e' :: (if n.exponent < 0 then '-' else '+') :: digits n.exponent.natAbs

theorem text_eq (n : Numeral) :
    n.text = (if n.negative then ['-'] else []) ++ n.mantissa ++ n.power := rfl

end Numeral

/-! ## Reading -/

namespace Token

/-- A text that does not go on with a numeral in front of it. -/
structure EndsNumeral (rest : List Char) : Prop where
  digit : ∀ c ∈ rest.head?, c.isDigit = false
  point : rest.head? ≠ some '.'
  power : ∀ c ∈ rest.head?, c ≠ 'e' ∧ c ≠ 'E'

theorem takeWhile_digits {ds rest : List Char} (hds : ∀ c ∈ ds, c.isDigit = true)
    (hrest : ∀ c ∈ rest.head?, c.isDigit = false) :
    (ds ++ rest).takeWhile Char.isDigit = ds := by
  rw [List.takeWhile_append_of_pos hds]
  cases rest with
  | nil => rw [List.takeWhile_nil, List.append_nil]
  | cons c rest => rw [List.takeWhile_cons_of_neg (by simp [hrest c rfl]), List.append_nil]

theorem dropWhile_digits {ds rest : List Char} (hds : ∀ c ∈ ds, c.isDigit = true)
    (hrest : ∀ c ∈ rest.head?, c.isDigit = false) :
    (ds ++ rest).dropWhile Char.isDigit = rest := by
  rw [List.dropWhile_append_of_pos hds]
  cases rest with
  | nil => rfl
  | cons c rest => rw [List.dropWhile_cons_of_neg (by simp [hrest c rfl])]

theorem exponent_power (negative : Bool) (ds : List Char) (n : Numeral) {rest : List Char}
    (hrest : EndsNumeral rest) :
    exponent negative ds n.places (n.power ++ rest) =
      (number ⟨negative, Numeral.ofDigits ds, n.places, n.exponent⟩, rest) := by
  by_cases hzero : n.exponent = 0
  · rw [Numeral.power, if_pos hzero, hzero, List.nil_append]
    cases rest with
    | nil => rfl
    | cons c rest =>
      obtain ⟨he, hE⟩ := hrest.power c rfl
      simp [exponent, he, hE]
  · obtain ⟨size, hsize⟩ : ∃ size, size = n.exponent.natAbs := ⟨_, rfl⟩
    have hdigits : ∀ c ∈ Numeral.digits size, c.isDigit = true :=
      fun c => Numeral.isDigit_of_mem_digits
    have hne : Numeral.digits size ≠ [] := Nat.toDigits_ne_nil
    have htake := takeWhile_digits hdigits hrest.digit
    have hdrop := dropWhile_digits hdigits hrest.digit
    rw [Numeral.power, if_neg hzero, ← hsize]
    by_cases hdown : n.exponent < 0
    · have hvalue : -(size : Int) = n.exponent := by omega
      simp [exponent, hdown, htake, hdrop, hne, Numeral.ofDigits_digits, hvalue]
    · have hvalue : (size : Int) = n.exponent := by omega
      simp [exponent, hdown, htake, hdrop, hne, Numeral.ofDigits_digits, hvalue]

theorem isDigit_head?_power {n : Numeral} {rest : List Char} (hrest : EndsNumeral rest) :
    ∀ c ∈ (n.power ++ rest).head?, c.isDigit = false := by
  unfold Numeral.power
  split
  · exact hrest.digit
  · intro c hc
    obtain rfl : 'e' = c := by simpa using hc
    rfl

theorem fraction_mantissa (negative : Bool) (n : Numeral) {rest : List Char}
    (hrest : EndsNumeral rest) :
    fraction negative n.whole
        ((if n.places = 0 then [] else '.' :: n.fraction) ++ (n.power ++ rest)) =
      (number { n with negative }, rest) := by
  have hsplit := n.whole_append_fraction
  have hlength := n.length_fraction
  have hpower := exponent_power negative n.padded n hrest
  rw [Numeral.ofDigits_padded] at hpower
  by_cases hzero : n.places = 0
  · have hpoint : ∀ tail, n.power ++ rest ≠ '.' :: tail := by
      intro tail htail
      unfold Numeral.power at htail
      split at htail
      · exact hrest.point (by simpa using congrArg List.head? htail)
      · simp at htail
    rw [hzero] at hlength
    rw [List.eq_nil_of_length_eq_zero hlength, List.append_nil] at hsplit
    rw [if_pos hzero, List.nil_append, fraction, hsplit]
    · rw [hzero] at hpower
      rw [hpower, hzero]
    · exact hpoint
  · have hdigits : ∀ c ∈ n.fraction, c.isDigit = true :=
      fun c => Numeral.isDigit_of_mem_fraction
    have hdigit := isDigit_head?_power (n := n) hrest
    have hne : n.fraction ≠ [] := fun hnil => hzero (by rw [← hlength, hnil]; rfl)
    rw [if_neg hzero, List.cons_append, fraction]
    simp only [takeWhile_digits hdigits hdigit, dropWhile_digits hdigits hdigit, hsplit, hlength]
    rw [if_neg (by simpa using hne), hpower]

theorem numberBody_mantissa (negative : Bool) (n : Numeral) {rest : List Char}
    (hrest : EndsNumeral rest) :
    numberBody negative (n.mantissa ++ (n.power ++ rest)) = (number { n with negative }, rest) := by
  have hfraction := fraction_mantissa negative n hrest
  have htail : ∀ c ∈ ((if n.places = 0 then [] else '.' :: n.fraction) ++
      (n.power ++ rest)).head?, c.isDigit = false := by
    split
    · exact isDigit_head?_power hrest
    · intro c hc
      obtain rfl : '.' = c := by simpa using hc
      rfl
  rw [Numeral.mantissa_eq, List.append_assoc]
  generalize (if n.places = 0 then [] else '.' :: n.fraction) ++ (n.power ++ rest) = tail at *
  rcases n.whole_eq_zero_or with hwhole | hwhole
  · have hnone : ∀ c ∈ ([] : List Char), c.isDigit = true := by simp
    have htake : tail.takeWhile Char.isDigit = [] := takeWhile_digits hnone htail
    rw [hwhole] at hfraction ⊢
    rw [List.singleton_append, numberBody, htake]
    exact hfraction
  · obtain ⟨c, cs, hcs⟩ := List.exists_cons_of_ne_nil n.whole_ne_nil
    have hdigits : ∀ c ∈ n.whole, c.isDigit = true := fun c => Numeral.isDigit_of_mem_whole
    have hzero : ∀ tail', n.whole ++ tail ≠ '0' :: tail' := by
      intro tail' h
      rw [hcs, List.cons_append] at h
      rw [hcs, (List.cons.inj h).1] at hwhole
      exact hwhole rfl
    rw [numberBody]
    · simp only [takeWhile_digits hdigits htail, dropWhile_digits hdigits htail]
      rw [if_neg (by simpa using n.whole_ne_nil), hfraction]
    · exact hzero

theorem next_digit {c : Char} (hc : c.isDigit = true) (rest : List Char) :
    next c rest = numberBody false (c :: rest) := by
  unfold next
  split
  case h_12 => rw [if_pos hc]
  all_goals exact absurd hc (by decide)

theorem isBlank_digit {c : Char} (hc : c.isDigit = true) : isBlank c = false := by
  have hne : ∀ b : Char, b.isDigit = false → c ≠ b := by
    rintro b hb rfl
    rw [hc] at hb
    cases hb
  simp [isBlank, hne ' ' rfl, hne '\n' rfl, hne '\t' rfl, hne '\r' rfl]

/-- A numeral is one token. -/
theorem ofText_numeral (n : Numeral) {rest : List Char} (hrest : EndsNumeral rest) :
    ofText (n.text ++ rest) = .number n :: ofText rest := by
  have hbody := numberBody_mantissa n.negative n hrest
  rw [Numeral.text_eq, List.append_assoc, List.append_assoc]
  cases hneg : n.negative with
  | true =>
    rw [hneg] at hbody
    have hnext : next '-' (n.mantissa ++ (n.power ++ rest)) = (number n, rest) := by
      rw [next, hbody, ← hneg]
    rw [if_pos rfl, List.singleton_append, ofText, if_neg (by decide), hnext]
  | false =>
    rw [hneg] at hbody
    obtain ⟨c, cs, hcs⟩ := List.exists_cons_of_ne_nil n.whole_ne_nil
    have hc : c.isDigit = true :=
      Numeral.isDigit_of_mem_whole (by rw [hcs]; exact List.mem_cons_self)
    obtain ⟨tail, htail⟩ : ∃ tail, n.mantissa ++ (n.power ++ rest) = c :: tail := by
      rw [Numeral.mantissa_eq, hcs]
      exact ⟨_, rfl⟩
    rw [htail] at hbody
    rw [if_neg (by simp), List.nil_append, htail, ofText, if_neg (by simp [isBlank_digit hc]),
      next_digit hc, hbody, ← hneg]

end Token
end Artwork
