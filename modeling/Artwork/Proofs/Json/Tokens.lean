import Artwork.Json.Writer
import Artwork.Proofs.Json.Numerals

/-!
# Tokens of written values

A written value is cut into the tokens one expects (`ofText_textAt`), however it is laid out and
whatever its strings hold.
-/

namespace Artwork

/-! ## Strings -/

namespace Token

theorem hex?_hexDigit {n : Nat} (h : n < 32) :
    hex? ['0', '0', Json.hexDigit (n / 16), Json.hexDigit (n % 16)] = some n := by
  have hall : ∀ n < 32,
      hex? ['0', '0', Json.hexDigit (n / 16), Json.hexDigit (n % 16)] = some n := by
    decide
  exact hall n h

theorem stringBody_escape {d : Draft} (hlead : d.lead = none) (c : Char) (rest : List Char) :
    stringBody d (Json.escape c ++ rest) = stringBody (d.push c) rest := by
  unfold Json.escape
  split
  case h_8 =>
    next hquote hslash _ _ _ _ _ =>
    split
    · next hcontrol =>
      have hlt : c.toNat < 32 := hcontrol
      have hunit : d.pushUnit c.toNat = d.push c := by
        rw [Draft.pushUnit, hlead]
        simp only [Draft.push, hlead, Char.ofNat_toNat]
        rw [if_neg (by omega), if_neg (by omega)]
        simp
      simp only [List.cons_append, List.nil_append, stringBody, hex?_hexDigit hlt, hunit]
    · next hplain =>
      rw [List.singleton_append, stringBody, if_neg hplain]
      · exact hquote
      · exact hslash
  all_goals simp [stringBody, escaped?]

/-- A string in quotes is one token. -/
theorem stringBody_escaped (cs : List Char) {d : Draft} (hlead : d.lead = none)
    (rest : List Char) :
    stringBody d (cs.flatMap Json.escape ++ '"' :: rest) =
      (Draft.close ⟨cs.reverse ++ d.chars, none, d.unpaired⟩, rest) := by
  induction cs generalizing d with
  | nil =>
    obtain ⟨chars, lead, unpaired⟩ := d
    cases hlead
    rfl
  | cons c cs ih =>
    rw [List.flatMap_cons, List.append_assoc, stringBody_escape hlead, ih (d := d.push c) rfl]
    simp [Draft.push, hlead]

theorem ofText_quoted (s : String) (rest : List Char) :
    ofText (Json.quoted s ++ rest) = .string s :: ofText rest := by
  have hbody := stringBody_escaped s.toList (d := .start) rfl rest
  have hquoted : Json.quoted s ++ rest =
      '"' :: (s.toList.flatMap Json.escape ++ '"' :: rest) := by
    simp [Json.quoted]
  have hnext : next '"' (s.toList.flatMap Json.escape ++ '"' :: rest) = (.string s, rest) := by
    rw [next, hbody]
    simp [Draft.close, Draft.start]
  rw [hquoted, ofText, if_neg (by decide), hnext]

/-! ## Other words -/

/-- The characters that are tokens by themselves. -/
def mark? : Char → Option Token
  | '[' => some .openArray
  | ']' => some .closeArray
  | '\x7b' => some .openObject
  | '\x7d' => some .closeObject
  | ',' => some .comma
  | ':' => some .colon
  | _ => none

theorem ofText_mark {c : Char} {t : Token} (h : mark? c = some t) (rest : List Char) :
    ofText (c :: rest) = t :: ofText rest := by
  unfold mark? at h
  split at h <;> cases h <;> rw [ofText, if_neg (by decide)] <;> rfl

theorem ofText_blanks {bs : List Char} (hbs : ∀ b ∈ bs, isBlank b = true) (rest : List Char) :
    ofText (bs ++ rest) = ofText rest := by
  induction bs with
  | nil => rfl
  | cons b bs ih =>
    rw [List.cons_append, ofText, if_pos (hbs b (by simp)), ih fun c hc => hbs c (by simp [hc])]

theorem ofText_gap (sp : Spacing) (depth : Nat) (rest : List Char) :
    ofText (sp.gap depth ++ rest) = ofText rest := by
  cases sp with
  | compact => rfl
  | indented =>
    refine ofText_blanks (fun b hb => ?_) rest
    rcases List.mem_cons.mp hb with rfl | hb
    · rfl
    · rw [List.eq_of_mem_replicate hb]
      rfl

theorem ofText_colon (sp : Spacing) (rest : List Char) :
    ofText (sp.colon ++ rest) = .colon :: ofText rest := by
  cases sp with
  | compact => exact ofText_mark rfl rest
  | indented =>
    have hblank : ∀ b ∈ [' '], isBlank b = true := by
      intro b hb
      rw [List.mem_singleton.mp hb]
      rfl
    show ofText (':' :: ([' '] ++ rest)) = _
    rw [ofText_mark rfl, ofText_blanks hblank]

theorem wordBody_append (t : Token) (expected rest : List Char) :
    wordBody t expected (expected ++ rest) = (t, rest) := by
  induction expected with
  | nil => cases rest <;> rfl
  | cons c expected ih => rw [List.cons_append, wordBody, if_pos rfl, ih]

/-- The three words that are spelled out. -/
def word? : Char → Option (Token × List Char)
  | 'n' => some (.null, ['u', 'l', 'l'])
  | 't' => some (.bool true, ['r', 'u', 'e'])
  | 'f' => some (.bool false, ['a', 'l', 's', 'e'])
  | _ => none

theorem ofText_word {c : Char} {t : Token} {expected : List Char}
    (h : word? c = some (t, expected)) (rest : List Char) :
    ofText (c :: expected ++ rest) = t :: ofText rest := by
  have hnext : next c (expected ++ rest) = (t, rest) := by
    rw [← wordBody_append t expected rest]
    unfold word? at h
    split at h <;> cases h <;> rfl
  have hblank : isBlank c = false := by
    unfold word? at h
    split at h <;> first | rfl | cases h
  rw [List.cons_append, ofText, if_neg (by simp [hblank]), hnext]

theorem endsNumeral_cons {c : Char} {rest : List Char}
    (hc : c.isDigit = false ∧ c ≠ '.' ∧ c ≠ 'e' ∧ c ≠ 'E') : EndsNumeral (c :: rest) := by
  obtain ⟨hdigit, hpoint, hpower⟩ := hc
  constructor
  · intro b hb
    obtain rfl : c = b := by simpa using hb
    exact hdigit
  · simpa using hpoint
  · intro b hb
    obtain rfl : c = b := by simpa using hb
    exact hpower

theorem endsNumeral_gap (sp : Spacing) (depth : Nat) {rest : List Char} (h : EndsNumeral rest) :
    EndsNumeral (sp.gap depth ++ rest) := by
  cases sp with
  | compact => exact h
  | indented => exact endsNumeral_cons (by decide)

end Token

/-! ## Values -/

variable {α : Type} [Written α]

namespace Json

mutual

def tokens : Json α → List Token
  | .null => [.null]
  | .bool b => [.bool b]
  | .number x =>
    match Written.numeral? x with
    | some n => [.number n]
    | none => [.null]
  | .string s => [.string s]
  | .array [] => [.openArray, .closeArray]
  | .array (v :: rest) => .openArray :: (tokens v ++ itemsTokens rest ++ [.closeArray])
  | .object [] => [.openObject, .closeObject]
  | .object ((key, v) :: rest) =>
    .openObject :: .string key :: .colon :: (tokens v ++ membersTokens rest ++ [.closeObject])

/-- The items behind the first one. -/
def itemsTokens : List (Json α) → List Token
  | [] => []
  | v :: rest => .comma :: (tokens v ++ itemsTokens rest)

/-- The members behind the first one. -/
def membersTokens : List (String × Json α) → List Token
  | [] => []
  | (key, v) :: rest => .comma :: .string key :: .colon :: (tokens v ++ membersTokens rest)

end

theorem endsNumeral_itemsText (sp : Spacing) (depth : Nat) (items : List (Json α))
    {rest : List Char} (h : Token.EndsNumeral rest) :
    Token.EndsNumeral (itemsText sp depth items ++ rest) := by
  cases items with
  | nil => exact h
  | cons v items => exact Token.endsNumeral_cons (by decide)

theorem endsNumeral_membersText (sp : Spacing) (depth : Nat) (members : List (String × Json α))
    {rest : List Char} (h : Token.EndsNumeral rest) :
    Token.EndsNumeral (membersText sp depth members ++ rest) := by
  cases members with
  | nil => exact h
  | cons m members => exact Token.endsNumeral_cons (by decide)

end Json

namespace Token

open Json

theorem ofText_numberText (x : α) {rest : List Char} (hrest : EndsNumeral rest) :
    ofText (numberText x ++ rest) = (Json.number x).tokens ++ ofText rest := by
  rw [numberText, Json.tokens]
  cases Written.numeral? x with
  | some n => exact ofText_numeral n hrest
  | none => exact ofText_word (c := 'n') rfl rest

mutual

/-- The tokens of a written value; only behind a number it matters what follows. -/
theorem ofText_textAt (sp : Spacing) (depth : Nat) (rest : List Char) :
    ∀ v : Json α, ((∃ x, v = .number x) → EndsNumeral rest) →
      ofText (textAt sp depth v ++ rest) = v.tokens ++ ofText rest
  | .null, _ => ofText_word (c := 'n') rfl rest
  | .bool true, _ => ofText_word (c := 't') rfl rest
  | .bool false, _ => ofText_word (c := 'f') rfl rest
  | .number x, hrest => ofText_numberText x (hrest ⟨x, rfl⟩)
  | .string s, _ => ofText_quoted s rest
  | .array [], _ => by
    rw [textAt, Json.tokens, List.cons_append, ofText_mark rfl]
    exact congrArg _ (ofText_mark rfl rest)
  | .array (v :: items), _ => by
    have hclose : EndsNumeral (sp.gap depth ++ ']' :: rest) :=
      endsNumeral_gap sp depth (endsNumeral_cons (by decide))
    have hv := ofText_textAt sp (depth + 1)
      (itemsText sp (depth + 1) items ++ (sp.gap depth ++ ']' :: rest)) v
      fun _ => endsNumeral_itemsText sp (depth + 1) items hclose
    have hitems := ofText_itemsText sp (depth + 1) (sp.gap depth ++ ']' :: rest) hclose items
    rw [textAt, Json.tokens]
    simp only [List.append_assoc, List.cons_append, List.nil_append]
    rw [ofText_mark rfl, ofText_gap, hv, hitems, ofText_gap, ofText_mark rfl]
  | .object [], _ => by
    rw [textAt, Json.tokens, List.cons_append, ofText_mark rfl]
    exact congrArg _ (ofText_mark rfl rest)
  | .object ((key, v) :: members), _ => by
    have hclose : EndsNumeral (sp.gap depth ++ '\x7d' :: rest) :=
      endsNumeral_gap sp depth (endsNumeral_cons (by decide))
    have hv := ofText_textAt sp (depth + 1)
      (membersText sp (depth + 1) members ++ (sp.gap depth ++ '\x7d' :: rest)) v
      fun _ => endsNumeral_membersText sp (depth + 1) members hclose
    have hmembers :=
      ofText_membersText sp (depth + 1) (sp.gap depth ++ '\x7d' :: rest) hclose members
    rw [textAt, Json.tokens]
    simp only [List.append_assoc, List.cons_append, List.nil_append]
    rw [ofText_mark rfl, ofText_gap, ofText_quoted, ofText_colon, hv, hmembers, ofText_gap,
      ofText_mark rfl]

theorem ofText_itemsText (sp : Spacing) (depth : Nat) (rest : List Char)
    (hrest : EndsNumeral rest) : ∀ items : List (Json α),
      ofText (itemsText sp depth items ++ rest) = itemsTokens items ++ ofText rest
  | [] => rfl
  | v :: items => by
    have hv := ofText_textAt sp depth (itemsText sp depth items ++ rest) v
      fun _ => endsNumeral_itemsText sp depth items hrest
    have hitems := ofText_itemsText sp depth rest hrest items
    rw [itemsText, itemsTokens]
    simp only [List.append_assoc, List.cons_append]
    rw [ofText_mark rfl, ofText_gap, hv, hitems]

theorem ofText_membersText (sp : Spacing) (depth : Nat) (rest : List Char)
    (hrest : EndsNumeral rest) : ∀ members : List (String × Json α),
      ofText (membersText sp depth members ++ rest) = membersTokens members ++ ofText rest
  | [] => rfl
  | (key, v) :: members => by
    have hv := ofText_textAt sp depth (membersText sp depth members ++ rest) v
      fun _ => endsNumeral_membersText sp depth members hrest
    have hmembers := ofText_membersText sp depth rest hrest members
    rw [membersText, membersTokens]
    simp only [List.append_assoc, List.cons_append]
    rw [ofText_mark rfl, ofText_gap, ofText_quoted, ofText_colon, hv, hmembers]

end

end Token
end Artwork
