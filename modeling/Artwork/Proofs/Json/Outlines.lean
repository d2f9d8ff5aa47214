import Artwork.Json.Reader
import Artwork.Proofs.Json.Tokens

/-!
# Outlines of written values

The outline of a written value has no break in it, and says where the text goes on behind the value
(`Outline.ofText_textAt`).  A number without a spelling comes back as `null`.
-/

namespace Artwork

variable {α : Type} [Written α]

namespace Json

mutual

/-- What reading the text of a value makes of it. -/
def outline : Json α → Outline α
  | .null => .null
  | .bool b => .bool b
  | .number x =>
    match Written.numeral? x with
    | some n => .ofNumeral n
    | none => .null
  | .string s => .string s
  | .array items => .array (outlines items) none
  | .object members => .object (memberOutlines members) none

def outlines : List (Json α) → List (Outline α)
  | [] => []
  | v :: rest => outline v :: outlines rest

def memberOutlines : List (String × Json α) → List (Key × Outline α)
  | [] => []
  | (key, v) :: rest => (.name key, outline v) :: memberOutlines rest

end

end Json

namespace Outline

open Json

/-- A list that has been opened goes on with an item, unless it ends at once. -/
theorem build_firstItem (places : List (Place α)) (v : Json α) (ts : List Token) :
    build places .firstItem (v.tokens ++ ts) =
      build (.item [] :: places) .value (v.tokens ++ ts) := by
  cases v with
  | number x =>
    rw [Json.tokens]
    cases Written.numeral? x <;> rfl
  | array items => cases items <;> rfl
  | object members =>
    cases members with
    | nil => rfl
    | cons m members => rfl
  | _ => rfl

mutual

/-- The tokens of a value are read to its end. -/
theorem build_tokens (places : List (Place α)) (ts : List Token) :
    ∀ v : Json α, build places .value (v.tokens ++ ts) = build places (.done v.outline) ts
  | .null => rfl
  | .bool _ => rfl
  | .number x => by
    rw [Json.tokens, outline]
    cases Written.numeral? x <;> rfl
  | .string _ => rfl
  | .array [] => rfl
  | .array (v :: items) => by
    have hv := build_tokens (.item [] :: places) (itemsTokens items ++ .closeArray :: ts) v
    have hitems := build_items places [] v.outline ts items
    rw [Json.tokens, outline, outlines]
    simp only [List.cons_append, List.append_assoc, List.nil_append]
    show build places .firstItem (v.tokens ++ (itemsTokens items ++ .closeArray :: ts)) = _
    rw [build_firstItem, hv, hitems]
    rfl
  | .object [] => rfl
  | .object ((key, v) :: members) => by
    have hv := build_tokens (.member [] (.name key) :: places)
      (membersTokens members ++ .closeObject :: ts) v
    have hmembers := build_members places [] (.name key) v.outline ts members
    rw [Json.tokens, outline, memberOutlines]
    simp only [List.cons_append, List.append_assoc, List.nil_append]
    show build (.member [] (.name key) :: places) .value
      (v.tokens ++ (membersTokens members ++ .closeObject :: ts)) = _
    rw [hv, hmembers]
    rfl

theorem build_items (outer : List (Place α)) (before : List (Outline α)) (w : Outline α)
    (ts : List Token) : ∀ items : List (Json α),
      build (.item before :: outer) (.done w) (itemsTokens items ++ .closeArray :: ts) =
        build outer (.done (.array ((w :: before).reverse ++ outlines items) none)) ts
  | [] => by
    rw [outlines, List.append_nil]
    rfl
  | v :: items => by
    have hv := build_tokens (.item (w :: before) :: outer)
      (itemsTokens items ++ .closeArray :: ts) v
    have hitems := build_items outer (w :: before) v.outline ts items
    rw [itemsTokens, outlines]
    simp only [List.cons_append, List.append_assoc]
    show build (.item (w :: before) :: outer) .value
      (v.tokens ++ (itemsTokens items ++ .closeArray :: ts)) = _
    rw [hv, hitems, List.reverse_cons, List.append_assoc]
    rfl

theorem build_members (outer : List (Place α)) (before : List (Key × Outline α)) (key : Key)
    (w : Outline α) (ts : List Token) : ∀ members : List (String × Json α),
      build (.member before key :: outer) (.done w) (membersTokens members ++ .closeObject :: ts) =
        build outer
          (.done (.object (((key, w) :: before).reverse ++ memberOutlines members) none)) ts
  | [] => by
    rw [memberOutlines, List.append_nil]
    rfl
  | (name, v) :: members => by
    have hv := build_tokens (.member ((key, w) :: before) (.name name) :: outer)
      (membersTokens members ++ .closeObject :: ts) v
    have hmembers := build_members outer ((key, w) :: before) (.name name) v.outline ts members
    rw [membersTokens, memberOutlines]
    simp only [List.cons_append, List.append_assoc]
    show build (.member ((key, w) :: before) (.name name) :: outer) .value
      (v.tokens ++ (membersTokens members ++ .closeObject :: ts)) = _
    rw [hv, hmembers, List.reverse_cons, List.append_assoc]
    rfl

end

/-- The outline of a text that begins with a written value. -/
theorem ofText_textAt (sp : Spacing) (depth : Nat) (v : Json α) {rest : List Char}
    (hrest : (∃ x, v = .number x) → Token.EndsNumeral rest) :
    ofText (textAt sp depth v ++ rest) = (v.outline, !(Token.ofText rest).isEmpty) := by
  rw [ofText, Token.ofText_textAt sp depth rest v hrest, build_tokens, build]

end Outline
end Artwork
