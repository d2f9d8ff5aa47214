import Artwork.Proofs.Json.Outlines
import Artwork.Wire.Canvas

/-!
# Numbers that have a spelling

A number that is read from a text comes from a numeral; a number that is written needs one.  Where
the two directions agree (`LawfulWritten`), every number of a text that was read can be written, and
the outline of what is written says the same numbers again.
-/

namespace Artwork

variable {α : Type}

section Numbers

variable (P : α → Prop)

mutual

/-- Every number in a value has a property. -/
def Json.All : Json α → Prop
  | .number x => P x
  | .array items => Json.AllItems items
  | .object members => Json.AllMembers members
  | _ => True

def Json.AllItems : List (Json α) → Prop
  | [] => True
  | v :: rest => Json.All v ∧ Json.AllItems rest

def Json.AllMembers : List (String × Json α) → Prop
  | [] => True
  | (_, v) :: rest => Json.All v ∧ Json.AllMembers rest

end

mutual

/-- Every number that can be read in an outline has a property. -/
def Outline.All : Outline α → Prop
  | .number x => P x
  | .array items _ => Outline.AllItems items
  | .object members _ => Outline.AllMembers members
  | _ => True

def Outline.AllItems : List (Outline α) → Prop
  | [] => True
  | v :: rest => Outline.All v ∧ Outline.AllItems rest

def Outline.AllMembers : List (Key × Outline α) → Prop
  | [] => True
  | (_, v) :: rest => Outline.All v ∧ Outline.AllMembers rest

end

mutual

def Json.decidableAll [DecidablePred P] : (v : Json α) → Decidable (Json.All P v)
  | .number x => inferInstanceAs (Decidable (P x))
  | .array items => Json.decidableAllItems items
  | .object members => Json.decidableAllMembers members
  | .null | .bool _ | .string _ => .isTrue trivial

def Json.decidableAllItems [DecidablePred P] :
    (items : List (Json α)) → Decidable (Json.AllItems P items)
  | [] => .isTrue trivial
  | v :: rest =>
    haveI := Json.decidableAll v
    haveI := Json.decidableAllItems rest
    inferInstanceAs (Decidable (_ ∧ _))

def Json.decidableAllMembers [DecidablePred P] :
    (members : List (String × Json α)) → Decidable (Json.AllMembers P members)
  | [] => .isTrue trivial
  | (_, v) :: rest =>
    haveI := Json.decidableAll v
    haveI := Json.decidableAllMembers rest
    inferInstanceAs (Decidable (_ ∧ _))

end

instance [DecidablePred P] (v : Json α) : Decidable (v.All P) := v.decidableAll P

end Numbers

variable {P : α → Prop}

theorem Json.allItems_iff {items : List (Json α)} :
    Json.AllItems P items ↔ ∀ v ∈ items, v.All P := by
  induction items with
  | nil => simp [Json.AllItems]
  | cons v rest ih => simp [Json.AllItems, ih]

theorem Json.all_numbers {xs : List α} : (Json.numbers xs).All P ↔ ∀ x ∈ xs, P x := by
  simp [Json.numbers, Json.All, Json.allItems_iff]

theorem Outline.allItems_iff {items : List (Outline α)} :
    Outline.AllItems P items ↔ ∀ v ∈ items, v.All P := by
  induction items with
  | nil => simp [Outline.AllItems]
  | cons v rest ih => simp [Outline.AllItems, ih]

theorem Outline.allMembers_iff {members : List (Key × Outline α)} :
    Outline.AllMembers P members ↔ ∀ m ∈ members, m.2.All P := by
  induction members with
  | nil => simp [Outline.AllMembers]
  | cons m rest ih => simp [Outline.AllMembers, ih]

namespace Outline

/-! ## Outlines of texts -/

def Place.All (P : α → Prop) : Place α → Prop
  | .item before => AllItems P before
  | .member before _ => AllMembers P before

def Stage.All (P : α → Prop) : Stage α → Prop
  | .value | .firstItem => True
  | .key before | .colon before _ => AllMembers P before
  | .done v => v.All P

theorem allItems_reverse {items : List (Outline α)} :
    AllItems P items.reverse ↔ AllItems P items := by
  simp [allItems_iff]

theorem allMembers_reverse {members : List (Key × Outline α)} :
    AllMembers P members.reverse ↔ AllMembers P members := by
  simp [allMembers_iff]

theorem all_enclose {places : List (Place α)} (hplaces : ∀ p ∈ places, p.All P) {v : Outline α}
    (hv : v.All P) : (enclose places v).All P := by
  induction places generalizing v with
  | nil => exact hv
  | cons p places ih =>
    have hp := hplaces p List.mem_cons_self
    have hrest := fun q hq => hplaces q (List.mem_cons_of_mem p hq)
    cases p with
    | item before => exact ih hrest (allItems_reverse.mpr ⟨hv, hp⟩)
    | member before key => exact ih hrest (allMembers_reverse.mpr ⟨hv, hp⟩)

variable [Written α]

theorem all_begin? (hP : ∀ n x, Written.ofNumeral? n = some x → P x) {t : Token}
    {stage : Stage α} (h : begin? t = some stage) : stage.All P := by
  cases t with
  | number n =>
    obtain rfl : Stage.done (ofNumeral n) = stage := by simpa [begin?] using h
    show (ofNumeral n).All P
    unfold ofNumeral
    cases hx : (Written.ofNumeral? n : Option α) with
    | none => trivial
    | some x => exact hP n x hx
  | openObject | openArray | null | bool | string | unpaired =>
    simp only [begin?, Option.some.injEq] at h
    subst h
    trivial
  | _ => cases h

omit [Written α] in
theorem all_noValue (t : Token) : (noValue t : Outline α).All P := by
  unfold noValue
  split <;> trivial

/-- What is kept of the tokens read so far holds numbers of numerals only. -/
theorem all_build (hP : ∀ n x, Written.ofNumeral? n = some x → P x) (places : List (Place α))
    (stage : Stage α) (ts : List Token) (hplaces : ∀ p ∈ places, p.All P) (hstage : stage.All P) :
    (build places stage ts).1.All P := by
  have hcons : ∀ {p : Place α} {ps : List (Place α)}, p.All P → (∀ q ∈ ps, q.All P) →
      ∀ q ∈ p :: ps, q.All P := fun hp hps => List.forall_mem_cons.mpr ⟨hp, hps⟩
  fun_induction build places stage ts with
  | case1 | case4 => exact all_enclose hplaces trivial
  | case2 _ _ _ _ hbegin ih => exact ih hplaces (all_begin? hP hbegin)
  | case3 => exact all_enclose hplaces (all_noValue _)
  | case5 _ _ ih | case8 _ _ ih => exact ih hplaces trivial
  | case6 _ _ _ _ _ hbegin ih =>
    exact ih (hcons (p := .item []) trivial hplaces) (all_begin? hP hbegin)
  | case7 => exact all_enclose (hcons (p := .item []) trivial hplaces) (all_noValue _)
  | case9 _ _ _ _ ih | case10 _ _ _ ih => exact ih hplaces hstage
  | case11 => exact all_enclose (hcons (p := .member _ _) hstage hplaces) trivial
  | case12 => exact all_enclose hplaces (allMembers_reverse.mpr hstage)
  | case13 _ _ _ _ ih => exact ih (hcons (p := .member _ _) hstage hplaces) trivial
  | case14 => exact all_enclose (hcons (p := .member _ _) hstage hplaces) trivial
  | case15 => exact hstage
  | case16 _ _ _ _ ih =>
    obtain ⟨hbefore, houter⟩ := List.forall_mem_cons.mp hplaces
    exact ih (hcons (p := .item _) ⟨hstage, hbefore⟩ houter) trivial
  | case17 _ _ _ _ ih =>
    obtain ⟨hbefore, houter⟩ := List.forall_mem_cons.mp hplaces
    exact ih houter (allItems_reverse.mpr ⟨hstage, hbefore⟩)
  | case18 =>
    obtain ⟨hbefore, houter⟩ := List.forall_mem_cons.mp hplaces
    exact all_enclose houter (allItems_reverse.mpr ⟨hstage, hbefore⟩)
  | case19 _ _ _ _ _ ih =>
    obtain ⟨hbefore, houter⟩ := List.forall_mem_cons.mp hplaces
    exact ih houter ⟨hstage, hbefore⟩
  | case20 _ _ _ _ _ ih =>
    obtain ⟨hbefore, houter⟩ := List.forall_mem_cons.mp hplaces
    exact ih houter (allMembers_reverse.mpr ⟨hstage, hbefore⟩)
  | case21 =>
    obtain ⟨hbefore, houter⟩ := List.forall_mem_cons.mp hplaces
    exact all_enclose houter (allMembers_reverse.mpr ⟨hstage, hbefore⟩)

/-- The numbers of a text are those of its numerals. -/
theorem all_ofText (hP : ∀ n x, Written.ofNumeral? n = some x → P x) (text : List Char) :
    (ofText text).1.All P :=
  all_build hP [] .value _ (List.forall_mem_nil _) trivial

end Outline

/-! ## Spelled numbers -/

namespace Written

variable [Written α]

def Spelled (x : α) : Prop := numeral? x ≠ none

end Written

/-- Reading and writing of numbers agree: what a number is spelled as stands for it, and whatever a
numeral stands for can be spelled. -/
class LawfulWritten (α : Type) [Written α] : Prop where
  ofNumeral?_numeral? : ∀ {x : α} {n : Numeral},
    Written.numeral? x = some n → Written.ofNumeral? n = some x
  spelled_of_ofNumeral? : ∀ {n : Numeral} {x : α}, Written.ofNumeral? n = some x → Written.Spelled x

namespace Json

variable [Written α]

theorem outline_number_spelled [LawfulWritten α] {x : α} (h : Written.Spelled x) :
    (number x).outline = .number x := by
  obtain ⟨n, hn⟩ := Option.ne_none_iff_exists'.mp h
  rw [outline, hn]
  show Outline.ofNumeral n = _
  rw [Outline.ofNumeral, LawfulWritten.ofNumeral?_numeral? hn]

theorem outline_number_unspelled {x : α} (h : ¬ Written.Spelled x) :
    (number x).outline = .null := by
  have hnone : Written.numeral? x = none := Classical.not_not.mp h
  rw [outline, hnone]

theorem outlines_eq_map (items : List (Json α)) : outlines items = items.map outline := by
  induction items with
  | nil => rfl
  | cons v rest ih => rw [outlines, ih, List.map_cons]

end Json

/-- The outline of a written text, read from its start to its end. -/
theorem Reader.decode_text [Written α] {β : Type} (r : Reader α β) (sp : Spacing) (v : Json α) :
    r.decode (v.text sp).toList = r maxDepth v.outline := by
  have hends : Token.EndsNumeral [] := ⟨nofun, nofun, nofun⟩
  have hread := Outline.ofText_textAt sp 0 v fun _ => hends
  have hend : Token.ofText [] = [] := by rw [Token.ofText]
  rw [List.append_nil, hend] at hread
  rw [Json.text, String.toList_ofList, decode, hread]
  dsimp only
  cases r maxDepth v.outline <;> rfl

end Artwork
