import Artwork.Proofs.Double.Notation
import Artwork.Proofs.Machine.Batch
import Artwork.Proofs.Wire.RoundTrip

/-!
# Operands and the values they are read from

An operand has four forms, and a value is tried as one after the other, as are the items of a list.
No value has two forms, so that an operand shows its value node for node (`Operand.Mirrors`); and a
value is an operand's unless a truth value or an object stands somewhere in its lists
(`Operand.decode_mirrors`).
-/

namespace Artwork

variable {α : Type}

namespace Json

/-- `v.OccursIn j`: `v` is `j` itself, or occurs in an item of the list `j`.  The members of an
object are not looked at. -/
inductive OccursIn : Json α → Json α → Prop
  | self (j : Json α) : OccursIn j j
  | item {v j : Json α} {items : List (Json α)} :
    j ∈ items → OccursIn v j → OccursIn v (.array items)

/-- Neither a truth value nor an object occurs in the value. -/
def Plain (j : Json α) : Prop :=
  ∀ v : Json α, v.OccursIn j → (∀ b, v ≠ .bool b) ∧ ∀ members, v ≠ .object members

theorem plain_array_iff {items : List (Json α)} :
    (array items).Plain ↔ ∀ v ∈ items, v.Plain := by
  constructor
  · exact fun h v hv u hu => h u (.item hv hu)
  · intro h u hu
    cases hu with
    | self => exact ⟨nofun, nofun⟩
    | item hv hu => exact h _ hv u hu

end Json

namespace Operand

/-- The operand shows the value node for node. -/
inductive Mirrors : Json α → Operand α → Prop
  | number (x : α) : Mirrors (.number x) (.number x)
  | operator (s : String) : Mirrors (.string s) (.operator (.ofName s))
  | array {items : List (Json α)} {operands : List (Operand α)} :
    List.Forall₂ Mirrors items operands → Mirrors (.array items) (.array operands)
  | null : Mirrors .null .null

/-! ## Forms of an operand -/

/-- The forms of an operand. -/
inductive Form
  | number
  | operator
  | array
  | null

namespace Form

/-- In the order in which they are tried. -/
def all : List Form := [number, operator, array, null]

/-- Reads a value in one form only. -/
def read? : Form → Json α → Option (Operand α)
  | number, .number x => some (.number x)
  | operator, .string s => some (.operator (.ofName s))
  | array, .array items => (items.mapM ofJson?).map .array
  | null, .null => some .null
  | _, _ => none

end Form

theorem ofJsons?_eq_mapM (items : List (Json α)) : ofJsons? items = items.mapM ofJson? := by
  induction items with
  | nil => rfl
  | cons v rest ih => rw [ofJsons?, ih, List.mapM_cons]

/-- A value is read in the first form that it has. -/
theorem ofJson?_eq_findSome? (j : Json α) : ofJson? j = Form.all.findSome? (·.read? j) := by
  cases j with
  | array items =>
    rw [ofJson?, ofJsons?_eq_mapM]
    cases h : items.mapM ofJson? <;> simp [Form.all, Form.read?, h]
  | _ => rfl

/-- No later form reads anything else. -/
theorem ofJson?_of_read? {j : Json α} (f : Form) (o : Operand α) (h : f.read? j = some o) :
    ofJson? j = some o := by
  cases f with
  | array =>
    cases j with
    | array items =>
      rw [ofJson?, ofJsons?_eq_mapM]
      exact h
    | _ => cases h
  | _ => cases j <;> first | exact h | cases h

/-! ## Reading a value -/

mutual

theorem mirrors_of_ofJson? : ∀ {j : Json α} {o : Operand α}, ofJson? j = some o → Mirrors j o
  | .number x, _, h => by
    cases h
    exact .number x
  | .string s, _, h => by
    cases h
    exact .operator s
  | .null, _, h => by
    cases h
    exact .null
  | .array items, _, h => by
    obtain ⟨operands, hitems, rfl⟩ := Option.map_eq_some_iff.mp h
    exact .array (forall₂_of_ofJsons? hitems)
  | .bool _, _, h | .object _, _, h => by cases h

theorem forall₂_of_ofJsons? : ∀ {items : List (Json α)} {operands : List (Operand α)},
    ofJsons? items = some operands → List.Forall₂ Mirrors items operands
  | [], _, h => by
    cases h
    exact .nil
  | v :: rest, _, h => by
    simp only [ofJsons?, Option.bind_eq_bind, Option.bind_eq_some_iff] at h
    obtain ⟨o, ho, operands, hrest, h⟩ := h
    cases h
    exact .cons (mirrors_of_ofJson? ho) (forall₂_of_ofJsons? hrest)

end

mutual

theorem ofJson?_of_mirrors : ∀ {j : Json α} {o : Operand α}, Mirrors j o → ofJson? j = some o
  | _, _, .number _ | _, _, .operator _ | _, _, .null => rfl
  | .array items, _, .array h => by
    rw [ofJson?, ofJsons?_of_forall₂ h]
    rfl

theorem ofJsons?_of_forall₂ : ∀ {items : List (Json α)} {operands : List (Operand α)},
    List.Forall₂ Mirrors items operands → ofJsons? items = some operands
  | [], _, .nil => rfl
  | v :: rest, _, .cons hv hrest => by
    rw [ofJsons?, ofJson?_of_mirrors hv, ofJsons?_of_forall₂ hrest]
    rfl

end

theorem ofJson?_eq_some_iff {j : Json α} {o : Operand α} : ofJson? j = some o ↔ Mirrors j o :=
  ⟨mirrors_of_ofJson?, ofJson?_of_mirrors⟩

mutual

theorem exists_ofJson?_iff : ∀ j : Json α, (∃ o, ofJson? j = some o) ↔ j.Plain
  | .number _ | .string _ | .null => by
    refine ⟨fun _ u hu => ?_, fun _ => ⟨_, rfl⟩⟩
    cases hu with
    | self => exact ⟨nofun, nofun⟩
  | .array items => by
    rw [Json.plain_array_iff, ← exists_ofJsons?_iff items]
    simp [ofJson?]
  | .bool b => ⟨nofun, fun h => absurd rfl ((h _ (.self _)).1 b)⟩
  | .object members => ⟨nofun, fun h => absurd rfl ((h _ (.self _)).2 members)⟩

theorem exists_ofJsons?_iff : ∀ items : List (Json α),
    (∃ operands, ofJsons? items = some operands) ↔ ∀ v ∈ items, v.Plain
  | [] => ⟨fun _ => List.forall_mem_nil _, fun _ => ⟨[], rfl⟩⟩
  | v :: rest => by
    rw [List.forall_mem_cons, ← exists_ofJson?_iff v, ← exists_ofJsons?_iff rest]
    constructor
    · rintro ⟨operands, h⟩
      simp only [ofJsons?, Option.bind_eq_bind, Option.bind_eq_some_iff] at h
      obtain ⟨o, ho, operands, hrest, -⟩ := h
      exact ⟨⟨o, ho⟩, ⟨operands, hrest⟩⟩
    · rintro ⟨⟨o, ho⟩, ⟨operands, hrest⟩⟩
      exact ⟨o :: operands, by rw [ofJsons?, ho, hrest]; rfl⟩

end

/-! ## Numbers of an operand -/

theorem eq_map_number_of_mapM {operands : List (Operand α)} {xs : List α}
    (h : operands.mapM number? = some xs) : operands = xs.map number := by
  induction operands generalizing xs with
  | nil =>
    cases h
    rfl
  | cons o rest ih =>
    simp only [List.mapM_cons, Option.bind_eq_bind, Option.bind_eq_some_iff] at h
    obtain ⟨x, hx, ys, hrest, h⟩ := h
    cases h
    cases o with
    | number y =>
      cases hx
      rw [ih hrest]
      rfl
    | _ => cases hx

theorem numbers?_eq_some_iff {o : Operand α} {xs : List α} :
    o.numbers? = some xs ↔ o = .array (xs.map .number) := by
  constructor
  · intro h
    cases o with
    | array items => rw [eq_map_number_of_mapM h]
    | _ => cases h
  · rintro rfl
    exact numbers?_array xs

theorem ofJson?_numbers (xs : List α) :
    ofJson? (.numbers xs) = some (.array (xs.map number)) := by
  have hitems : ofJsons? (xs.map Json.number) = some (xs.map number) := by
    induction xs with
    | nil => rfl
    | cons x rest ih =>
      rw [List.map_cons, ofJsons?, ih]
      rfl
  rw [Json.numbers, ofJson?, hitems]
  rfl

/-- The numbers of an operand are those of the value that it was read from. -/
theorem numbers?_of_ofJson? {j : Json α} {o : Operand α} (h : ofJson? j = some o) (xs : List α) :
    o.numbers? = some xs ↔ j = .numbers xs := by
  rw [numbers?_eq_some_iff]
  constructor
  · rintro rfl
    -- Two values that one operand is read from are both what is written of it.
    rw [← json_of_ofJson? h, json_of_ofJson? (ofJson?_numbers xs)]
  · rintro rfl
    exact Option.some.inj (h.symm.trans (ofJson?_numbers xs))

end Operand

theorem Operator.isOther_ofName (s : String) :
    (ofName s).isOther = true ↔ ∀ v : Verb, v.name ≠ s := by
  constructor
  · rintro h v rfl
    have hverb : ofName v.name = .verb v := ofName_name (.verb v)
    rw [hverb] at h
    cases h
  · intro h
    cases hname : ofName s with
    | other => rfl
    | verb v =>
      have hs := name_ofName s
      rw [hname] at hs
      exact absurd hs (h v)

/-! ## Reading a text -/

section Texts

variable [Written α]

/-- What a text is read as decides how a reader that interprets it ends. -/
theorem Reader.decode_filterMap {β γ : Type} {r : Reader α β} {text : List Char} {b : β}
    (h : r.decode text = .ok b) (f : β → Option γ) :
    (r.filterMap f).decode text = (f b).elim (.error .mismatch) .ok := by
  unfold decode at h ⊢
  generalize Outline.ofText (α := α) text = found at h ⊢
  obtain ⟨v, more⟩ := found
  obtain ⟨b', hread, hend⟩ := exists_of_bind_ok h
  have hmore : more = false ∧ b' = b := by
    cases more with
    | false => exact ⟨rfl, Except.ok.inj hend⟩
    | true => cases hend
  obtain ⟨rfl, rfl⟩ := hmore
  simp only [filterMap, hread]
  cases hb : f b' <;> simp [bind, Except.bind, hb]

namespace Operand

variable {text : List Char} {j : Json α}

theorem decode_ok_iff (h : Reader.json.decode text = .ok j) {o : Operand α} :
    reader.decode text = .ok o ↔ Mirrors j o := by
  rw [← ofJson?_eq_some_iff, reader, Reader.decode_filterMap h]
  cases ofJson? j <;> simp

theorem decode_of_not_plain (h : Reader.json.decode text = .ok j) (hplain : ¬ j.Plain) :
    (reader : Reader α (Operand α)).decode text = .error .mismatch := by
  have hnone : ofJson? j = none :=
    Option.eq_none_iff_forall_ne_some.mpr fun o ho => hplain ((exists_ofJson?_iff j).mp ⟨o, ho⟩)
  rw [reader, Reader.decode_filterMap h, hnone]
  rfl

end Operand

end Texts

/-- The text of a value is read as an operand just when the value is plain, as the operand that
mirrors the value, and refused for its shape otherwise.  Texts are read as values that are nested no
deeper than a reader goes; the forms are tried one after the other; and a name is kept as it is, as
that of a verb if one has it. -/
theorem Operand.decode_mirrors :
    (∀ (text : List Char) (j : Json Float), Reader.json.decode text = .ok j →
        ((∃ o : Operand Float, reader.decode text = .ok o) ↔ j.Plain) ∧
        (¬ j.Plain → (reader : Reader Float (Operand Float)).decode text = .error .mismatch) ∧
        ∀ o : Operand Float, (reader.decode text = .ok o ↔ Mirrors j o) ∧
          (reader.decode text = .ok o → ∀ xs, o.numbers? = some xs ↔ j = .numbers xs)) ∧
      (∀ (j : Json Float) (sp : Spacing), j.Finite →
        (Reader.json.decode (j.text sp).toList = .ok j ↔ j.depth ≤ Reader.maxDepth)) ∧
      (∀ j : Json Float, ofJson? j = Form.all.findSome? (·.read? j) ∧
        ∀ (f : Form) (o : Operand Float), f.read? j = some o → ofJson? j = some o) ∧
      ∀ s : String, (Operator.ofName s).name = s ∧
        ((Operator.ofName s).isOther = true ↔ ∀ v : Verb, v.name ≠ s) := by
  refine ⟨fun text j h => ⟨?_, decode_of_not_plain h, fun o => ⟨decode_ok_iff h, fun ho => ?_⟩⟩,
    fun j sp h => Json.decode_text_iff ((Json.spelled_iff_finite j).mpr h) sp,
    fun j => ⟨ofJson?_eq_findSome? j, ofJson?_of_read?⟩,
    fun s => ⟨Operator.name_ofName s, Operator.isOther_ofName s⟩⟩
  · simp only [decode_ok_iff h, ← ofJson?_eq_some_iff]
    exact exists_ofJson?_iff j
  · exact numbers?_of_ofJson? (ofJson?_of_mirrors ((decode_ok_iff h).mp ho))

/-- A list of lists with a word that is not understood, and one with a truth value deep inside. -/
theorem Operand.decode_mirrors_nested :
    let words : List String := ["fill", "glow"]
    let plain : Json Float :=
      .array [.numbers [1, 0.5], .array (words.map .string), .null, .array []]
    let operand : Operand Float :=
      .array [.array [.number 1, .number 0.5],
        .array (words.map fun s => .operator (.ofName s)), .null, .array []]
    let foreign : Json Float := .array [.null, .array [.number 1, .array [.bool true]]]
    plain.text .compact = "[[1.0,0.5],[\"fill\",\"glow\"],null,[]]" ∧
      Reader.json.decode (plain.text .compact).toList = .ok plain ∧ plain.Plain ∧
      reader.decode (plain.text .compact).toList = .ok operand ∧
      words.map (fun s => (Operator.ofName s).isOther) = [false, true] ∧
      foreign.text .compact = "[null,[1.0,[true]]]" ∧
      Reader.json.decode (foreign.text .compact).toList = .ok foreign ∧ ¬ foreign.Plain ∧
      (reader : Reader Float (Operand Float)).decode (foreign.text .compact).toList =
        .error .mismatch := by
  intro words plain operand foreign
  obtain ⟨hread, hwritten, -⟩ := decode_mirrors
  have hplaintext : Reader.json.decode (plain.text .compact).toList = .ok plain :=
    (hwritten plain .compact (by decide +kernel)).mpr (by decide)
  have hforeigntext : Reader.json.decode (foreign.text .compact).toList = .ok foreign :=
    (hwritten foreign .compact (by decide +kernel)).mpr (by decide)
  obtain ⟨hplain, -, hmirrors⟩ := hread _ plain hplaintext
  obtain ⟨-, hrefused, -⟩ := hread _ foreign hforeigntext
  have hoperand : reader.decode (plain.text .compact).toList = .ok operand :=
    (hmirrors operand).1.mpr (ofJson?_eq_some_iff.mp rfl)
  have hforeign : ¬ foreign.Plain := by
    intro h
    obtain ⟨o, ho⟩ := (exists_ofJson?_iff foreign).mpr h
    cases ho
  exact ⟨by decide +kernel, hplaintext, hplain.mp ⟨operand, hoperand⟩, hoperand, by decide,
    by decide +kernel, hforeigntext, hforeign, hrefused hforeign⟩

end Artwork
