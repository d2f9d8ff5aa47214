import Artwork.Proofs.Machine.Batch

/-!
# Tidy lists

A list can hold much that the machine passes over: words that are not understood, clips, entries
whose operands are of no use, operands that nothing reads, and items of a batch that are no path
words.  A tidy list holds none of it.

An entry means what its tidy form means, and one without a tidy form means nothing
(`meaning_tidy?`), so that no machine can tell a list from the tidy one (`runAll_tidied`).
-/

namespace Artwork

variable {α : Type}

namespace Operand

def isNumber : Operand α → Bool
  | number _ => true
  | _ => false

/-- Whether the operand is a list of numbers only. -/
def isNumbers : Operand α → Bool
  | array items => items.all isNumber
  | _ => false

/-- Whether the operand is a list of just six numbers. -/
def isMatrix : Operand α → Bool
  | array items => items.length == 6 && items.all isNumber
  | _ => false

def isPathWord : Operand α → Bool
  | operator (.verb (.path _)) => true
  | _ => false

/-- The first `n` operands alone, when there are so many and all of these are numbers. -/
def trimmed? (n : Nat) (operands : List (Operand α)) : Option (List (Operand α)) :=
  if n ≤ operands.length ∧ (operands.take n).all isNumber then some (operands.take n) else none

end Operand

/-- How many numbers a verb reads from the front of its operands. -/
def Verb.reads : Verb → Nat
  | lineWidth => 1
  | color _ space => space.arity
  | path v => v.arity
  | _ => 0

namespace Entry

/-- The entry with only those operands that are read; none when it has no effect. -/
def tidy? (e : Entry α) : Option (Entry α) :=
  match e.operator with
  | .other .. | .verb .clip | .verb .eoClip => none
  | .verb .transform =>
    if e.operands.length = 6 ∧ e.operands.all Operand.isNumber then some e else none
  | .verb .formBegin => some ⟨e.operator, e.operands.take 1⟩
  | .verb .constructPath =>
    match e.operands with
    | .array words :: coordinates :: _ =>
      if coordinates.isNumbers then
        some ⟨e.operator, [.array (words.filter Operand.isPathWord), coordinates]⟩
      else none
    | _ => none
  | .verb v => (Operand.trimmed? v.reads e.operands).map (⟨e.operator, ·⟩)

/-- Whether the entry enters a form without a matrix that can be used. -/
def entersPlainForm (e : Entry α) : Bool :=
  match e.operator with
  | .verb .formBegin => !e.operands.head?.any Operand.isMatrix
  | _ => false

end Entry

/-- All that has an effect, with only those operands that are read. -/
def tidied (entries : List (Entry α)) : List (Entry α) := entries.filterMap Entry.tidy?

/-! ## Reading numbers -/

namespace Operand

/-- Numbers and nothing else are the operands of some numbers. -/
theorem exists_numbers {operands : List (Operand α)} (h : operands.all isNumber = true) :
    ∃ xs : List α, operands = xs.map number := by
  induction operands with
  | nil => exact ⟨[], rfl⟩
  | cons o rest ih =>
    rw [List.all_cons, Bool.and_eq_true] at h
    obtain ⟨xs, rfl⟩ := ih h.2
    cases o with
    | number x => exact ⟨x :: xs, rfl⟩
    | operator => exact absurd h.1 Bool.false_ne_true
    | array => exact absurd h.1 Bool.false_ne_true
    | null => exact absurd h.1 Bool.false_ne_true

theorem mapM_number?_eq_none {operands : List (Operand α)} (h : operands.all isNumber = false) :
    operands.mapM number? = none := by
  induction operands with
  | nil => cases h
  | cons o rest ih =>
    rw [List.mapM_cons]
    cases o with
    | number x =>
      rw [ih h]
      rfl
    | _ => rfl

theorem numbers?_eq_none {o : Operand α} (h : o.isNumbers = false) : o.numbers? = none := by
  cases o with
  | array items => exact mapM_number?_eq_none h
  | _ => rfl

/-- What reads leading numbers reads the same when nothing else is left, and what has none to be
left cannot be read. -/
theorem leading?_trimmed? (n : Nat) (operands : List (Operand α)) :
    (trimmed? n operands).bind (leading? n) = leading? n operands := by
  unfold trimmed? leading?
  by_cases hlength : n ≤ operands.length
  · cases hall : (operands.take n).all isNumber with
    | true => simp [hlength, List.take_take]
    | false => simp [hlength, mapM_number?_eq_none hall]
  · simp [hlength]

/-- Other than six numbers make no matrix. -/
theorem matrix_eq_none {operands : List (Operand α)}
    (h : ¬ (operands.length = 6 ∧ operands.all isNumber = true)) :
    (operands.mapM number?).bind Matrix.ofList? = none := by
  cases hall : operands.all isNumber with
  | false => rw [mapM_number?_eq_none hall, Option.bind_none]
  | true =>
    obtain ⟨xs, rfl⟩ := exists_numbers hall
    rw [mapM_number?, Option.bind_some]
    have hlength : xs.length ≠ 6 := fun hsix => h ⟨by rw [List.length_map, hsix], hall⟩
    unfold Matrix.ofList?
    split
    · exact absurd rfl hlength
    · rfl

theorem matrix_eq_none_of_isMatrix {o : Operand α} (h : o.isMatrix = false) :
    o.numbers?.bind Matrix.ofList? = none := by
  cases o with
  | array items =>
    have hsix : ¬ (items.length = 6 ∧ items.all isNumber = true) := by
      intro ⟨hlength, hall⟩
      simp [isMatrix, hlength, hall] at h
    exact matrix_eq_none hsix
  | _ => rfl

theorem filterMap_filter_isPathWord (words : List (Operand α)) :
    (words.filter isPathWord).filterMap pathVerb? = words.filterMap pathVerb? := by
  have hword : ∀ word : Operand α, isPathWord word = false → pathVerb? word = none := by
    intro word h
    unfold pathVerb?
    split
    · cases h
    · rfl
  induction words with
  | nil => rfl
  | cons word rest ih =>
    cases hpath : isPathWord word with
    | true => rw [List.filter_cons_of_pos hpath, List.filterMap_cons, List.filterMap_cons, ih]
    | false =>
      rw [List.filter_cons_of_neg (by simp [hpath]), ih,
        List.filterMap_cons_none (hword word hpath)]

end Operand

theorem batchSteps_filter_isPathWord (words : List (Operand α)) (xs : List α) :
    batchSteps (words.filter Operand.isPathWord) xs = batchSteps words xs := by
  rw [batchSteps_eq, batchSteps_eq, Operand.filterMap_filter_isPathWord]

/-! ## Meanings of tidy entries -/

variable [Scalar α]

/-- The meaning of a line width; nothing when none was read. -/
def Meaning.ofWidth : Option (List α) → Meaning α
  | some [w] => .lineWidth w
  | _ => .idle

namespace Entry

/-- A verb that reads leading numbers only means the same on these alone. -/
theorem meaning_trimmed? (v : Verb) (read : Option (List α) → Meaning α)
    (hread : ∀ operands, Meaning.ofVerb operands v = read (Operand.leading? v.reads operands))
    (hidle : read none = .idle) (operands : List (Operand α)) :
    Meaning.ofOption (((Operand.trimmed? v.reads operands).map (⟨.verb v, ·⟩)).map meaning) =
      Meaning.ofVerb operands v := by
  rw [hread, ← Operand.leading?_trimmed?]
  cases Operand.trimmed? v.reads operands with
  | none => exact hidle.symm
  | some front => exact hread front

theorem meaning_tidy?_constructPath (operands : List (Operand α)) :
    Meaning.ofOption ((tidy? ⟨.verb .constructPath, operands⟩).map meaning) =
      meaning ⟨.verb .constructPath, operands⟩ := by
  simp only [tidy?]
  split
  · next words coordinates more =>
    cases hnumbers : coordinates.isNumbers with
    | true =>
      cases coordinates with
      | array items =>
        obtain ⟨xs, rfl⟩ := Operand.exists_numbers hnumbers
        show meaning ⟨.verb .constructPath, [.array _, .array (xs.map .number)]⟩ = _
        rw [meaning_constructPath, meaning_constructPath, batchSteps_filter_isPathWord]
      | _ => cases hnumbers
    | false =>
      simp only [meaning, Meaning.ofVerb, List.getElem?_cons_zero, List.getElem?_cons_succ,
        Option.bind_some, Operand.array?, Operand.numbers?_eq_none hnumbers]
      rfl
  · next hshape =>
    -- Either the words are missing or the coordinates are.
    cases operands with
    | nil => rfl
    | cons first rest =>
      cases first with
      | array words =>
        cases rest with
        | nil => rfl
        | cons coordinates more => exact absurd rfl (hshape words coordinates more)
      | _ => rfl

/-- An entry means what its tidy form means; without one it means nothing. -/
theorem meaning_tidy? (e : Entry α) : Meaning.ofOption (e.tidy?.map meaning) = e.meaning := by
  obtain ⟨operator, operands⟩ := e
  cases operator with
  | other => rfl
  | verb v =>
    cases v with
    | transform =>
      simp only [tidy?]
      split
      · rfl
      · next h =>
        simp only [meaning, Meaning.ofVerb, Operand.matrix_eq_none h]
        rfl
    | formBegin => cases operands <;> rfl
    | constructPath => exact meaning_tidy?_constructPath operands
    | lineWidth =>
      exact meaning_trimmed? .lineWidth Meaning.ofWidth (fun _ => rfl) rfl operands
    | color ink space =>
      exact meaning_trimmed? (.color ink space)
        (fun found => Meaning.ofOption ((found.bind space.color?).map (.color ink)))
        (fun _ => rfl) rfl operands
    | path v =>
      exact meaning_trimmed? (.path v)
        (fun found => Meaning.ofOption ((found.bind v.step?).map fun s => .construct [s]))
        (fun _ => rfl) rfl operands
    | _ => rfl

end Entry

/-! ## Running tidy lists -/

namespace Machine

variable {δ : Type} [PaintDevice α δ]

theorem runAll_tidied (m : Machine α δ) (entries : List (Entry α)) :
    m.runAll (tidied entries) = m.runAll entries := by
  induction entries generalizing m with
  | nil => rfl
  | cons e rest ih =>
    have hmeaning := e.meaning_tidy?
    show _ = (m.step e).runAll rest
    rw [step_eq_perform]
    cases htidy : e.tidy? with
    | none =>
      rw [htidy] at hmeaning
      rw [tidied, List.filterMap_cons_none htidy, ← hmeaning]
      exact ih m
    | some c =>
      rw [htidy] at hmeaning
      rw [tidied, List.filterMap_cons_some htidy, ← hmeaning]
      show (m.step c).runAll (tidied rest) = _
      rw [ih, step_eq_perform]
      rfl

/-- A form whose matrix is of no use is entered by saving the state. -/
theorem step_entersPlainForm (m : Machine α δ) {e : Entry α} (h : e.entersPlainForm = true) :
    m.step e = m.step (.bare (.verb .save)) := by
  obtain ⟨operator, operands⟩ := e
  unfold Entry.entersPlainForm at h
  split at h
  · next hoperator =>
    cases hoperator
    cases operands with
    | nil => rfl
    | cons head more =>
      show m.enterForm (head.numbers?.bind Matrix.ofList?) = m.save
      rw [Operand.matrix_eq_none_of_isMatrix (by simpa using h)]
      rfl
  · cases h

end Machine
end Artwork
