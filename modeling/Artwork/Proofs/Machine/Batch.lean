import Artwork.Proofs.Machine.Meaning

/-!
# Batches of path words

A batch holds many path words and one list of coordinates.  Each word takes from the front what it
needs of the coordinates that are left, and the first word that finds too few ends the batch.

Main statement: a batch and the entries of its single words are interchangeable in every list
(`run_batch_eq_run_singles`), whichever of the two is given.
-/

namespace Artwork

variable {α : Type}

/-- A path word with just the coordinates that it takes. -/
structure PathWord (α : Type) where
  verb : PathVerb
  coordinates : List α
  length_coordinates : coordinates.length = verb.arity

namespace PathWord

/-- The word as an entry of its own. -/
def entry (w : PathWord α) : Entry α := .numbers (.verb (.path w.verb)) w.coordinates

/-- Some words as one entry. -/
def batch (ws : List (PathWord α)) : Entry α :=
  .batch (ws.map fun w => .verb (.path w.verb)) (ws.flatMap coordinates)

/-- Hands coordinates out to verbs, until too few are left for the next one. -/
def deal : List PathVerb → List α → List (PathWord α)
  | [], _ => []
  | v :: rest, xs =>
    if h : v.arity ≤ xs.length then
      ⟨v, xs.take v.arity, List.length_take_of_le h⟩ :: deal rest (xs.drop v.arity)
    else []

def step? (w : PathWord α) : Option (PathStep α) := w.verb.step? w.coordinates

end PathWord

/-! ## Reading numbers back -/

namespace Operand

theorem mapM_number? (xs : List α) : (xs.map number).mapM number? = some xs := by
  induction xs with
  | nil => rfl
  | cons x rest ih => simp [ih, number?]

theorem numbers?_array (xs : List α) : (array (xs.map number)).numbers? = some xs :=
  mapM_number? xs

theorem leading?_numbers (xs : List α) : leading? xs.length (xs.map number) = some xs := by
  have hlength : (xs.map (number (α := α))).length = xs.length := List.length_map number
  rw [leading?, if_pos (Nat.le_of_eq hlength.symm), List.take_of_length_le (Nat.le_of_eq hlength),
    mapM_number?]

end Operand

/-! ## Words and steps -/

namespace PathVerb

theorem exists_step? {v : PathVerb} {xs : List α} (h : xs.length = v.arity) :
    ∃ s, v.step? xs = some s := by
  match v, xs, h with
  | moveTo, [_, _], _ | lineTo, [_, _], _ => exact ⟨_, rfl⟩
  | curveTo, [_, _, _, _, _, _], _ => exact ⟨_, rfl⟩
  | curveFromCurrent, [_, _, _, _], _ | curveToEnd, [_, _, _, _], _ => exact ⟨_, rfl⟩
  | rectangle, [_, _, _, _], _ => exact ⟨_, rfl⟩
  | closePath, [], _ => exact ⟨_, rfl⟩

theorem length_of_step? {v : PathVerb} {xs : List α} {s : PathStep α} (h : v.step? xs = some s) :
    xs.length = v.arity := by
  unfold step? at h
  split at h
  case h_8 => cases h
  all_goals rfl

end PathVerb

theorem PathWord.exists_step? (w : PathWord α) : ∃ s, w.step? = some s :=
  PathVerb.exists_step? w.length_coordinates

/-- The steps of a batch are those of the words that are dealt coordinates. -/
theorem batchSteps_eq (words : List (Operand α)) (xs : List α) :
    batchSteps words xs =
      (PathWord.deal (words.filterMap Operand.pathVerb?) xs).filterMap PathWord.step? := by
  induction words generalizing xs with
  | nil => rfl
  | cons word words ih =>
    cases hword : word.pathVerb? with
    | none => simp only [batchSteps, hword, ih, List.filterMap_cons]
    | some v =>
      simp only [batchSteps, hword, List.filterMap_cons, PathWord.deal]
      by_cases h : v.arity ≤ xs.length
      · obtain ⟨s, hs⟩ := PathVerb.exists_step? (List.length_take_of_le h)
        simp [h, hs, PathWord.step?, ih]
      · have hs : v.step? (xs.take v.arity) = none := by
          rw [Option.eq_none_iff_forall_ne_some]
          intro s hs
          have hlength := PathVerb.length_of_step? hs
          rw [List.length_take] at hlength
          omega
        simp [h, hs]

/-- Dealing out what some words have together gives the words again. -/
theorem deal_flatMap_coordinates (ws : List (PathWord α)) :
    PathWord.deal (ws.map PathWord.verb) (ws.flatMap PathWord.coordinates) = ws := by
  induction ws with
  | nil => rfl
  | cons w rest ih =>
    obtain ⟨v, xs, hxs⟩ := w
    simp [PathWord.deal, ← hxs, ih]

theorem filterMap_pathVerb? (ws : List (PathWord α)) :
    ((ws.map fun w => Operator.verb (.path w.verb)).map Operand.operator).filterMap
      (Operand.pathVerb? (α := α)) = ws.map PathWord.verb := by
  rw [List.map_map, List.filterMap_map]
  exact congrFun List.filterMap_eq_map ws

/-! ## Meanings -/

variable [Scalar α]

namespace Entry

/-- Whether the entry adds steps to the path, and does nothing else. -/
def Constructs (e : Entry α) : Prop := ∃ steps, e.meaning = .construct steps

theorem meaning_constructPath (words : List (Operand α)) (xs : List α) (more : List (Operand α)) :
    meaning ⟨.verb .constructPath, .array words :: .array (xs.map .number) :: more⟩ =
      .construct (batchSteps words xs) := by
  simp only [meaning, Meaning.ofVerb, List.getElem?_cons_zero, List.getElem?_cons_succ,
    Option.bind_some, Operand.array?, Operand.numbers?_array]

end Entry

namespace PathWord

theorem meaning_entry {w : PathWord α} {s : PathStep α} (h : w.step? = some s) :
    w.entry.meaning = .construct [s] := by
  have hread : Operand.leading? w.verb.arity (w.coordinates.map .number) = some w.coordinates :=
    w.length_coordinates ▸ Operand.leading?_numbers w.coordinates
  have hstep : w.verb.step? w.coordinates = some s := h
  simp only [entry, Entry.numbers, Entry.meaning, Meaning.ofVerb, hread, Option.bind_some, hstep,
    Option.map_some, Meaning.ofOption, Option.getD_some]

theorem constructs_entry (w : PathWord α) : w.entry.Constructs :=
  let ⟨_, hs⟩ := w.exists_step?
  ⟨_, meaning_entry hs⟩

theorem meaning_batch (ws : List (PathWord α)) :
    (batch ws).meaning = .construct (ws.filterMap step?) := by
  have h := Entry.meaning_constructPath
    ((ws.map fun w => Operator.verb (.path w.verb)).map .operator) (ws.flatMap coordinates) []
  rw [batchSteps_eq, filterMap_pathVerb?, deal_flatMap_coordinates] at h
  exact h

end PathWord

/-! ## Running -/

namespace Machine

variable {δ : Type} [PaintDevice α δ] {stop : δ → Bool} {m : Machine α δ}

theorem step_constructs {e : Entry α} {steps : List (PathStep α)}
    (h : e.meaning = .construct steps) : m.step e = steps.foldl addStep m := by
  rw [step_eq_perform, h]
  rfl

theorem runAll_entries (m : Machine α δ) (ws : List (PathWord α)) :
    m.runAll (ws.map PathWord.entry) = (ws.filterMap PathWord.step?).foldl addStep m := by
  induction ws generalizing m with
  | nil => rfl
  | cons w rest ih =>
    obtain ⟨s, hs⟩ := w.exists_step?
    rw [List.filterMap_cons_some hs, List.foldl_cons, ← ih]
    show (m.step w.entry).runAll (rest.map PathWord.entry) = _
    rw [step_constructs (PathWord.meaning_entry hs)]
    rfl

theorem run_of_stop (h : stop m.device = true) (entries : List (Entry α)) :
    (m.run stop entries).1 = m := by
  cases entries with
  | nil => rfl
  | cons e rest => rw [run, if_pos h]

/-- The device sees nothing of construction, so that it cannot ask for a stop in between. -/
theorem run_constructs_append {entries : List (Entry α)} (hentries : ∀ e ∈ entries, e.Constructs)
    (h : stop m.device = false) (rest : List (Entry α)) :
    m.run stop (entries ++ rest) = (m.runAll entries).run stop rest := by
  induction entries generalizing m with
  | nil => rfl
  | cons e entries ih =>
    obtain ⟨steps, hsteps⟩ := hentries e List.mem_cons_self
    have hdevice : (m.step e).device = m.device := by
      rw [step_constructs hsteps, device_addSteps]
    rw [List.cons_append, run, if_neg (by simp [h])]
    exact ih (fun e he => hentries e (List.mem_cons_of_mem _ he)) (hdevice ▸ h)

/-- Entries that construct can be exchanged for others that construct the same. -/
theorem run_exchange {xs ys : List (Entry α)} (hxs : ∀ e ∈ xs, e.Constructs)
    (hys : ∀ e ∈ ys, e.Constructs) (h : ∀ m : Machine α δ, m.runAll xs = m.runAll ys)
    (m : Machine α δ) (before after : List (Entry α)) :
    (m.run stop (before ++ (xs ++ after))).1 = (m.run stop (before ++ (ys ++ after))).1 := by
  induction before generalizing m with
  | nil =>
    rw [List.nil_append, List.nil_append]
    -- A stop that was asked for before comes before either list.
    cases hstop : stop m.device with
    | true => rw [run_of_stop hstop, run_of_stop hstop]
    | false => rw [run_constructs_append hxs hstop, run_constructs_append hys hstop, h]
  | cons e rest ih =>
    rw [List.cons_append, List.cons_append, run, run]
    split
    · rfl
    · exact ih (m.step e)

/-- A batch leaves the machine as its words do one by one, wherever it stands in a list; and so can
single words that follow one another be put into one batch. -/
theorem run_batch_eq_run_singles (stop : δ → Bool) (m : Machine α δ)
    (before after : List (Entry α)) :
    (∀ (words : List (Operand α)) (coordinates : List α) (more : List (Operand α)),
      (m.run stop (before ++ (⟨.verb .constructPath,
          .array words :: .array (coordinates.map .number) :: more⟩ :: after))).1 =
        (m.run stop (before ++ ((PathWord.deal (words.filterMap Operand.pathVerb?)
          coordinates).map PathWord.entry ++ after))).1) ∧
      ∀ ws : List (PathWord α),
        (m.run stop (before ++ (PathWord.batch ws :: after))).1 =
          (m.run stop (before ++ (ws.map PathWord.entry ++ after))).1 := by
  have exchange : ∀ {e : Entry α} {ws : List (PathWord α)},
      e.meaning = .construct (ws.filterMap PathWord.step?) →
      (m.run stop (before ++ (e :: after))).1 =
        (m.run stop (before ++ (ws.map PathWord.entry ++ after))).1 := by
    intro e ws he
    show (m.run stop (before ++ ([e] ++ after))).1 = _
    refine run_exchange ?_ ?_ ?_ m before after
    · intro c hc
      exact ⟨_, List.mem_singleton.mp hc ▸ he⟩
    · intro c hc
      obtain ⟨w, -, rfl⟩ := List.mem_map.mp hc
      exact w.constructs_entry
    · intro n
      rw [runAll_entries]
      exact step_constructs he
  refine ⟨fun words coordinates more => exchange ?_, fun ws => exchange (PathWord.meaning_batch ws)⟩
  rw [Entry.meaning_constructPath, batchSteps_eq]

end Machine
end Artwork
