import Mathlib.Data.List.Basic
import Mathlib.Data.List.Induction
import Mathlib.Tactic.NormNum
import Mathlib.Tactic.Ring
import Artwork.Proofs.Machine.Nesting

/-!
# Matrices in force

The matrix of a transform or of a form stays in force until the scope that was innermost when it was
applied is closed.

Main statement: on exact coordinates the current matrix is the composition of the matrices in force,
and takes a point through the innermost one first (`start_run_ctm`).
-/

namespace Artwork

variable {α : Type}

/-- The matrix that the entry applies, if it applies one. -/
def Entry.matrix? (e : Entry α) : Option (Matrix α) :=
  match e.operator with
  | .verb .transform => (e.operands.mapM Operand.number?).bind Matrix.ofList?
  | .verb .formBegin => (e.operands.head?.bind Operand.numbers?).bind Matrix.ofList?
  | _ => none

/-- The number of scopes that are open behind the first `i` entries. -/
def depthAt (entries : List (Entry α)) (i : Nat) : Nat := depth 0 (entries.take i)

/-- No scope that was open behind entry `i` is closed later on.  Where none was open, a restore
closes none. -/
def InForce (entries : List (Entry α)) (i : Nat) : Prop :=
  ∀ j ≤ entries.length, i < j → depthAt entries (i + 1) ≤ depthAt entries j

instance (entries : List (Entry α)) (i : Nat) : Decidable (InForce entries i) :=
  inferInstanceAs (Decidable (∀ j ≤ entries.length, _))

/-- The matrices in force behind a list, in the order of the list. -/
def matricesInForce (entries : List (Entry α)) : List (Matrix α) :=
  (List.range entries.length).filterMap fun i =>
    if InForce entries i then entries[i]?.bind Entry.matrix? else none

/-- Those matrices in force that were applied with at most `c` scopes open. -/
def matricesUpTo (c : Nat) (entries : List (Entry α)) : List (Matrix α) :=
  (List.range entries.length).filterMap fun i =>
    if InForce entries i ∧ depthAt entries (i + 1) ≤ c then entries[i]?.bind Entry.matrix? else none

/-! ## One more entry -/

section Append

variable {entries : List (Entry α)} {e : Entry α} {i c : Nat}

theorem depth_append (d : Nat) (xs ys : List (Entry α)) :
    depth d (xs ++ ys) = depth (depth d xs) ys := List.foldl_append

theorem depth_append_one (d : Nat) (xs : List (Entry α)) (e : Entry α) :
    depth d (xs ++ [e]) = e.effect.depth (depth d xs) := depth_append d xs [e]

theorem depthAt_append (h : i ≤ entries.length) :
    depthAt (entries ++ [e]) i = depthAt entries i := by
  rw [depthAt, depthAt, List.take_append_of_le_length h]

theorem depthAt_length (entries : List (Entry α)) :
    depthAt entries entries.length = depth 0 entries := by
  rw [depthAt, List.take_length]

theorem depthAt_append_length :
    depthAt (entries ++ [e]) (entries.length + 1) = e.effect.depth (depth 0 entries) := by
  have hlength : (entries ++ [e]).length = entries.length + 1 := List.length_append
  rw [← hlength, depthAt_length, depth_append_one]

theorem inForce_append (h : i < entries.length) :
    InForce (entries ++ [e]) i ↔
      InForce entries i ∧ depthAt entries (i + 1) ≤ e.effect.depth (depth 0 entries) := by
  have hlength : (entries ++ [e]).length = entries.length + 1 := List.length_append
  unfold InForce
  rw [hlength, depthAt_append h, ← depthAt_append_length]
  constructor
  · intro hforce
    refine ⟨fun j hj hij => ?_, hforce _ (Nat.le_refl _) (Nat.lt_succ_of_lt h)⟩
    rw [← depthAt_append hj]
    exact hforce j (Nat.le_succ_of_le hj) hij
  · rintro ⟨hforce, hlast⟩ j hj hij
    rcases Nat.le_or_eq_of_le_succ hj with hj | rfl
    · rw [depthAt_append hj]
      exact hforce j hj hij
    · exact hlast

theorem inForce_append_length : InForce (entries ++ [e]) entries.length := by
  intro j hj hij
  rw [List.length_append, List.length_singleton] at hj
  rw [Nat.le_antisymm hj hij]

/-- An entry drops what was applied deeper than it leaves the depth, and its own matrix comes
last. -/
theorem matricesUpTo_append_of_le (h : e.effect.depth (depth 0 entries) ≤ c) :
    matricesUpTo c (entries ++ [e]) =
      matricesUpTo (e.effect.depth (depth 0 entries)) entries ++ e.matrix?.toList := by
  unfold matricesUpTo
  rw [List.length_append, List.length_singleton, List.range_succ, List.filterMap_append]
  congr 1
  · refine List.filterMap_congr fun i hi => ?_
    have hi : i < entries.length := List.mem_range.mp hi
    rw [List.getElem?_append_left hi]
    refine if_congr ?_ rfl rfl
    rw [inForce_append hi, depthAt_append hi]
    exact and_iff_left_of_imp fun hforce => Nat.le_trans hforce.2 h
  · have hlast : InForce (entries ++ [e]) entries.length ∧
        depthAt (entries ++ [e]) (entries.length + 1) ≤ c :=
      ⟨inForce_append_length, depthAt_append_length ▸ h⟩
    rw [List.filterMap_cons, if_pos hlast, List.getElem?_concat_length, Option.bind_some]
    cases e.matrix? <;> rfl

theorem matricesUpTo_append_of_lt (h : c < e.effect.depth (depth 0 entries)) :
    matricesUpTo c (entries ++ [e]) = matricesUpTo c entries := by
  unfold matricesUpTo
  rw [List.length_append, List.length_singleton, List.range_succ, List.filterMap_append]
  have hlast : ¬ (InForce (entries ++ [e]) entries.length ∧
      depthAt (entries ++ [e]) (entries.length + 1) ≤ c) := by
    rw [depthAt_append_length]
    exact fun hforce => Nat.not_le_of_lt h hforce.2
  rw [List.filterMap_cons, if_neg hlast, List.filterMap_nil, List.append_nil]
  refine List.filterMap_congr fun i hi => ?_
  have hi : i < entries.length := List.mem_range.mp hi
  rw [List.getElem?_append_left hi]
  refine if_congr ?_ rfl rfl
  rw [inForce_append hi, depthAt_append hi]
  exact ⟨fun ⟨hforce, hc⟩ => ⟨hforce.1, hc⟩,
    fun ⟨hforce, hc⟩ => ⟨⟨hforce, Nat.le_trans hc (Nat.le_of_lt h)⟩, hc⟩⟩

theorem matricesUpTo_of_le (h : depth 0 entries ≤ c) :
    matricesUpTo c entries = matricesInForce entries := by
  refine List.filterMap_congr fun i hi => if_congr ?_ rfl rfl
  have hi : i < entries.length := List.mem_range.mp hi
  refine ⟨And.left, fun hforce => ⟨hforce, ?_⟩⟩
  have hlast := hforce entries.length (Nat.le_refl _) hi
  rw [depthAt_length] at hlast
  exact Nat.le_trans hlast h

end Append

/-! ## The matrix of a state -/

/-- All states, the one in force first. -/
def Scope.states (g : Scope α) : List (GraphicsState α) := g.state :: g.saved

theorem Entry.matrix?_of_closes {e : Entry α} (h : e.effect = .closes) : e.matrix? = none := by
  obtain ⟨o, operands⟩ := e
  unfold effect at h
  split at h
  case h_3 ho | h_4 ho =>
    cases ho
    rfl
  all_goals cases h

/-- An entry puts its matrix in front of the one in force, and changes that one in no other way. -/
theorem Entry.change_ctm [Scalar α] (e : Entry α) (s : GraphicsState α) :
    (e.meaning.change s).ctm = e.matrix?.elim s.ctm (·.followedBy s.ctm) := by
  obtain ⟨o, operands⟩ := e
  cases o with
  | other name unlisted => rfl
  | verb v =>
    have hmeans := v.canMean_ofVerb operands
    cases v with
    | transform =>
      simp only [meaning, Meaning.ofVerb, matrix?]
      cases (operands.mapM Operand.number?).bind Matrix.ofList? <;> rfl
    | formBegin =>
      simp only [meaning, Meaning.ofVerb, matrix?]
      cases (operands.head?.bind Operand.numbers?).bind Matrix.ofList? <;> rfl
    | color ink space =>
      simp only [meaning]
      generalize Meaning.ofVerb operands (.color ink space) = a at hmeans
      cases hmeans with
      | color ink space c => cases ink <;> rfl
      | colorIdle => rfl
    | _ =>
      simp only [meaning]
      generalize Meaning.ofVerb operands _ = a at hmeans
      cases hmeans <;> rfl

/-! ## Exact coordinates -/

namespace Matrix

theorem apply_identity (p : Point Rat) : identity.apply p = p := by
  have hone : (1.0 : Rat) = 1 := by norm_num
  have hzero : (0.0 : Rat) = 0 := by norm_num
  show Point.mk ((1.0 : Rat) * p.x + (0.0 : Rat) * p.y + (0.0 : Rat))
    ((0.0 : Rat) * p.x + (1.0 : Rat) * p.y + (0.0 : Rat)) = p
  rw [hone, hzero]
  simp

/-- One matrix followed by another maps as its name says. -/
theorem apply_followedBy (m outer : Matrix Rat) (p : Point Rat) :
    (m.followedBy outer).apply p = outer.apply (m.apply p) := by
  unfold apply followedBy
  congr 1 <;> ring

end Matrix

theorem millimetres_exact (x : Rat) : millimetres x = x * 25.4 / 72 := by
  have hscale : (25.4 / 72.0 : Rat) = 25.4 / 72 := by norm_num
  show x * (25.4 / 72.0 : Rat) = _
  rw [hscale, mul_div_assoc]

/-- The state takes every point through some matrices, the last of them first. -/
def GraphicsState.Composes (s : GraphicsState Rat) (ms : List (Matrix Rat)) : Prop :=
  ∀ p, s.ctm.apply p = ms.foldr Matrix.apply p

theorem GraphicsState.Composes.change {s : GraphicsState Rat} {ms : List (Matrix Rat)}
    (h : s.Composes ms) (e : Entry Rat) : (e.meaning.change s).Composes (ms ++ e.matrix?.toList) := by
  intro p
  rw [Entry.change_ctm]
  cases e.matrix? with
  | none => simpa using h p
  | some t =>
    show (t.followedBy s.ctm).apply p = _
    rw [Matrix.apply_followedBy, h, List.foldr_append]
    rfl

/-- The invariant of a run: the state in force composes all the matrices in force, and each saved
state those that were in force when it was saved. -/
structure Scope.Tracks (g : Scope Rat) (entries : List (Entry Rat)) : Prop where
  length_saved : g.saved.length = depth 0 entries
  composes : ∀ {j : Nat} {s : GraphicsState Rat}, g.states[j]? = some s →
    s.Composes (matricesUpTo (depth 0 entries - j) entries)

namespace Scope.Tracks

variable {g : Scope Rat} {xs : List (Entry Rat)} {e : Entry Rat}

/-- What `e` makes of the state in force composes the matrix of `e` with all in force before it. -/
theorem change (h : g.Tracks xs) (e : Entry Rat) {c : Nat} (hc : depth 0 xs ≤ c) :
    (e.meaning.change g.state).Composes (matricesUpTo c xs ++ e.matrix?.toList) := by
  have hbefore : g.state.Composes (matricesUpTo (depth 0 xs - 0) xs) := h.composes rfl
  rw [Nat.sub_zero, matricesUpTo_of_le (Nat.le_refl _)] at hbefore
  rw [matricesUpTo_of_le hc]
  exact hbefore.change e

theorem opens (h : g.Tracks xs) (he : e.effect = .opens) :
    Tracks ⟨e.meaning.change g.state, g.state :: g.saved⟩ (xs ++ [e]) := by
  have hd : e.effect.depth (depth 0 xs) = depth 0 xs + 1 := by rw [he]; rfl
  refine ⟨by rw [depth_append_one, hd, ← h.length_saved]; rfl, fun {j s} hs => ?_⟩
  rw [depth_append_one]
  cases j with
  | zero =>
    rw [matricesUpTo_append_of_le (by omega), ← Option.some.inj hs]
    exact h.change e (by omega)
  | succ j =>
    rw [matricesUpTo_append_of_lt (by omega), hd, Nat.add_sub_add_right]
    exact h.composes hs

theorem keeps (h : g.Tracks xs) (he : e.effect = .keeps) :
    Tracks ⟨e.meaning.change g.state, g.saved⟩ (xs ++ [e]) := by
  have hd : e.effect.depth (depth 0 xs) = depth 0 xs := by rw [he]; rfl
  refine ⟨by rw [depth_append_one, hd, ← h.length_saved], fun {j s} hs => ?_⟩
  rw [depth_append_one]
  cases j with
  | zero =>
    rw [matricesUpTo_append_of_le (by omega), ← Option.some.inj hs]
    exact h.change e (by omega)
  | succ j =>
    have hj : j + 1 < g.saved.length + 1 := (List.getElem?_eq_some_iff.mp hs).1
    have hlength := h.length_saved
    rw [matricesUpTo_append_of_lt (by omega), hd]
    exact h.composes (j := j + 1) hs

theorem closes {t s : GraphicsState Rat} {saved : List (GraphicsState Rat)}
    (h : Tracks ⟨t, s :: saved⟩ xs) (he : e.effect = .closes) :
    Tracks ⟨s, saved⟩ (xs ++ [e]) := by
  have hlength : saved.length + 1 = depth 0 xs := h.length_saved
  have hd : e.effect.depth (depth 0 xs) = depth 0 xs - 1 := by rw [he]; rfl
  refine ⟨by rw [depth_append_one, hd, ← hlength]; rfl, fun {j u} hu => ?_⟩
  have hbefore : u.Composes (matricesUpTo (depth 0 xs - (j + 1)) xs) := h.composes hu
  rw [depth_append_one]
  cases j with
  | zero =>
    -- What is dropped was applied above the state that comes back.
    rw [matricesUpTo_append_of_le (by omega), Entry.matrix?_of_closes he, Option.toList_none,
      List.append_nil, hd]
    exact hbefore
  | succ j =>
    have hj : j + 1 < saved.length + 1 := (List.getElem?_eq_some_iff.mp hu).1
    rw [matricesUpTo_append_of_lt (by omega), hd, Nat.sub_sub, Nat.add_comm 1]
    exact hbefore

/-- Nothing is open, so that nothing is dropped. -/
theorem closes_nil {t : GraphicsState Rat} (h : Tracks ⟨t, []⟩ xs) (he : e.effect = .closes) :
    Tracks ⟨t, []⟩ (xs ++ [e]) := by
  have hzero : depth 0 xs = 0 := h.length_saved.symm
  have hd : e.effect.depth (depth 0 xs) = 0 := by rw [he, hzero]; rfl
  refine ⟨by rw [depth_append_one, hd]; rfl, fun {j s} hs => ?_⟩
  have hbefore := h.composes hs
  rw [hzero, Nat.zero_sub] at hbefore
  rw [depth_append_one, matricesUpTo_append_of_le (by omega), Entry.matrix?_of_closes he,
    Option.toList_none, List.append_nil, hd]
  exact hbefore

theorem step (h : g.Tracks xs) (e : Entry Rat) : (g.step e).Tracks (xs ++ [e]) := by
  cases he : e.effect with
  | opens =>
    rw [step_of_opens he]
    exact h.opens he
  | closes =>
    obtain ⟨t, saved⟩ := g
    cases saved with
    | nil =>
      rw [step_of_closes_nil he]
      exact h.closes_nil he
    | cons s saved =>
      rw [step_of_closes he]
      exact h.closes he
  | keeps =>
    rw [step_of_keeps he]
    exact h.keeps he

theorem run (entries : List (Entry Rat)) : (Scope.start.run entries).Tracks entries := by
  -- From the end, since the matrices in force depend on all entries before the last one.
  induction entries using List.reverseRecOn with
  | nil =>
    refine ⟨rfl, fun {j s} hs => ?_⟩
    cases j with
    | zero => exact Option.some.inj hs ▸ Matrix.apply_identity
    | succ j => cases hs
  | append_singleton xs e ih =>
    have hrun : Scope.start.run (xs ++ [e]) = (Scope.start.run xs).step e := List.foldl_append
    rw [hrun]
    exact ih.step e

end Scope.Tracks

/-- A point goes through the matrices in force, the last one first, and from there to the canvas. -/
theorem start_run_ctm {δ : Type} [PaintDevice Rat δ] (height : Rat) (device : δ)
    (entries : List (Entry Rat)) :
    ∃ m, (Machine.start height device).run (fun _ => false) entries = (m, .finished) ∧
      ∀ p, m.state.ctm.apply p = (matricesInForce entries).foldr Matrix.apply p ∧
        let q := (matricesInForce entries).foldr Matrix.apply p
        m.place p = ⟨q.x * 25.4 / 72, height - q.y * 25.4 / 72⟩ := by
  have hscope : ((Machine.start height device).runAll entries).scope = Scope.start.run entries :=
    Machine.scope_runAll _ entries
  have hctm : ∀ p, ((Machine.start height device).runAll entries).state.ctm.apply p =
      (matricesInForce entries).foldr Matrix.apply p := by
    intro p
    have h : (Scope.start.run entries).state.Composes
      (matricesUpTo (depth 0 entries - 0) entries) := (Scope.Tracks.run entries).composes rfl
    rw [Nat.sub_zero, matricesUpTo_of_le (Nat.le_refl _), ← hscope] at h
    exact h p
  refine ⟨_, Machine.run_never _ entries, fun p => ⟨hctm p, ?_⟩⟩
  have hheight := Machine.height_runAll (Machine.start height device) entries
  unfold Machine.place
  rw [hctm, hheight, Point.onCanvas, millimetres_exact, millimetres_exact]
  rfl

/-- The scaling goes with its scope, the restore behind closes none, and the form is still open. -/
example : matricesInForce (α := Rat)
    [.bare (.verb .save), .numbers (.verb .transform) [2, 0, 0, 2, 0, 0], .bare (.verb .formEnd),
      .numbers (.verb .transform) [1, 0, 0, 1, 5, 0], .bare (.verb .restore),
      ⟨.verb .formBegin, [.array ([0, 1, -1, 0, 0, 0].map .number)]⟩,
      .numbers (.verb .transform) [1, 0, 0]] =
    [⟨1, 0, 0, 1, 5, 0⟩, ⟨0, 1, -1, 0, 0, 0⟩] := by decide

end Artwork
