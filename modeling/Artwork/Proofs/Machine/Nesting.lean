import Mathlib.Data.List.Infix
import Artwork.Proofs.Machine.Meaning
import Artwork.Scalar.Binary
import Artwork.Shape

/-!
# Nested scopes

A save or the beginning of a form opens a scope of the graphics state; a restore or the end of a
form closes the innermost one, whichever of the two has opened it.

While a list closes no more scopes than it opens, the states that were saved before it are out of
its reach (`run_nested`): it works on the states above them, and the lowest of these goes through
the entries outside every scope, as if the others were not there.
-/

namespace Artwork

variable {α : Type}

/-! ## Openers and closers -/

/-- What an entry does to the scopes that are open. -/
inductive ScopeEffect
  | opens
  | closes
  | keeps
deriving DecidableEq

/-- The number of open scopes behind an entry, of `d` before it. -/
def ScopeEffect.depth : ScopeEffect → Nat → Nat
  | opens, d => d + 1
  | closes, d => d - 1
  | keeps, d => d

namespace Entry

def effect (e : Entry α) : ScopeEffect :=
  match e.operator with
  | .verb .save | .verb .formBegin => .opens
  | .verb .restore | .verb .formEnd => .closes
  | _ => .keeps

/-- Whether the entry is of a kind that changes the graphics state in force. -/
def setsState (e : Entry α) : Bool :=
  match e.operator with
  | .verb .transform | .verb .lineWidth | .verb (.color ..) => true
  | _ => false

end Entry

/-- The number of open scopes behind some entries, of `d` before them. -/
def depth (d : Nat) (entries : List (Entry α)) : Nat :=
  entries.foldl (fun d e => e.effect.depth d) d

def openers (entries : List (Entry α)) : Nat := entries.countP (·.effect = .opens)

def closers (entries : List (Entry α)) : Nat := entries.countP (·.effect = .closes)

/-- With `d` scopes open before it, the list closes none but these and its own. -/
def NestedIn (d : Nat) (entries : List (Entry α)) : Prop :=
  ∀ front, front <+: entries → closers front ≤ d + openers front

/-- No beginning of the list closes more scopes than it opens. -/
def Nested (entries : List (Entry α)) : Prop :=
  ∀ front, front <+: entries → closers front ≤ openers front

/-- All that the list opens is closed, and nothing else. -/
structure Balanced (entries : List (Entry α)) : Prop where
  nested : Nested entries
  closers_eq : closers entries = openers entries

instance (entries : List (Entry α)) : Decidable (Nested entries) :=
  decidable_of_iff (∀ front ∈ entries.inits, closers front ≤ openers front) <| by
    simp only [Nested, List.mem_inits]

instance (entries : List (Entry α)) : Decidable (Balanced entries) :=
  decidable_of_iff (Nested entries ∧ closers entries = openers entries)
    ⟨fun h => ⟨h.1, h.2⟩, fun h => ⟨h.1, h.2⟩⟩

/-- The entries outside the scopes that the list opens, when `d` of these are open already. -/
def outside : Nat → List (Entry α) → List (Entry α)
  | _, [] => []
  | d, e :: rest =>
    if d = 0 ∧ e.effect ≠ .opens then e :: outside (e.effect.depth d) rest
    else outside (e.effect.depth d) rest

section Counting

variable {e : Entry α} {rest : List (Entry α)} {d : Nat}

theorem openers_cons (e : Entry α) (rest : List (Entry α)) :
    openers (e :: rest) = openers rest + if e.effect = .opens then 1 else 0 := by
  simp only [openers, List.countP_cons, decide_eq_true_eq]

theorem closers_cons (e : Entry α) (rest : List (Entry α)) :
    closers (e :: rest) = closers rest + if e.effect = .closes then 1 else 0 := by
  simp only [closers, List.countP_cons, decide_eq_true_eq]

theorem Nested.nestedIn {entries : List (Entry α)} (h : Nested entries) : NestedIn 0 entries := by
  intro front hfront
  rw [Nat.zero_add]
  exact h front hfront

namespace NestedIn

theorem pos (h : NestedIn d (e :: rest)) (he : e.effect = .closes) : 0 < d := by
  have hcount := h [e] (List.cons_prefix_cons.mpr ⟨rfl, List.nil_prefix⟩)
  rw [openers_cons, closers_cons] at hcount
  simp only [he, reduceCtorEq, if_true, if_false] at hcount
  exact hcount

theorem tail (h : NestedIn d (e :: rest)) : NestedIn (e.effect.depth d) rest := by
  intro front hfront
  have hcount := h (e :: front) (List.cons_prefix_cons.mpr ⟨rfl, hfront⟩)
  rw [openers_cons, closers_cons] at hcount
  cases he : e.effect with
  | opens =>
    simp only [he, reduceCtorEq, if_true, if_false, ScopeEffect.depth] at hcount ⊢
    omega
  | closes =>
    simp only [he, reduceCtorEq, if_true, if_false, ScopeEffect.depth] at hcount ⊢
    omega
  | keeps =>
    simp only [he, reduceCtorEq, if_false, ScopeEffect.depth] at hcount ⊢
    omega

/-- The depth behind a nested list is what is open less what is closed. -/
theorem depth_add_closers {entries : List (Entry α)} (h : NestedIn d entries) :
    depth d entries + closers entries = d + openers entries := by
  induction entries generalizing d with
  | nil => rfl
  | cons e rest ih =>
    have hrest := ih h.tail
    have hdepth : depth d (e :: rest) = depth (e.effect.depth d) rest := rfl
    rw [openers_cons, closers_cons, hdepth]
    cases he : e.effect with
    | opens =>
      simp only [he, reduceCtorEq, if_true, if_false, ScopeEffect.depth] at hrest ⊢
      omega
    | closes =>
      have hpos := h.pos he
      simp only [he, reduceCtorEq, if_true, if_false, ScopeEffect.depth] at hrest ⊢
      omega
    | keeps =>
      simp only [he, reduceCtorEq, if_false, ScopeEffect.depth] at hrest ⊢
      omega

theorem effect_of_mem_outside {entries : List (Entry α)} (h : NestedIn d entries)
    (he : e ∈ outside d entries) : e.effect = .keeps := by
  induction entries generalizing d with
  | nil => cases he
  | cons c rest ih =>
    rw [outside] at he
    split at he
    · next hc =>
      obtain ⟨rfl, hopens⟩ := hc
      rcases List.mem_cons.mp he with rfl | he
      · cases hce : e.effect with
        | opens => exact absurd hce hopens
        | closes => exact absurd (h.pos hce) (Nat.lt_irrefl 0)
        | keeps => rfl
      · exact ih h.tail he
    · exact ih h.tail he

end NestedIn

theorem Balanced.depth_eq {entries : List (Entry α)} (h : Balanced entries) :
    depth 0 entries = 0 := by
  have hdepth := h.nested.nestedIn.depth_add_closers
  have hcount := h.closers_eq
  omega

end Counting

/-! ## What an entry does to the states -/

variable [Scalar α]

/-- What an entry of this meaning makes of the state in force; a restore is not thought of. -/
def Meaning.change : Meaning α → GraphicsState α → GraphicsState α
  | .transform t, s | .enterForm (some t), s => s.transform t
  | .lineWidth w, s => { s with lineWidth := w }
  | .color ink c, s => s.setColor ink c
  | _, s => s

theorem Entry.change_of_not_setsState {e : Entry α} (hset : e.setsState = false)
    (he : e.effect = .keeps) (s : GraphicsState α) : e.meaning.change s = s := by
  obtain ⟨o, operands⟩ := e
  cases o with
  | other name unlisted => rfl
  | verb v =>
    have hmeans := v.canMean_ofVerb operands
    simp only [meaning]
    generalize Meaning.ofVerb operands v = a at hmeans
    cases hmeans with
    | transform | lineWidth | color => cases hset
    | formBegin => cases he
    | _ => rfl

namespace Scope

/-- All that an entry can do to the states: it works on the one in force, and may push the old one,
or return to the one pushed last. -/
theorem step_eq (g : Scope α) (e : Entry α) :
    g.step e =
      match e.effect with
      | .opens => ⟨e.meaning.change g.state, g.state :: g.saved⟩
      | .closes => g.perform .restore
      | .keeps => ⟨e.meaning.change g.state, g.saved⟩ := by
  obtain ⟨o, operands⟩ := e
  cases o with
  | other name unlisted => rfl
  | verb v =>
    have hmeans := v.canMean_ofVerb operands
    simp only [step, Entry.meaning]
    generalize Meaning.ofVerb operands v = a at hmeans
    cases hmeans <;> rfl

section Steps

variable {e : Entry α}

theorem step_of_opens (h : e.effect = .opens) (g : Scope α) :
    g.step e = ⟨e.meaning.change g.state, g.state :: g.saved⟩ := by
  rw [step_eq, h]

theorem step_of_closes (h : e.effect = .closes) (s t : GraphicsState α)
    (rest : List (GraphicsState α)) : step ⟨s, t :: rest⟩ e = ⟨t, rest⟩ := by
  rw [step_eq, h]
  rfl

theorem step_of_closes_nil (h : e.effect = .closes) (s : GraphicsState α) :
    step ⟨s, []⟩ e = ⟨s, []⟩ := by
  rw [step_eq, h]
  rfl

theorem step_of_keeps (h : e.effect = .keeps) (g : Scope α) :
    g.step e = ⟨e.meaning.change g.state, g.saved⟩ := by
  rw [step_eq, h]

end Steps

/-! ## Runs -/

/-- The state that some entries make of another, the scopes not thought of. -/
def changes (s : GraphicsState α) (entries : List (Entry α)) : GraphicsState α :=
  entries.foldl (fun s e => e.meaning.change s) s

theorem run_of_keeps {entries : List (Entry α)} (h : ∀ e ∈ entries, e.effect = .keeps)
    (g : Scope α) : g.run entries = ⟨changes g.state entries, g.saved⟩ := by
  induction entries generalizing g with
  | nil => rfl
  | cons e rest ih =>
    show (g.step e).run rest = _
    rw [ih fun c hc => h c (List.mem_cons_of_mem e hc), step_of_keeps (h e List.mem_cons_self)]
    rfl

theorem changes_of_not_setsState {entries : List (Entry α)}
    (hkeeps : ∀ e ∈ entries, e.effect = .keeps) (hset : ∀ e ∈ entries, e.setsState = false)
    (s : GraphicsState α) : changes s entries = s := by
  induction entries with
  | nil => rfl
  | cons e rest ih =>
    have hchange : e.meaning.change s = s :=
      Entry.change_of_not_setsState (hset e List.mem_cons_self) (hkeeps e List.mem_cons_self) s
    show changes (e.meaning.change s) rest = s
    rw [hchange]
    exact ih (fun c hc => hkeeps c (List.mem_cons_of_mem e hc))
      fun c hc => hset c (List.mem_cons_of_mem e hc)

theorem length_saved_run (g : Scope α) (entries : List (Entry α)) :
    (g.run entries).saved.length = depth g.saved.length entries := by
  induction entries generalizing g with
  | nil => rfl
  | cons e rest ih =>
    have hstep : (g.step e).saved.length = e.effect.depth g.saved.length := by
      cases he : e.effect with
      | opens => rw [step_of_opens he]; rfl
      | closes =>
        obtain ⟨s, saved⟩ := g
        cases saved with
        | nil => rw [step_of_closes_nil he]; rfl
        | cons t saved => rw [step_of_closes he]; rfl
      | keeps => rw [step_of_keeps he]; rfl
    show ((g.step e).run rest).saved.length = depth (e.effect.depth g.saved.length) rest
    rw [ih, hstep]

/-- A nested list leaves the states `base` alone.  Of the states above them, the lowest one goes
through the entries outside. -/
theorem run_nested {entries : List (Entry α)} (s : GraphicsState α)
    (upper base : List (GraphicsState α)) (h : NestedIn upper.length entries) :
    ∃ s' upper', run ⟨s, upper ++ base⟩ entries = ⟨s', upper' ++ base⟩ ∧
      upper'.length = depth upper.length entries ∧
      upper'.getLastD s' = changes (upper.getLastD s) (outside upper.length entries) := by
  -- The lowest state above `base` is the one in force while `upper` is empty, and only then does an
  -- entry outside work on it.
  induction entries generalizing s upper with
  | nil => exact ⟨s, upper, rfl, rfl, rfl⟩
  | cons e rest ih =>
    have hpos := h.pos
    have hrest := h.tail
    have hrun : run ⟨s, upper ++ base⟩ (e :: rest) = (step ⟨s, upper ++ base⟩ e).run rest := rfl
    have hdepth : depth upper.length (e :: rest) = depth (e.effect.depth upper.length) rest := rfl
    rw [hrun, hdepth, outside]
    cases he : e.effect with
    | opens =>
      rw [he] at hrest
      obtain ⟨s', upper', hs, hlength, hlast⟩ := ih (e.meaning.change s) (s :: upper) hrest
      refine ⟨s', upper', ?_, hlength, ?_⟩
      · rw [step_of_opens he]
        exact hs
      · rw [hlast, List.getLastD_cons, if_neg (by simp)]
        rfl
    | closes =>
      cases upper with
      | nil => exact absurd (hpos he) (Nat.lt_irrefl 0)
      | cons t upper =>
        rw [he] at hrest
        obtain ⟨s', upper', hs, hlength, hlast⟩ := ih t upper hrest
        refine ⟨s', upper', ?_, hlength, ?_⟩
        · rw [List.cons_append, step_of_closes he]
          exact hs
        · rw [hlast, List.getLastD_cons, if_neg (by simp)]
          rfl
    | keeps =>
      rw [he] at hrest
      obtain ⟨s', upper', hs, hlength, hlast⟩ := ih (e.meaning.change s) upper hrest
      refine ⟨s', upper', ?_, hlength, ?_⟩
      · rw [step_of_keeps he]
        exact hs
      · rw [hlast]
        -- Deeper inside, the entry works on a state that its scope drops.
        cases upper with
        | nil => rfl
        | cons t upper => rfl

end Scope

namespace Machine

variable {δ : Type} [PaintDevice α δ]

theorem step_of_closes_nil {m : Machine α δ} (hsaved : m.saved = []) {e : Entry α}
    (h : e.effect = .closes) : m.step e = m := by
  obtain ⟨o, operands⟩ := e
  unfold Entry.effect at h
  have hrestore : m.restore = m := by
    unfold restore
    rw [hsaved]
  split at h
  case h_3 ho | h_4 ho =>
    cases ho
    exact hrestore
  all_goals cases h

/-- A balanced list leaves the saved states as they were, and the state in force as the entries
outside its scopes leave it.  A nested list only adds to the saved states, and any list changes
their number by its openers and closers. -/
theorem run_scopes (m : Machine α δ) (entries : List (Entry α)) :
    ∃ n, m.run (fun _ => false) entries = (n, .finished) ∧
      (Balanced entries →
        n.saved = m.saved ∧ n.state = (m.runAll (outside 0 entries)).state ∧
          ((∀ e ∈ outside 0 entries, e.setsState = false) → n.state = m.state)) ∧
      (Nested entries → ∃ opened, n.saved = opened ++ m.saved) ∧
      n.saved.length = depth m.saved.length entries ∧
      (m.saved = [] → ∀ e : Entry α, e.effect = .closes → m.step e = m) := by
  have hscope : (m.runAll entries).scope = m.scope.run entries := scope_runAll m entries
  refine ⟨m.runAll entries, run_never m entries, ?_, ?_, ?_, ?_⟩
  · intro hbalanced
    have hnested := hbalanced.nested.nestedIn
    obtain ⟨s, upper, hrun, hlength, hlast⟩ := Scope.run_nested m.state [] m.saved hnested
    have hupper : upper = [] := List.eq_nil_of_length_eq_zero (hlength.trans hbalanced.depth_eq)
    rw [hupper] at hrun hlast
    have hkeeps : ∀ e ∈ outside 0 entries, e.effect = .keeps :=
      fun e he => hnested.effect_of_mem_outside he
    have houtside : (m.runAll (outside 0 entries)).state = s := by
      rw [show (m.runAll (outside 0 entries)).state = (m.scope.run (outside 0 entries)).state from
        congrArg Scope.state (scope_runAll m _), Scope.run_of_keeps hkeeps]
      exact hlast.symm
    have hn : (m.runAll entries).scope = ⟨s, m.saved⟩ := hscope.trans hrun
    refine ⟨congrArg Scope.saved hn, (congrArg Scope.state hn).trans houtside.symm, ?_⟩
    intro hset
    exact (congrArg Scope.state hn).trans
      (hlast.trans (Scope.changes_of_not_setsState hkeeps hset _))
  · intro hnested
    obtain ⟨s, upper, hrun, -, -⟩ := Scope.run_nested m.state [] m.saved hnested.nestedIn
    exact ⟨upper, congrArg Scope.saved (hscope.trans hrun)⟩
  · exact (congrArg (·.saved.length) hscope).trans (Scope.length_saved_run m.scope entries)
  · exact fun hsaved e he => step_of_closes_nil hsaved he

/-- A form without a usable matrix is closed by a restore here, and a save by the end of a form. -/
theorem run_scopes_mixed :
    let m : Machine Float (Collector Float) := (start 100 .empty).save
    let entries : List (Entry Float) :=
      [⟨.verb .formBegin, [.null]⟩, .numbers (.verb .transform) [2, 0, 0, 2, 5, 5],
        .bare (.verb .save), .numbers (.verb .lineWidth) [3], .bare (.verb .formEnd),
        .bare (.verb .restore)]
    Balanced entries ∧ outside 0 entries = [] ∧
      ∃ n, m.run (fun _ => false) entries = (n, .finished) ∧ n.state = m.state ∧
        n.saved = m.saved := by
  intro m entries
  have hbalanced : Balanced entries := by decide
  obtain ⟨n, hrun, hstate, -, -, -⟩ := run_scopes m entries
  obtain ⟨hsaved, -, hkept⟩ := hstate hbalanced
  exact ⟨hbalanced, rfl, n, hrun, hkept nofun, hsaved⟩

/-- Outside every scope a list can set the graphics state, although it is balanced. -/
theorem balanced_sets_lineWidth :
    let m : Machine Float (Collector Float) := start 100 .empty
    let entries : List (Entry Float) := [.numbers (.verb .lineWidth) [3]]
    Balanced entries ∧ ∃ n, m.run (fun _ => false) entries = (n, .finished) ∧ n.state ≠ m.state := by
  intro m entries
  refine ⟨by decide, _, run_never m entries, ?_⟩
  intro h
  have hwidth : (3 : Float) = 1.0 := congrArg GraphicsState.lineWidth h
  exact absurd hwidth (by decide)

end Machine

end Artwork
