import Artwork.Proofs.Grouping.Members
import Artwork.Proofs.Import.Endings
import Artwork.Proofs.Machine.Blocks
import Artwork.Proofs.Machine.Matrices

/-!
# Where the look of a shape comes from

The colours and the stroke width of a shape are those of the graphics state in which it was painted,
and a merged shape has the look of one of its members.  So a property of graphics states that every
entry of a list keeps shows in every shape of the drawing (`looksLike_drawn`), as it holds of the
state in force and of the saved ones at every moment (`forall_states_run`).
-/

namespace Artwork

variable {α : Type} [Scalar α]

/-! ## States of a run -/

namespace Scope

variable {P : GraphicsState α → Prop} {g : Scope α}

theorem forall_states_step (h : ∀ s ∈ g.states, P s) {e : Entry α}
    (he : ∀ s, P s → P (e.meaning.change s)) : ∀ s ∈ (g.step e).states, P s := by
  obtain ⟨state, saved⟩ := g
  obtain ⟨hstate, hsaved⟩ := List.forall_mem_cons.mp h
  cases heffect : e.effect with
  | opens =>
    rw [step_of_opens heffect]
    exact List.forall_mem_cons.mpr ⟨he state hstate, h⟩
  | closes =>
    cases saved with
    | nil =>
      rw [step_of_closes_nil heffect]
      exact h
    | cons t rest =>
      rw [step_of_closes heffect]
      exact hsaved
  | keeps =>
    rw [step_of_keeps heffect]
    exact List.forall_mem_cons.mpr ⟨he state hstate, hsaved⟩

/-- What holds of all states, and what every entry keeps, holds of all states behind the entries. -/
theorem forall_states_run (h : ∀ s ∈ g.states, P s) {entries : List (Entry α)}
    (hentries : ∀ e ∈ entries, ∀ s, P s → P (e.meaning.change s)) :
    ∀ s ∈ (g.run entries).states, P s := by
  induction entries generalizing g with
  | nil => exact h
  | cons e rest ih =>
    obtain ⟨he, hrest⟩ := List.forall_mem_cons.mp hentries
    exact ih (forall_states_step h he) hrest

theorem forall_states_start (h : P .initial) : ∀ s ∈ (start : Scope α).states, P s := by
  intro s hs
  rw [List.mem_singleton.mp hs]
  exact h

end Scope

/-! ## Shapes of a run -/

/-- The shape shows the colours and the line width of a state: each colour that it has is the one
that the state paints with. -/
structure Shape.LooksLike (s : Shape α) (state : GraphicsState α) : Prop where
  fill : ∀ c ∈ s.fill, c = state.fillColor
  stroke : ∀ c ∈ s.stroke, c = state.strokeColor
  strokeWidth : s.strokeWidth = millimetres state.lineWidth

theorem Shape.looksLike_of_ofPaint? {s : Shape α} {state : GraphicsState α} {style : PaintStyle}
    {path : List (Segment α)} (h : ofPaint? state style path = some s) : s.LooksLike state := by
  obtain ⟨box, -, rfl⟩ := Option.map_eq_some_iff.mp h
  obtain ⟨stroke, fill, evenOdd⟩ := style
  exact ⟨by cases fill <;> simp, by cases stroke <;> simp, rfl⟩

namespace Machine

variable {m : Machine α (Collector α)} {s : Shape α}

theorem mem_shapes_step {e : Entry α} (h : s ∈ (m.step e).device.shapes) :
    s ∈ m.device.shapes ∨ s.LooksLike m.state := by
  rw [step_eq_perform] at h
  cases he : e.meaning with
  | paint v =>
    rw [he, perform, shapes_paint, List.mem_append, PaintVerb.shape?_eq] at h
    exact h.imp_right fun hs => Shape.looksLike_of_ofPaint? (Option.mem_toList.mp hs)
  | construct steps =>
    rw [he, perform, device_addSteps] at h
    exact .inl h
  | restore =>
    rw [he, perform, restore] at h
    split at h <;> exact .inl h
  | enterForm t =>
    rw [he] at h
    cases t <;> exact .inl h
  | _ =>
    rw [he] at h
    exact .inl h

/-- Every new shape was painted in the state that some beginning of the list leaves. -/
theorem mem_shapes_runAll {entries : List (Entry α)} (h : s ∈ (m.runAll entries).device.shapes) :
    s ∈ m.device.shapes ∨
      ∃ front, front <+: entries ∧ s.LooksLike (m.scope.run front).state := by
  induction entries generalizing m with
  | nil => exact .inl h
  | cons e rest ih =>
    -- A shape of the first step shows the state before it, the one that the empty beginning leaves.
    rcases ih (m := m.step e) h with hs | ⟨front, hfront, hlooks⟩
    · exact (mem_shapes_step hs).imp_right fun hlooks => ⟨[], List.nil_prefix, hlooks⟩
    · rw [scope_step] at hlooks
      exact .inr ⟨e :: front, List.cons_prefix_cons.mpr ⟨rfl, hfront⟩, hlooks⟩

end Machine

/-! ## Shapes of a drawing -/

namespace Import

variable {P : GraphicsState α → Prop} {size : PageSize α} {entries : List (Entry α)} {s : Shape α}

theorem looksLike_painted (hinitial : P .initial)
    (hentries : ∀ e ∈ entries, ∀ s, P s → P (e.meaning.change s)) (hs : s ∈ painted size entries) :
    ∃ state, P state ∧ s.LooksLike state := by
  rcases Machine.mem_shapes_runAll hs with hnone | ⟨front, hfront, hlooks⟩
  · cases hnone
  · have hstates := Scope.forall_states_run (Scope.forall_states_start hinitial)
      fun e he => hentries e (hfront.subset he)
    exact ⟨_, hstates _ List.mem_cons_self, hlooks⟩

/-- A shape of a drawing, merged or not, has the colours and the stroke width of a painted one. -/
theorem exists_painted_of_drawn {o : Options α} {runs : List (TextRun α)}
    (hs : s ∈ (drawn o size entries runs).shapes) :
    ∃ t ∈ painted size entries,
      s.fill = t.fill ∧ s.stroke = t.stroke ∧ s.strokeWidth = t.strokeWidth := by
  unfold drawn drawing at hs
  cases hgap : o.gap with
  | none =>
    rw [hgap] at hs
    exact ⟨s, hs, rfl, rfl, rfl⟩
  | some gap =>
    rw [hgap] at hs
    obtain ⟨members, hsub, hmerge⟩ := Grouping.exists_members hs
    cases members with
    | nil => cases hmerge
    | cons first rest =>
      cases hmerge
      exact ⟨first, hsub.subset List.mem_cons_self, rfl, rfl, rfl⟩

/-- A shape of a drawing shows a state of which a property holds that every entry keeps. -/
theorem looksLike_drawn {o : Options α} {runs : List (TextRun α)} (hinitial : P .initial)
    (hentries : ∀ e ∈ entries, ∀ s, P s → P (e.meaning.change s))
    (hs : s ∈ (drawn o size entries runs).shapes) : ∃ state, P state ∧ s.LooksLike state := by
  obtain ⟨t, ht, hfill, hstroke, hwidth⟩ := exists_painted_of_drawn hs
  obtain ⟨state, hstate, hlooks⟩ := looksLike_painted hinitial hentries ht
  exact ⟨state, hstate, hfill ▸ hlooks.fill, hstroke ▸ hlooks.stroke, hwidth ▸ hlooks.strokeWidth⟩

end Import
end Artwork
