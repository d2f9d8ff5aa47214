import Artwork.Proofs.Double.Range
import Artwork.Proofs.Grouping.MinSide
import Artwork.Proofs.Import.Looks
import Artwork.Proofs.Wire.RoundTrip

/-!
# What stays in range

Of the numbers that an import computes, the stroke widths and those of the labels are finite,
whatever the document holds: each of them is one chain of operations on one operand or two, which
is finite on the largest double.  The segments go through the matrices of the list, so that theirs
can overflow, and so can the colours that are mixed from inks.
-/

namespace Artwork

/-! ## Stroke widths -/

section Widths

variable {α : Type} [Scalar α]

omit [Scalar α] in
theorem Operand.mem_of_leading?_one {operands : List (Operand α)} {w : α}
    (h : leading? 1 operands = some [w]) : .number w ∈ operands := by
  cases operands with
  | nil => cases h
  | cons o rest =>
    have hfirst : (o.number?.bind fun x => some [x]) = some [w] := by
      simpa [leading?] using h
    cases o with
    | number x =>
      cases hfirst
      exact List.mem_cons_self
    | _ => cases hfirst

/-- An entry sets the line width to one of its operands. -/
theorem Entry.mem_operands_of_lineWidth {e : Entry α} {w : α} (h : e.meaning = .lineWidth w) :
    .number w ∈ e.operands := by
  obtain ⟨o, operands⟩ := e
  cases o with
  | other name unlisted => cases h
  | verb v =>
    have hmeans := v.canMean_ofVerb operands
    rw [show Meaning.ofVerb operands v = .lineWidth w from h] at hmeans
    cases hmeans
    simp only [meaning, Meaning.ofVerb] at h
    split at h
    next u hlead =>
      cases h
      exact Operand.mem_of_leading?_one hlead
    next => cases h

theorem Meaning.lineWidth_change {P : α → Prop} {s : GraphicsState α} (hs : P s.lineWidth)
    {a : Meaning α} (ha : ∀ w, a = .lineWidth w → P w) : P (a.change s).lineWidth := by
  cases a with
  | lineWidth w => exact ha w rfl
  | color ink c => cases ink <;> exact hs
  | enterForm t => cases t <;> exact hs
  | _ => exact hs

namespace Machine

/-- All line widths of a machine, those of its saved states and of the shapes painted so far
included. -/
structure WidthsAll (P : α → Prop) (m : Machine α (Collector α)) : Prop where
  state : P m.state.lineWidth
  saved : ∀ s ∈ m.saved, P s.lineWidth
  shapes : ∀ s ∈ m.device.shapes, ∃ w, P w ∧ s.strokeWidth = millimetres w

variable {P : α → Prop} {m : Machine α (Collector α)}

theorem WidthsAll.start (height : α) (h : P 1.0) : (start height Collector.empty).WidthsAll P :=
  ⟨h, nofun, nofun⟩

theorem WidthsAll.runAll (h : m.WidthsAll P) {entries : List (Entry α)}
    (hentries : ∀ e ∈ entries, ∀ w, e.meaning = .lineWidth w → P w) :
    (m.runAll entries).WidthsAll P := by
  have hkept : ∀ e ∈ entries, ∀ s : GraphicsState α, P s.lineWidth →
      P (e.meaning.change s).lineWidth :=
    fun e he s hs => Meaning.lineWidth_change hs (hentries e he)
  have hwidths : ∀ front, front <+: entries → ∀ s ∈ (m.scope.run front).states, P s.lineWidth :=
    fun front hfront => Scope.forall_states_run (List.forall_mem_cons.mpr ⟨h.state, h.saved⟩)
      fun e he => hkept e (hfront.subset he)
  have hstates := hwidths entries List.prefix_rfl
  rw [← scope_runAll] at hstates
  obtain ⟨hstate, hsaved⟩ := List.forall_mem_cons.mp hstates
  refine ⟨hstate, hsaved, fun s hs => ?_⟩
  rcases mem_shapes_runAll hs with hs | ⟨front, hfront, hlooks⟩
  · exact h.shapes s hs
  · exact ⟨_, hwidths front hfront _ List.mem_cons_self, hlooks.strokeWidth⟩

end Machine

end Widths

/-- Every stroke width of a drawing is the initial line width or one that an entry sets. -/
theorem Import.strokeWidth_drawn {o : Options Float} {size : PageSize Float}
    {entries : List (Entry Float)} {runs : List (TextRun Float)} {P : Float → Prop} (hone : P 1.0)
    (hentries : ∀ e ∈ entries, ∀ w, e.meaning = .lineWidth w → P w) :
    ∀ s ∈ (drawn o size entries runs).shapes, ∃ w, P w ∧ s.strokeWidth = millimetres w := by
  intro s hs
  obtain ⟨t, ht, -, -, hwidth⟩ := exists_painted_of_drawn hs
  rw [hwidth]
  exact ((Machine.WidthsAll.start size.height hone).runAll hentries).shapes t ht

/-! ## Labels -/

theorem Double.Under.millimetres {x b : Float} (h : Under x b)
    (hfin : Scalar.isFinite (millimetres b) = true) : Under (millimetres x) (millimetres b) :=
  h.mul (by decide) (by decide) hfin

theorem isFinite_millimetres {x : Float} (h : Scalar.isFinite x = true) :
    Scalar.isFinite (millimetres x) = true :=
  ((Double.under_largest h).millimetres (by decide +kernel)).isFinite

open Double in
/-- The label of a run with finite numbers is finite, on a page of any finite height. -/
theorem Label.finite_ofRun {run : TextRun Float} {height : Float} (hrun : run.json.Finite)
    (hheight : Scalar.isFinite height = true) :
    (Label.ofRun run (Artwork.millimetres height)).json.Finite := by
  obtain ⟨-, htransform, hwidth, -⟩ := hrun
  obtain ⟨ha, -, -, -, he, hf, -⟩ := htransform
  have hlargest : Scalar.isFinite (Artwork.millimetres largest) = true := by decide +kernel
  have hy := ((under_largest hheight).millimetres hlargest).sub
    ((under_largest hf).millimetres hlargest) (by decide +kernel)
  have hsize : Under (millimetres (Scalar.magnitude run.transform.a) / fontUnit)
      (millimetres largest / fontUnit) :=
    ((under_largest ha).magnitude.millimetres hlargest).div (by decide) (by decide)
      (by decide +kernel)
  have hround := hsize.round (by decide +kernel)
  have hline := (hsize.mul (c := fontUnit) (by decide) (by decide) (by decide +kernel)).mul
    (c := lineHeight) (by decide) (by decide) (by decide +kernel)
  exact ⟨trivial, isFinite_millimetres he, hy.isFinite,
    isFinite_greatest hround.isFinite (by decide),
    isFinite_greatest (isFinite_millimetres hwidth) (by decide),
    isFinite_greatest hline.isFinite (by decide), trivial⟩

/-! ## Documents -/

/-- The numbers of a document that was read are finite. -/
theorem PageDocument.finite_of_read {text : List Char} {more : Bool} {d : PageDocument Float}
    (h : ofOutline (Outline.ofText text).1 more = .ok d) : d.json.Finite := by
  have hspelled :=
    Outline.all_ofText (α := Float) (fun _ _ => LawfulWritten.spelled_of_ofNumeral?) text
  exact (Json.spelled_iff_finite _).mp
    (yields Written.spelled_zero hspelled (reader_of_ofOutline h))

theorem PageDocument.finite_parts {d : PageDocument Float} {entries : List (Entry Float)}
    {runs : List (TextRun Float)} (h : d.json.Finite) (hoperators : d.operators = some entries)
    (htexts : d.texts = some runs) :
    Scalar.isFinite d.height = true ∧ (∀ e ∈ entries, e.json.Finite) ∧
      ∀ r ∈ runs, r.json.Finite := by
  obtain ⟨width, height, operators, texts⟩ := d
  cases hoperators
  cases htexts
  obtain ⟨-, hheight, hentries, hruns, -⟩ := h
  exact ⟨hheight, List.forall_mem_map.mp (Json.allItems_iff.mp hentries),
    List.forall_mem_map.mp (Json.allItems_iff.mp hruns)⟩

theorem Entry.isFinite_operand {e : Entry Float} (h : e.json.Finite) {x : Float}
    (hx : .number x ∈ e.operands) : Scalar.isFinite x = true := by
  obtain ⟨-, hoperands, -⟩ := h
  exact Json.allItems_iff.mp hoperands _ (List.mem_map_of_mem hx)

/-! ## Drawings -/

/-- The numbers of a shape are finite, its stroke width aside. -/
structure Shape.InRange (s : Shape Float) : Prop where
  segments : ∀ g ∈ s.segments, ∀ x ∈ g.coordinates, Scalar.isFinite x = true
  fill : ∀ c ∈ s.fill, ∀ x ∈ c.channels, Scalar.isFinite x = true
  stroke : ∀ c ∈ s.stroke, ∀ x ∈ c.channels, Scalar.isFinite x = true
  box : s.box.IsFinite

theorem Shape.finite_json_iff (s : Shape Float) :
    s.json.Finite ↔ s.InRange ∧ Scalar.isFinite s.strokeWidth = true := by
  have hsegments : Json.AllItems (fun x => Scalar.isFinite x = true) (s.segments.map Segment.json) ↔
      ∀ g ∈ s.segments, ∀ x ∈ g.coordinates, Scalar.isFinite x = true := by
    simp only [Json.allItems_iff, List.forall_mem_map, Segment.json, Json.All, Json.AllMembers,
      Json.all_numbers, true_and, and_true]
  have hcolor (c : Option (Color Float)) : (Color.optionJson c).Finite ↔
      ∀ c' ∈ c, ∀ x ∈ c'.channels, Scalar.isFinite x = true := by
    cases c <;> simp [Color.optionJson, Color.json, Json.all_numbers, Json.All]
  constructor
  · rintro ⟨hs, hfill, hstroke, hwidth, ⟨hx, hy, hw, hh, -⟩, -⟩
    exact ⟨⟨hsegments.mp hs, (hcolor _).mp hfill, (hcolor _).mp hstroke, hx, hy, hw, hh⟩, hwidth⟩
  · rintro ⟨⟨hs, hfill, hstroke, hx, hy, hw, hh⟩, hwidth⟩
    exact ⟨hsegments.mpr hs, (hcolor _).mpr hfill, (hcolor _).mpr hstroke, hwidth,
      ⟨hx, hy, hw, hh, trivial⟩, trivial⟩

theorem Drawing.finite_json_iff (d : Drawing Float) :
    d.json.Finite ↔
      d.page.json.Finite ∧ (∀ s ∈ d.shapes, s.json.Finite) ∧ ∀ l ∈ d.labels, l.json.Finite := by
  simp only [Json.Finite, Drawing.json, Json.All, Json.AllMembers, Json.allItems_iff,
    List.forall_mem_map, and_true]

namespace Import

/-- Only the shapes of a drawn page can be out of range. -/
theorem finite_json_drawn_iff {o : Options Float} {d : PageDocument Float}
    {entries : List (Entry Float)} {runs : List (TextRun Float)} (hd : d.json.Finite)
    (hsize : d.HasSize) (hoperators : d.operators = some entries) (htexts : d.texts = some runs) :
    (drawn o d.size entries runs).json.Finite ↔
      ∀ s ∈ (drawn o d.size entries runs).shapes, s.InRange := by
  obtain ⟨hheight, hentries, hruns⟩ := PageDocument.finite_parts hd hoperators htexts
  have hpage : (drawn o d.size entries runs).page.json.Finite :=
    ⟨hsize.finite_width, hsize.finite_height, trivial⟩
  have hset : ∀ e ∈ entries, ∀ w, e.meaning = .lineWidth w → Scalar.isFinite w = true :=
    fun e he w h => Entry.isFinite_operand (hentries e he) (Entry.mem_operands_of_lineWidth h)
  have hwidths : ∀ s ∈ (drawn o d.size entries runs).shapes,
      Scalar.isFinite s.strokeWidth = true := by
    intro s hs
    obtain ⟨w, hw, hwidth⟩ := strokeWidth_drawn (by decide) hset s hs
    rw [hwidth]
    exact isFinite_millimetres hw
  have hlabels : ∀ l ∈ (drawn o d.size entries runs).labels, l.json.Finite := by
    intro l hl
    simp only [drawn, drawing] at hl
    split_ifs at hl
    · obtain ⟨run, hrun, rfl⟩ := List.mem_map.mp hl
      exact Label.finite_ofRun (hruns run (List.mem_of_mem_filter hrun)) hheight
    · cases hl
  rw [Drawing.finite_json_iff, and_iff_right hpage, and_iff_left hlabels]
  refine forall₂_congr fun s hs => ?_
  rw [Shape.finite_json_iff, and_iff_left (hwidths s hs)]

theorem finite_json_iff {o : Options Float} {raised : Bool} {text : List Char}
    {d : Drawing Float} (h : Import.text o raised text = .ok d) :
    d.json.Finite ↔ ∀ s ∈ d.shapes, s.InRange := by
  have hends : Ends o raised (Outline.ofText (α := Float) text).1
      (Outline.ofText (α := Float) text).2 (.ok d) := by
    rw [← h]
    exact ends_outlined
  cases hends with
  | complete hread hsize hoperators htexts _ hresult =>
    rw [completes_iff.mp hresult]
    exact finite_json_drawn_iff (PageDocument.finite_of_read hread) hsize hoperators htexts

end Import
end Artwork
