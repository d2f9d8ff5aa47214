import Artwork.Proofs.Grouping.Components
import Artwork.Proofs.Machine.Cancellation
import Artwork.Proofs.Wire.Records
import Artwork.Wire.Drawing

/-!
# How an import ends

An import puts a document through a fixed row of tests and stops at the first that fails.  What
passes all of them becomes a drawing: whatever the listings hold, nothing behind the tests can fail.

`Import.Ends` lists the ways, each with the tests that were passed before.  The tests look at the
outline of the text only.  Bytes that spell no text have an outline too, where a string that cannot
be spelled is passed over and not kept.
-/

namespace Artwork

variable {α : Type}

/-- A field of a record is missing, or null. -/
def Outline.Lacks (v : Outline α) (index : Nat) (name : String) : Prop :=
  ∃ offer, v.offer? = some offer ∧ ∀ u, (offer.find index name).2 = some u → u = .null

variable [Scalar α]

namespace PageDocument

/-- What is read of an outline; `more` tells whether something follows it in the text. -/
def ofOutline (v : Outline α) (more : Bool) : Except Fault (PageDocument α) := do
  let d ← reader Reader.maxDepth v
  if more then .error .malformed else .ok d

/-- The page has a size: its sides in millimetres are finite and positive. -/
structure HasSize (d : PageDocument α) : Prop where
  finite_width : Scalar.isFinite (millimetres d.width) = true
  pos_width : (0.0 : α) < millimetres d.width
  finite_height : Scalar.isFinite (millimetres d.height) = true
  pos_height : (0.0 : α) < millimetres d.height

def size (d : PageDocument α) : PageSize α := ⟨millimetres d.width, millimetres d.height⟩

end PageDocument

namespace Import

/-- Imports a document by the outline of its text. -/
def outlined (o : Options α) (raised : Bool) (v : Outline α) (more : Bool) :
    Except (Failure α) (Drawing α) := do
  source o raised (← (PageDocument.ofOutline v more).mapError .document).source

/-- The shapes that an operator list paints when nothing stops it. -/
def painted (size : PageSize α) (entries : List (Entry α)) : List (Shape α) :=
  ((Machine.start size.height Collector.empty).runAll entries).device.shapes

/-- The whole drawing of a page.  With a gap every look-up of the merge finds what it looks for, in
whichever order the buckets of styles are visited. -/
structure Completes (o : Options α) (size : PageSize α) (entries : List (Entry α))
    (runs : List (TextRun α)) (result : Drawing α) : Prop where
  page : result.page = size
  merged : ∀ gap, o.gap = some gap → ∀ visits,
    visits.Perm (Grouping.buckets (painted size entries)) →
      Grouping.tryGroup (painted size entries) gap visits = .ok result.shapes
  unmerged : o.gap = none → result.shapes = painted size entries
  labels : result.labels = if o.texts then Label.ofRuns runs size.height else []

/-- The ways in which an import ends, in the order of the tests. -/
inductive Ends (o : Options α) (raised : Bool) (v : Outline α) (more : Bool) :
    Except (Failure α) (Drawing α) → Prop
  | unreadable {f : Fault} (hread : PageDocument.ofOutline v more = .error f) :
    Ends o raised v more (.error (.document f))
  | invalidSize {d : PageDocument α} (hread : PageDocument.ofOutline v more = .ok d)
    (hsize : ¬ d.HasSize) :
    Ends o raised v more (.error (.invalidSize d.size.width d.size.height))
  | noOperators {d : PageDocument α} (hread : PageDocument.ofOutline v more = .ok d)
    (hsize : d.HasSize) (hoperators : v.Lacks 2 "operators") :
    Ends o raised v more (.error (.operatorList "page has no operator list"))
  | noTexts {d : PageDocument α} (hread : PageDocument.ofOutline v more = .ok d)
    (hsize : d.HasSize) (hoperators : ¬ v.Lacks 2 "operators") (htexts : v.Lacks 3 "textItems") :
    Ends o raised v more (.error (.textContent "page has no text content"))
  | cancelled {d : PageDocument α} {entries : List (Entry α)} {runs : List (TextRun α)}
    (hread : PageDocument.ofOutline v more = .ok d) (hsize : d.HasSize)
    (hoperators : d.operators = some entries) (htexts : d.texts = some runs)
    (hraised : (o.cancellable && raised) = true) (hentries : entries ≠ []) :
    Ends o raised v more (.error .cancelled)
  | complete {d : PageDocument α} {entries : List (Entry α)} {runs : List (TextRun α)}
    {result : Drawing α} (hread : PageDocument.ofOutline v more = .ok d) (hsize : d.HasSize)
    (hoperators : d.operators = some entries) (htexts : d.texts = some runs)
    (hgoes : (o.cancellable && raised) = false ∨ entries = [])
    (hresult : Completes o d.size entries runs result) : Ends o raised v more (.ok result)

end Import

/-! ## Missing listings -/

omit [Scalar α] in
/-- A listing is read as none just when it is missing or null. -/
theorem Record.listing_eq_none_iff {β : Type} {r : Reader α β} {name : String} {room index : Nat}
    {offer : Offer α} {found : Option β}
    (h : (defaulted name r.nullable none).fields room offer index = .ok found) :
    found = none ↔ ∀ u, (offer.find index name).2 = some u → u = .null := by
  rcases field_ok h with ⟨v, hv, hread⟩ | ⟨hmissing, hnone⟩
  · rcases Reader.nullable_ok hread with ⟨rfl, rfl⟩ | ⟨hne, b, rfl, -⟩
    · refine ⟨fun _ u hu => ?_, fun _ => rfl⟩
      exact (Option.some_inj.mp (hv.symm.trans hu)).symm
    · exact ⟨nofun, fun hall => absurd (hall v hv) hne⟩
  · obtain rfl : none = found := by simpa using hnone
    refine ⟨fun _ u hu => ?_, fun _ => rfl⟩
    rw [hmissing] at hu
    cases hu

namespace PageDocument

variable {v : Outline α} {more : Bool} {d : PageDocument α}

theorem reader_of_ofOutline (h : ofOutline v more = .ok d) : reader Reader.maxDepth v = .ok d := by
  obtain ⟨d', hread, h⟩ := exists_of_bind_ok h
  split at h <;> cases h
  exact hread

theorem lacks_iff (h : ofOutline v more = .ok d) :
    (d.operators = none ↔ v.Lacks 2 "operators") ∧ (d.texts = none ↔ v.Lacks 3 "textItems") := by
  obtain ⟨room, offer, -, hoffer, h⟩ := Record.reader_ok (reader_of_ofOutline h)
  obtain ⟨_, texts, h₃, htexts, rfl⟩ := Placed.ap_ok h
  obtain ⟨_, operators, h₂, hoperators, rfl⟩ := Placed.ap_ok h₃
  obtain ⟨_, height, h₁, -, rfl⟩ := Placed.ap_ok h₂
  obtain ⟨width, -, rfl⟩ := Placed.map_ok h₁
  have hlacks (index : Nat) (name : String) : v.Lacks index name ↔
      ∀ u, (offer.find index name).2 = some u → u = .null := by
    unfold Outline.Lacks
    simp [hoffer]
  rw [hlacks, hlacks]
  exact ⟨Record.listing_eq_none_iff hoperators, Record.listing_eq_none_iff htexts⟩

theorem source_size_of_hasSize (h : d.HasSize) : d.source.size = .ok d.size := by
  have husable : (PageSize.isUsable (millimetres d.width) &&
      PageSize.isUsable (millimetres d.height)) = true := by
    simp [PageSize.isUsable, h.finite_width, h.pos_width, h.finite_height, h.pos_height]
  exact if_pos husable

theorem source_size_of_not_hasSize (h : ¬ d.HasSize) :
    d.source.size = .error (.invalidSize d.size.width d.size.height) := by
  refine if_neg fun husable => h ?_
  simp only [PageSize.isUsable, Bool.and_eq_true, decide_eq_true_eq] at husable
  exact ⟨husable.1.1, husable.1.2, husable.2.1, husable.2.2⟩

end PageDocument

/-! ## The tests in a row -/

namespace Import

variable {o : Options α} {raised : Bool} {v : Outline α} {more : Bool}

/-- The drawing that the listings of a page make. -/
def drawn (o : Options α) (size : PageSize α) (entries : List (Entry α))
    (runs : List (TextRun α)) : Drawing α := drawing o size (painted size entries) runs

theorem completes_iff {size : PageSize α} {entries : List (Entry α)} {runs : List (TextRun α)}
    {result : Drawing α} :
    Completes o size entries runs result ↔ result = drawn o size entries runs := by
  constructor
  · intro ⟨hpage, hmerged, hunmerged, hlabels⟩
    have hshapes : result.shapes = (drawn o size entries runs).shapes := by
      unfold drawn drawing
      cases hgap : o.gap with
      | none => exact hunmerged hgap
      | some gap =>
        have htry := hmerged gap hgap _ (.refl _)
        rw [Grouping.tryGroup_eq _ _ (.refl _)] at htry
        exact (Except.ok.inj htry).symm
    obtain ⟨page, shapes, labels⟩ := result
    rw [show page = size from hpage, show shapes = _ from hshapes, show labels = _ from hlabels]
    rfl
  · intro h
    rw [h]
    refine ⟨rfl, fun gap hgap visits hvisits => ?_, fun hgap => ?_, rfl⟩
    · rw [Grouping.tryGroup_eq _ _ hvisits, drawn, drawing, hgap]
    · rw [drawn, drawing, hgap]

theorem page_of_up {size : PageSize α} {entries : List (Entry α)} {runs : List (TextRun α)}
    (hraised : (o.cancellable && raised) = true) (hentries : entries ≠ []) :
    page o raised entries runs size = .error .cancelled := by
  obtain ⟨e, rest, rfl⟩ := List.exists_cons_of_ne_nil hentries
  rw [page, draw, hraised, Machine.run_of_up rfl]
  rfl

theorem page_of_down {size : PageSize α} {entries : List (Entry α)} {runs : List (TextRun α)}
    (hgoes : (o.cancellable && raised) = false ∨ entries = []) :
    page o raised entries runs size = .ok (drawn o size entries runs) := by
  rcases hgoes with hdown | rfl
  · rw [page, draw, hdown, Machine.run_never]
    rfl
  · rfl

theorem page_false {size : PageSize α} {entries : List (Entry α)} {runs : List (TextRun α)} :
    page o false entries runs size = .ok (drawn o size entries runs) :=
  page_of_down (.inl (Bool.and_false o.cancellable))

/-- A drawing that an import answers is the whole one. -/
theorem eq_drawn_of_page {size : PageSize α} {entries : List (Entry α)} {runs : List (TextRun α)}
    {d : Drawing α} (h : page o raised entries runs size = .ok d) :
    d = drawn o size entries runs := by
  by_cases hstops : (o.cancellable && raised) = true ∧ entries ≠ []
  · rw [page_of_up hstops.1 hstops.2] at h
    cases h
  · rw [page_of_down (by rwa [not_and_or, Bool.not_eq_true, not_not] at hstops)] at h
    exact (Except.ok.inj h).symm

variable {d : PageDocument α}

theorem outlined_of_ok (hread : PageDocument.ofOutline v more = .ok d) :
    outlined o raised v more = source o raised d.source := by
  rw [outlined, hread]
  rfl

/-- Behind the size there are the listings to be looked for. -/
theorem source_of_hasSize (h : d.HasSize) :
    source o raised d.source =
      match d.operators, d.texts with
      | none, _ => .error (.operatorList "page has no operator list")
      | some _, none => .error (.textContent "page has no text content")
      | some entries, some runs => page o raised entries runs d.size := by
  rw [source, PageDocument.source_size_of_hasSize h]
  unfold PageDocument.source
  cases d.operators <;> cases d.texts <;> rfl

/-- Every import ends in one of the ways. -/
theorem ends_outlined : Ends o raised v more (outlined o raised v more) := by
  cases hread : PageDocument.ofOutline v more with
  | error f =>
    rw [outlined, hread]
    exact .unreadable hread
  | ok d =>
    obtain ⟨hnoOperators, hnoTexts⟩ := PageDocument.lacks_iff hread
    rw [outlined_of_ok hread]
    by_cases hsize : d.HasSize
    · rw [source_of_hasSize hsize]
      cases hoperators : d.operators with
      | none => exact .noOperators hread hsize (hnoOperators.mp hoperators)
      | some entries =>
        have hthere : ¬ v.Lacks 2 "operators" := by
          rw [← hnoOperators, hoperators]
          nofun
        cases htexts : d.texts with
        | none => exact .noTexts hread hsize hthere (hnoTexts.mp htexts)
        | some runs =>
          by_cases hstops : (o.cancellable && raised) = true ∧ entries ≠ []
          · show Ends o raised v more (page o raised entries runs d.size)
            rw [page_of_up hstops.1 hstops.2]
            exact .cancelled hread hsize hoperators htexts hstops.1 hstops.2
          · have hgoes : (o.cancellable && raised) = false ∨ entries = [] := by
              by_contra hstay
              rw [not_or, Bool.not_eq_false] at hstay
              exact hstops hstay
            show Ends o raised v more (page o raised entries runs d.size)
            rw [page_of_down hgoes]
            exact .complete hread hsize hoperators htexts hgoes (completes_iff.mpr rfl)
    · rw [source, PageDocument.source_size_of_not_hasSize hsize]
      exact .invalidSize hread hsize

/-- A way in which an import may end is the way in which it ends. -/
theorem outlined_of_ends {r : Except (Failure α) (Drawing α)} (h : Ends o raised v more r) :
    outlined o raised v more = r := by
  cases h with
  | unreadable hread => rw [outlined, hread]; rfl
  | invalidSize hread hsize =>
    rw [outlined_of_ok hread, source, PageDocument.source_size_of_not_hasSize hsize]
    rfl
  | noOperators hread hsize hoperators =>
    rw [outlined_of_ok hread, source_of_hasSize hsize,
      (PageDocument.lacks_iff hread).1.mpr hoperators]
  | noTexts hread hsize hoperators htexts =>
    obtain ⟨hnoOperators, hnoTexts⟩ := PageDocument.lacks_iff hread
    rw [← hnoOperators] at hoperators
    obtain ⟨entries, hentries⟩ := Option.ne_none_iff_exists'.mp hoperators
    rw [outlined_of_ok hread, source_of_hasSize hsize, hentries, hnoTexts.mpr htexts]
  | cancelled hread hsize hoperators htexts hraised hentries =>
    rw [outlined_of_ok hread, source_of_hasSize hsize, hoperators, htexts]
    exact page_of_up hraised hentries
  | complete hread hsize hoperators htexts hgoes hresult =>
    rw [outlined_of_ok hread, source_of_hasSize hsize, hoperators, htexts, completes_iff.mp hresult]
    exact page_of_down hgoes

/-- An import ends in one of the ways, and in no other, whatever its text is. -/
theorem ends_iff [Written α] (o : Options α) (raised : Bool) :
    (∀ (v : Outline α) (more : Bool) (r : Except (Failure α) (Drawing α)),
        outlined o raised v more = r ↔ Ends o raised v more r) ∧
      ∀ (text : List Char) (r : Except (Failure α) (Drawing α)),
        Import.text o raised text = r ↔
          Ends o raised (Outline.ofText (α := α) text).1 (Outline.ofText (α := α) text).2 r := by
  have hiff : ∀ (v : Outline α) (more : Bool) (r : Except (Failure α) (Drawing α)),
      outlined o raised v more = r ↔ Ends o raised v more r :=
    fun v more r => ⟨fun h => h ▸ ends_outlined, outlined_of_ends⟩
  exact ⟨hiff, fun text r => hiff _ _ r⟩

end Import
end Artwork
