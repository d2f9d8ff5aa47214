import Artwork.Proofs.Import.Range

/-!
# Data files of doubles

A value of the vocabulary that was read from a text is written so that it is read again.  This need
not be so with what an import computes: a coordinate that has overflowed has no spelling, and a
drawing that holds one is written as a text that is refused.  Nothing but the shapes can be the
cause.
-/

namespace Artwork

/-- What was read is written so that it is read again as the same value, and that value is written
as the same text. -/
theorem WireType.decode_reread (t : WireType) {text : List Char} {v : t.Value Float}
    (h : t.reader.decode text = .ok v) (sp : Spacing) :
    t.reader.decode ((t.json v).text sp).toList = .ok v ∧
      (t.reader.decode ((t.json v).text sp).toList).map (fun w : t.Value Float =>
        (t.json w).text sp) = .ok ((t.json v).text sp) := by
  have hread := t.decode_text_of_decode Written.spelled_zero h sp
  refine ⟨hread, ?_⟩
  rw [hread]
  rfl

/-- A page written as a list, with an unknown word, nested operands, operands left out, and no text
listing. -/
def sketch : List Char :=
  ("[72,-0.5,[\x7b\"fn\":\"glow\",\"args\":[[1e-7,[null,\"fill\"]]]\x7d," ++
    "\x7b\"fn\":\"fill\"\x7d]]").toList

theorem WireType.decode_reread_sketch :
    ∃ v : PageDocument Float, pageDocument.reader.decode sketch = .ok v ∧
      pageDocument.reader.decode ((pageDocument.json v).text .indented).toList = .ok v ∧
      (pageDocument.reader.decode ((pageDocument.json v).text .indented).toList).map
        (fun w : PageDocument Float => (pageDocument.json w).text .indented) =
          .ok ((pageDocument.json v).text .indented) := by
  have hok : ((pageDocument.reader (α := Float)).decode sketch).toBool = true := by decide +kernel
  cases hread : (pageDocument.reader (α := Float)).decode sketch with
  | error f =>
    rw [hread] at hok
    cases hok
  | ok v => exact ⟨v, rfl, decode_reread pageDocument hread .indented⟩

/-! ## What an import gives -/

/-- A written drawing is read again when all of its numbers are finite, and is refused otherwise. -/
theorem Drawing.decode_json (d : Drawing Float) (sp : Spacing) :
    Judges IsMismatch d.json.Finite (Drawing.reader.decode (d.json.text sp).toList) d := by
  rw [Reader.decode_text, ← Json.spelled_iff_finite]
  exact Drawing.fits Reader.maxDepth (by decide) d

namespace Import

variable {o : Options Float} {raised : Bool} {text : List Char} {d : Drawing Float}

/-- What is written of an imported page is read as the same drawing just when no number of a shape
has overflowed; it is refused otherwise.  The labels and the stroke widths are always in range. -/
theorem text_reread (h : Import.text o raised text = .ok d) (sp : Spacing) :
    ((∀ s ∈ d.shapes, s.InRange) → Drawing.reader.decode (d.json.text sp).toList = .ok d) ∧
      ((¬ ∀ s ∈ d.shapes, s.InRange) →
        (Drawing.reader (α := Float)).decode (d.json.text sp).toList = .error .mismatch) := by
  have hjudges := d.decode_json sp
  rw [finite_json_iff h] at hjudges
  refine ⟨hjudges.accepts, fun hbad => ?_⟩
  obtain ⟨e, rfl, hread⟩ := hjudges.refuses hbad
  exact hread

/-- A page of an inch with a filled rectangle. -/
def rectanglePage (operands : String) : List Char :=
  ("\x7b\"width\":72,\"height\":72,\"operators\":[\x7b\"fn\":\"rectangle\",\"args\":[" ++ operands ++
    "]\x7d,\x7b\"fn\":\"fill\"\x7d],\"textItems\":[]\x7d").toList

def rectangleDrawing : Drawing Float where
  page := ⟨25.4, 25.4⟩
  shapes :=
    [{ segments :=
         [.moveTo ⟨0, 25.4⟩, .lineTo ⟨6.35, 25.4⟩, .lineTo ⟨6.35, 0⟩, .lineTo ⟨0, 0⟩, .close]
       fill := some ⟨0, 0, 0⟩
       stroke := none
       strokeWidth := 0.35277777777777775
       box := ⟨0, 0, 6.35, 25.4⟩ }]
  labels := []

theorem text_reread_rectangle :
    Import.text .standard false (rectanglePage "0,0,18,72") = .ok rectangleDrawing ∧
      Drawing.reader.decode (rectangleDrawing.json.text .indented).toList =
        .ok rectangleDrawing := by
  have himport :
      Import.text .standard false (rectanglePage "0,0,18,72") = .ok rectangleDrawing := by
    decide +kernel
  have hrange : ∀ s ∈ rectangleDrawing.shapes, s.InRange := by
    intro s hs
    obtain rfl := List.mem_singleton.mp hs
    exact ⟨by decide, by decide, by decide, by decide, by decide, by decide, by decide⟩
  exact ⟨himport, (text_reread himport .indented).1 hrange⟩

/-- What was imported is not always read again: the right side of this rectangle is out of range. -/
theorem endless_refused :
    ¬ ∀ (o : Options Float) (raised : Bool) (text : List Char) (d : Drawing Float) (sp : Spacing),
      Import.text o raised text = .ok d → Drawing.reader.decode (d.json.text sp).toList = .ok d := by
  intro hall
  have hover : (Import.text (.standard (α := Float)) false (rectanglePage "1e308,0,1e308,1")).toOption.map
      (fun d => decide d.json.Finite) = some false := by decide +kernel
  cases hread : Import.text (.standard (α := Float)) false (rectanglePage "1e308,0,1e308,1") with
  | error f =>
    rw [hread] at hover
    cases hover
  | ok d =>
    rw [hread] at hover
    have hinfinite : ¬ d.json.Finite := of_decide_eq_false (Option.some_inj.mp hover)
    obtain ⟨e, -, hrefused⟩ := (d.decode_json .compact).refuses hinfinite
    rw [hall _ _ _ d .compact hread] at hrefused
    cases hrefused

end Import
end Artwork
