import Artwork.Proofs.Json.Outlines
import Artwork.Wire.Drawing

/-!
# Texts that are no page documents

A record is refused when a required member is not there, whatever else is wrong with it.  So a text
that begins with a drawing is no page document, and neither is an empty one.
-/

namespace Artwork

variable {α β γ : Type}

theorem Placed.ap_error (e : Nat × Fault) (x : Placed β) :
    ∃ e', Placed.ap (.error e : Placed (β → γ)) x = .error e' := by
  cases x with
  | ok b => exact ⟨e, rfl⟩
  | error e' => exact ⟨_, rfl⟩

namespace Record

theorem seq_error {f : Record α (β → γ)} {room : Nat} {o : Offer α} {i : Nat}
    (hf : ∃ e, f.fields room o i = .error e) (x : Record α β) :
    ∃ e, (f <*> x).fields room o i = .error e := by
  obtain ⟨e, he⟩ := hf
  show ∃ e, Placed.ap (f.fields room o i) _ = .error e
  rw [he]
  exact Placed.ap_error e _

theorem map_error {r : Record α β} {room : Nat} {o : Offer α} {i : Nat} (g : β → γ)
    (hr : ∃ e, r.fields room o i = .error e) :
    ∃ e, (g <$> r).fields room o i = .error e := by
  obtain ⟨e, he⟩ := hr
  show ∃ e, (r.fields room o i).map g = .error e
  rw [he]
  exact ⟨e, rfl⟩

theorem required_missing {name : String} {members : List (Key × Outline α)}
    (h : ∀ m ∈ members, m.1 ≠ .name name) (r : Reader α β) (room i : Nat) :
    ∃ e, (required name r).fields room (.members members) i = .error e := by
  have hplace : members.findIdx (fun m => m.1 == .name name) = members.length :=
    List.findIdx_eq_length.mpr fun m hm => by simpa using h m hm
  refine ⟨(members.length, .mismatch), ?_⟩
  simp [required, field, Offer.find, hplace]

theorem settle_error (stray : Option (Nat × Fault)) (e : Nat × Fault) :
    ∃ f, settle stray (.error e : Placed β) = .error f := by
  cases stray with
  | none => exact ⟨e.2, rfl⟩
  | some e' => exact ⟨_, rfl⟩

theorem reader_error {r : Record α β} {members : List (Key × Outline α)}
    (h : ∀ room, ∃ e, r.fields room (.members members) 0 = .error e) (room : Nat)
    (stop : Option Fault) : ∃ f, r.reader room (.object members stop) = .error f := by
  cases room with
  | zero => exact ⟨.malformed, rfl⟩
  | succ room =>
    obtain ⟨e, he⟩ := h room
    show ∃ f, settle _ (r.fields room (.members members) 0) = .error f
    rw [he]
    exact settle_error _ e

end Record

namespace PageDocument

variable [Scalar α]

theorem reader_missing_width {members : List (Key × Outline α)}
    (h : ∀ m ∈ members, m.1 ≠ .name "width") (room : Nat) (stop : Option Fault) :
    ∃ f, (PageDocument.reader : Reader α (PageDocument α)) room (.object members stop) =
      .error f := by
  refine Record.reader_error (fun room => ?_) room stop
  have hwidth := Record.required_missing h (Reader.number : Reader α α) room 0
  exact Record.seq_error (Record.seq_error (Record.seq_error (Record.map_error _ hwidth) _) _) _

variable [Written α]

theorem ofText_nil :
    ∃ f, (ofText [] : Except (Failure α) (PageDocument α)) = .error (.document f) := by
  have htokens : Token.ofText [] = [] := by rw [Token.ofText]
  refine ⟨.cut, ?_⟩
  rw [ofText, Reader.decode, Outline.ofText, htokens]
  rfl

/-- The outline of a drawing has no width at its top. -/
theorem ofText_drawing (d : Drawing α) (sp : Spacing) (rest : List Char) :
    ∃ f, (ofText (d.json.textAt sp 0 ++ rest) : Except (Failure α) (PageDocument α)) =
      .error (.document f) := by
  have hend : (∃ x, d.json = .number x) → Token.EndsNumeral rest := by
    rintro ⟨x, hx⟩
    cases hx
  obtain ⟨members, hmembers, houtline⟩ : ∃ members : List (Key × Outline α),
      (∀ m ∈ members, m.1 ≠ .name "width") ∧ d.json.outline = .object members none := by
    refine ⟨_, ?_, rfl⟩
    simp [Json.memberOutlines]
  obtain ⟨f, hf⟩ := reader_missing_width hmembers Reader.maxDepth none
  have hread := Outline.ofText_textAt sp 0 d.json hend
  refine ⟨f, ?_⟩
  rw [ofText, Reader.decode, hread, houtline]
  show Except.mapError _ (reader Reader.maxDepth (.object members none) >>= _) = _
  rw [hf]
  rfl

end PageDocument
end Artwork
