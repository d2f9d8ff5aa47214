import Artwork.Proofs.Wire.Kept
import Artwork.Wire.Drawing

/-!
# Values that are written and read again

Every type of the data files has a reader and a writer, and each writer fits its reader.
-/

namespace Artwork

open Record

variable {α : Type} [Written α]

section Numbers

variable [LawfulWritten α]

theorem judges_number {name : String} {room index : Nat} {offer : Offer α} {x : α}
    {absent short : Option α} (hfind : (offer.find index name).2 = some (Json.number x).outline) :
    Judges IsPlacedMismatch (Written.Spelled x)
      ((field name .number absent short).fields room offer index) x :=
  judges_field hfind (fits_number room (Nat.zero_le room) x)

omit [LawfulWritten α] in
theorem judges_string {name : String} {room index : Nat} {offer : Offer α} {s : String}
    (hfind : (offer.find index name).2 = some (Json.string s : Json α).outline) :
    Judges IsPlacedMismatch True ((required name .string).fields room offer index) s :=
  judges_field hfind (fits_string room (Nat.zero_le room) s)

theorem fits_numbers : Fits (Reader.list .number : Reader α (List α)) Json.numbers 1 :=
  fits_number.list

/-! ## What lies on a canvas -/

theorem Matrix.fits : Fits (Matrix.reader : Reader α (Matrix α)) Matrix.json 1 := by
  intro room hroom m
  obtain ⟨room, rfl⟩ := Nat.exists_eq_add_of_le' hroom
  have hfields : Judges IsPlacedMismatch _ (Matrix.record.fields room m.json.offer 0) m :=
    ((((((judges_number rfl).map Matrix.mk).ap (judges_number rfl)).ap (judges_number rfl)).ap
      (judges_number rfl)).ap (judges_number rfl)).ap (judges_number rfl)
  refine (judges_row hfields (Nat.le_refl 6)).of_iff ?_
  simp [Matrix.json, Json.all_numbers, Matrix.toList, and_assoc]

theorem Color.fits : Fits (Color.reader : Reader α (Color α)) Color.json 1 := by
  intro room hroom c
  obtain ⟨room, rfl⟩ := Nat.exists_eq_add_of_le' hroom
  have hfields : Judges IsPlacedMismatch _ (Color.record.fields room c.json.offer 0) c :=
    (((judges_number rfl).map Color.mk).ap (judges_number rfl)).ap (judges_number rfl)
  refine (judges_row hfields (Nat.le_refl 3)).of_iff ?_
  simp [Color.json, Json.all_numbers, Color.channels, and_assoc]

theorem Box.fits : Fits (Box.reader : Reader α (Box α)) Box.json 1 := by
  intro room hroom b
  obtain ⟨room, rfl⟩ := Nat.exists_eq_add_of_le' hroom
  have hfields : Judges IsPlacedMismatch _ (Box.record.fields room b.json.offer 0) b :=
    ((((judges_number rfl).map Box.mk).ap (judges_number rfl)).ap (judges_number rfl)).ap
      (judges_number rfl)
  have hnames : ["x", "y", "w", "h"].Nodup := by decide
  refine (judges_object hfields (List.Sublist.refl _) hnames).of_iff ?_
  simp [Box.json, Json.All, Json.AllMembers, and_assoc]

theorem PageSize.fits : Fits (PageSize.reader : Reader α (PageSize α)) PageSize.json 1 := by
  intro room hroom s
  obtain ⟨room, rfl⟩ := Nat.exists_eq_add_of_le' hroom
  have hfields : Judges IsPlacedMismatch _ (PageSize.record.fields room s.json.offer 0) s :=
    ((judges_number rfl).map PageSize.mk).ap (judges_number rfl)
  have hnames : ["widthMm", "heightMm"].Nodup := by decide
  refine (judges_object hfields (List.Sublist.refl _) hnames).of_iff ?_
  simp [PageSize.json, Json.All, Json.AllMembers]

/-- The letter and the coordinates of a segment as they are written. -/
def Segment.partsJson (parts : String × List α) : Json α :=
  .object [("o", .string parts.1), ("a", .numbers parts.2)]

theorem Segment.fits_record :
    Fits (Segment.record.reader : Reader α (String × List α)) Segment.partsJson 2 := by
  intro room hroom parts
  obtain ⟨room, rfl⟩ := Nat.exists_eq_add_of_le' (Nat.le_of_succ_le hroom)
  have hletter : Judges IsPlacedMismatch True
      ((required "o" .string).fields room (Segment.partsJson parts).offer 0) parts.1 :=
    judges_string rfl
  have hfields : Judges IsPlacedMismatch _
      (Segment.record.fields room (Segment.partsJson parts).offer 0) parts :=
    (hletter.map Prod.mk).ap
      (judges_field rfl (fits_numbers room (Nat.le_of_succ_le_succ hroom) parts.2))
  have hnames : ["o", "a"].Nodup := by decide
  refine (judges_object hfields (List.Sublist.refl _) hnames).of_iff ?_
  simp [Segment.partsJson, Json.All, Json.AllMembers]

theorem Segment.fits : Fits (Segment.reader : Reader α (Segment α)) Segment.json 2 :=
  Segment.fits_record.filterMap (g := fun s : Segment α => (s.letter, s.coordinates))
    Segment.ofLetter?_letter

/-! ## Drawings -/

omit [Written α] [LawfulWritten α] in
theorem Color.optionJson_eq :
    (Color.optionJson : Option (Color α) → Json α) = Json.ofOption Color.json := by
  funext c
  cases c <;> rfl

theorem Shape.fits : Fits (Shape.reader : Reader α (Shape α)) Shape.json 4 := by
  intro room hroom s
  obtain ⟨room, rfl⟩ := Nat.exists_eq_add_of_le' (Nat.le_trans (by decide : 1 ≤ 4) hroom)
  have hsegments := Segment.fits.list room (by omega) s.segments
  have hcolor := (Color.fits (α := α)).nullable nofun room (by omega)
  rw [← Color.optionJson_eq] at hcolor
  have hbox := Box.fits room (by omega) s.box
  have hfields : Judges IsPlacedMismatch _ (Shape.record.fields room s.json.offer 0) s :=
    (((((judges_field rfl hsegments).map Shape.mk).ap (judges_field rfl (hcolor s.fill))).ap
      (judges_field rfl (hcolor s.stroke))).ap (judges_number rfl)).ap (judges_field rfl hbox)
  have hnames : ["segments", "fill", "stroke", "strokeWidthMm", "bbox"].Nodup := by decide
  refine (judges_object hfields (List.Sublist.refl _) hnames).of_iff ?_
  simp [Shape.json, Json.All, Json.AllMembers, and_assoc]

theorem Label.fits : Fits (Label.reader : Reader α (Label α)) Label.json 1 := by
  intro room hroom l
  obtain ⟨room, rfl⟩ := Nat.exists_eq_add_of_le' hroom
  have htext : Judges IsPlacedMismatch True
      ((required "text" .string).fields room l.json.offer 0) l.text := judges_string rfl
  have hfields : Judges IsPlacedMismatch _ (Label.record.fields room l.json.offer 0) l :=
    (((((htext.map Label.mk).ap (judges_number rfl)).ap (judges_number rfl)).ap
      (judges_number rfl)).ap (judges_number rfl)).ap (judges_number rfl)
  have hnames : ["text", "xMm", "yMm", "fontSize", "widthMm", "heightMm"].Nodup := by decide
  refine (judges_object hfields (List.Sublist.refl _) hnames).of_iff ?_
  simp [Label.json, Json.All, Json.AllMembers, and_assoc]

theorem Drawing.fits : Fits (Drawing.reader : Reader α (Drawing α)) Drawing.json 6 := by
  intro room hroom d
  obtain ⟨room, rfl⟩ := Nat.exists_eq_add_of_le' (Nat.le_trans (by decide : 1 ≤ 6) hroom)
  have hpage := PageSize.fits room (by omega) d.page
  have hshapes := Shape.fits.list room (by omega) d.shapes
  have hlabels := Label.fits.list room (by omega) d.labels
  have hfields : Judges IsPlacedMismatch _ (Drawing.record.fields room d.json.offer 0) d :=
    (((judges_field rfl hpage).map Drawing.mk).ap (judges_field rfl hshapes)).ap
      (judges_field rfl hlabels)
  have hnames : ["page", "shapes", "texts"].Nodup := by decide
  refine (judges_object hfields (List.Sublist.refl _) hnames).of_iff ?_
  simp [Drawing.json, Json.All, Json.AllMembers, and_assoc]

/-! ## Text runs -/

theorem TextRun.fits [Scalar α] : Fits (TextRun.reader : Reader α (TextRun α)) TextRun.json 2 := by
  intro room hroom r
  obtain ⟨room, rfl⟩ := Nat.exists_eq_add_of_le' (Nat.le_of_succ_le hroom)
  have htext : Judges IsPlacedMismatch True
      ((required "str" .string).fields room r.json.offer 0) r.text := judges_string rfl
  have htransform := Matrix.fits room (Nat.le_of_succ_le_succ hroom) r.transform
  have hfields : Judges IsPlacedMismatch _ (TextRun.record.fields room r.json.offer 0) r :=
    ((htext.map TextRun.mk).ap (judges_field rfl htransform)).ap (judges_number rfl)
  have hnames : ["str", "transform", "width"].Nodup := by decide
  refine (judges_object hfields (List.Sublist.refl _) hnames).of_iff ?_
  simp [TextRun.json, Json.All, Json.AllMembers]

end Numbers

/-! ## What is read can be written -/

theorem Matrix.yields : Yields (Matrix.reader : Reader α (Matrix α)) Matrix.json := by
  have number := (yields_number (α := α)).required
  refine (((((((number "a").map Matrix.mk).seq (number "b")).seq (number "c")).seq
    (number "d")).seq (number "e")).seq (number "f")).row ?_
  rintro m ⟨_, f, ⟨_, e, ⟨_, d, ⟨_, c, ⟨_, b, ⟨a, ha, rfl⟩, hb, rfl⟩, hc, rfl⟩, hd, rfl⟩, he, rfl⟩,
    hf, rfl⟩
  exact ⟨ha, hb, hc, hd, he, hf, trivial⟩

theorem Color.yields : Yields (Color.reader : Reader α (Color α)) Color.json := by
  have number := (yields_number (α := α)).required
  refine ((((number "red").map Color.mk).seq (number "green")).seq (number "blue")).row ?_
  rintro c ⟨_, blue, ⟨_, green, ⟨red, hred, rfl⟩, hgreen, rfl⟩, hblue, rfl⟩
  exact ⟨hred, hgreen, hblue, trivial⟩

theorem Box.yields : Yields (Box.reader : Reader α (Box α)) Box.json := by
  have number := (yields_number (α := α)).required
  refine (((((number "x").map Box.mk).seq (number "y")).seq (number "w")).seq
    (number "h")).reader ?_
  rintro b ⟨_, h, ⟨_, w, ⟨_, y, ⟨x, hx, rfl⟩, hy, rfl⟩, hw, rfl⟩, hh, rfl⟩
  exact ⟨hx, hy, hw, hh, trivial⟩

theorem PageSize.yields : Yields (PageSize.reader : Reader α (PageSize α)) PageSize.json := by
  have number := (yields_number (α := α)).required
  refine (((number "widthMm").map PageSize.mk).seq (number "heightMm")).reader ?_
  rintro s ⟨_, height, ⟨width, hwidth, rfl⟩, hheight, rfl⟩
  exact ⟨hwidth, hheight, trivial⟩

omit [Written α] in
theorem Segment.coordinates_of_ofLetter? {letter : String} {xs : List α} {s : Segment α}
    (h : ofLetter? letter xs = some s) : s.coordinates = xs := by
  unfold ofLetter? at h
  split at h
  case h_5 => cases h
  all_goals
    cases h
    rfl

theorem Segment.yields : Yields (Segment.reader : Reader α (Segment α)) Segment.json := by
  have hparts : Yields (Segment.record.reader : Reader α (String × List α)) Segment.partsJson := by
    refine (((yields_string.required "o").map Prod.mk).seq
      ((yields_number (α := α)).list.defaulted "a" (b := []) trivial)).reader ?_
    rintro parts ⟨_, xs, ⟨letter, hletter, rfl⟩, hxs, rfl⟩
    exact ⟨hletter, hxs, trivial⟩
  refine hparts.filterMap fun parts s hs hok => ?_
  obtain ⟨-, hxs, -⟩ := hok
  have hcoordinates := Segment.coordinates_of_ofLetter? hs
  exact ⟨trivial, hcoordinates ▸ hxs, trivial⟩

theorem Shape.yields : Yields (Shape.reader : Reader α (Shape α)) Shape.json := by
  have color := (Color.yields (α := α)).optional
  refine ((((((Segment.yields (α := α)).list.required "segments").map Shape.mk).seq
    (color "fill")).seq (color "stroke")).seq (yields_number.required "strokeWidthMm")).seq
    (Box.yields.required "bbox") |>.reader ?_
  rintro s ⟨_, box, ⟨_, width, ⟨_, stroke, ⟨_, fill, ⟨segments, hsegments, rfl⟩, hfill, rfl⟩,
    hstroke, rfl⟩, hwidth, rfl⟩, hbox, rfl⟩
  rw [← Color.optionJson_eq] at hfill hstroke
  exact ⟨hsegments, hfill, hstroke, hwidth, hbox, trivial⟩

theorem Label.yields : Yields (Label.reader : Reader α (Label α)) Label.json := by
  have number := (yields_number (α := α)).required
  refine (((((((yields_string.required "text").map Label.mk).seq (number "xMm")).seq
    (number "yMm")).seq (number "fontSize")).seq (number "widthMm")).seq
    (number "heightMm")).reader ?_
  rintro l ⟨_, height, ⟨_, width, ⟨_, size, ⟨_, y, ⟨_, x, ⟨text, htext, rfl⟩, hx, rfl⟩, hy, rfl⟩,
    hsize, rfl⟩, hwidth, rfl⟩, hheight, rfl⟩
  exact ⟨htext, hx, hy, hsize, hwidth, hheight, trivial⟩

theorem Drawing.yields : Yields (Drawing.reader : Reader α (Drawing α)) Drawing.json := by
  refine ((((PageSize.yields (α := α)).required "page").map Drawing.mk).seq
    (Shape.yields.list.required "shapes")).seq (Label.yields.list.required "texts") |>.reader ?_
  rintro d ⟨_, labels, ⟨_, shapes, ⟨page, hpage, rfl⟩, hshapes, rfl⟩, hlabels, rfl⟩
  exact ⟨hpage, hshapes, hlabels, trivial⟩

theorem TextRun.yields [Scalar α] (hzero : Written.Spelled (0.0 : α)) :
    Yields (TextRun.reader : Reader α (TextRun α)) TextRun.json := by
  refine ((((yields_string.required "str").map TextRun.mk).seq
    (Matrix.yields.required "transform")).seq (yields_number.defaulted "width" hzero)).reader ?_
  rintro r ⟨_, width, ⟨_, transform, ⟨text, htext, rfl⟩, htransform, rfl⟩, hwidth, rfl⟩
  exact ⟨htext, htransform, hwidth, trivial⟩

/-! ## Operands -/

namespace Operand

omit [Written α] in
mutual

/-- An operand is written as the value that it was read from. -/
theorem json_of_ofJson? : ∀ {j : Json α} {o : Operand α}, ofJson? j = some o → o.json = j
  | .number x, _, h | .null, _, h => by
    cases h
    rfl
  | .string s, _, h => by
    cases h
    exact congrArg Json.string (Operator.name_ofName s)
  | .array items, _, h => by
    obtain ⟨os, hos, rfl⟩ := Option.map_eq_some_iff.mp h
    exact congrArg Json.array (jsons_of_ofJsons? hos)
  | .bool _, _, h | .object _, _, h => by cases h

theorem jsons_of_ofJsons? : ∀ {js : List (Json α)} {os : List (Operand α)},
    ofJsons? js = some os → jsons os = js
  | [], _, h => by
    cases h
    rfl
  | j :: rest, _, h => by
    simp only [ofJsons?, Option.bind_eq_bind, Option.bind_eq_some_iff] at h
    obtain ⟨o, ho, os, hos, h⟩ := h
    cases h
    rw [jsons, json_of_ofJson? ho, jsons_of_ofJsons? hos]

end

theorem yields : Yields (reader : Reader α (Operand α)) json := by
  intro room v o hv h
  obtain ⟨j, hread, ho⟩ := Reader.filterMap_ok h
  rw [json_of_ofJson? ho]
  exact Outline.all_keep hv hread

theorem survives [LawfulWritten α] : Survives (reader : Reader α (Operand α)) json 0 := by
  intro room v o _ hv h
  obtain ⟨j, hread, ho⟩ := Reader.filterMap_ok h
  rw [json_of_ofJson? ho]
  exact Reader.filterMap_of_ok (Outline.keep_outline hv hread) ho

end Operand

/-! ## Entries and page documents -/

theorem Entry.yields : Yields (Entry.reader : Reader α (Entry α)) Entry.json := by
  refine ((yields_string.required "fn").map _).seq
    ((Operand.yields (α := α)).list.defaulted "args" (b := []) trivial) |>.reader ?_
  rintro e ⟨_, operands, ⟨name, hname, rfl⟩, hoperands, rfl⟩
  exact ⟨hname, hoperands, trivial⟩

theorem PageDocument.yields [Scalar α] (hzero : Written.Spelled (0.0 : α)) :
    Yields (PageDocument.reader : Reader α (PageDocument α)) PageDocument.json := by
  have number := (yields_number (α := α)).required
  refine ((((number "width").map PageDocument.mk).seq (number "height")).seq
    (Entry.yields.list.nullable.defaulted "operators" (b := none) trivial)).seq
    ((TextRun.yields hzero).list.nullable.defaulted "textItems" (b := none) trivial) |>.reader ?_
  rintro d ⟨_, texts, ⟨_, operators, ⟨_, height, ⟨width, hwidth, rfl⟩, hheight, rfl⟩, hoperators,
    rfl⟩, htexts, rfl⟩
  cases operators with
  | none =>
    cases texts with
    | none => exact ⟨hwidth, hheight, trivial⟩
    | some runs => exact ⟨hwidth, hheight, htexts, trivial⟩
  | some entries =>
    cases texts with
    | none => exact ⟨hwidth, hheight, hoperators, trivial⟩
    | some runs => exact ⟨hwidth, hheight, hoperators, htexts, trivial⟩

section Documents

variable [LawfulWritten α]

omit [LawfulWritten α] in
/-- A listing that was read is read from what is written of it, if anything is. -/
theorem Survives.listing {β : Type} {r : Reader α β} {w : β → Json α} {need room index : Nat}
    {name : String} {offer : Offer α} {found : Option (List β)} (h : Survives r w need)
    (hoffer : offer.Spelled) (hroom : need + 1 ≤ room)
    (hread : (defaulted name r.list.nullable none).fields room offer index = .ok found) :
    ∀ items, found = some items →
      r.list.nullable room (Json.array (items.map w)).outline = .ok (some items) := by
  rintro items rfl
  rcases field_ok hread with ⟨v, hv, hread⟩ | ⟨-, hnone⟩
  · rcases Reader.nullable_ok hread with ⟨-, hnone⟩ | ⟨-, items', hitems, hread⟩
    · cases hnone
    · cases hitems
      have hne : (Json.array (items.map w)).outline ≠ .null := nofun
      rw [Reader.nullable_of_ne_null hne, h.list hroom (Offer.spelled_find hoffer hv) hread]
      rfl
  · simp at hnone

theorem Entry.survives : Survives (Entry.reader : Reader α (Entry α)) Entry.json 2 := by
  intro room v e hroom hv h
  obtain ⟨room, offer, rfl, hoffer, h⟩ := Record.reader_ok h
  have hoffer := Offer.spelled_of_offer? hoffer hv
  obtain ⟨_, operands, hname, hoperands, rfl⟩ := Placed.ap_ok h
  obtain ⟨name, -, rfl⟩ := Placed.map_ok hname
  have hlist : (Reader.list Operand.reader : Reader α _) room
      (Json.array (operands.map Operand.json)).outline = .ok operands := by
    obtain ⟨room, rfl⟩ := Nat.exists_eq_add_of_le' (Nat.le_of_succ_le_succ hroom)
    rcases field_ok hoperands with ⟨u, hu, hread⟩ | ⟨-, hnone⟩
    · exact Operand.survives.list (by omega) (Offer.spelled_find hoffer hu) hread
    · obtain rfl : [] = operands := by simpa using hnone
      rfl
  obtain ⟨e, he⟩ : ∃ e, Entry.mk (.ofName name) operands = e := ⟨_, rfl⟩
  show Entry.reader (room + 1) (Entry.mk (.ofName name) operands).json.outline =
    .ok (Entry.mk (.ofName name) operands)
  rw [he]
  have hword : Judges IsPlacedMismatch True
      ((required "fn" .string).fields room e.json.offer 0) e.operator.name := judges_string rfl
  have hargs : Judges IsPlacedMismatch True
      ((defaulted "args" (.list Operand.reader) []).fields room e.json.offer 1) e.operands :=
    judges_field rfl (.of_ok (by rw [← he]; exact hlist))
  have hfields : Judges IsPlacedMismatch _ (Entry.record.fields room e.json.offer 0) _ :=
    (hword.map fun name operands => Entry.mk (.ofName name) operands).ap hargs
  have hnames : ["fn", "args"].Nodup := by decide
  have hread := (judges_object hfields (List.Sublist.refl _) hnames).accepts ⟨trivial, trivial⟩
  rw [Operator.ofName_name] at hread
  exact hread

theorem PageDocument.survives [Scalar α] (hzero : Written.Spelled (0.0 : α)) :
    Survives (PageDocument.reader : Reader α (PageDocument α)) PageDocument.json 4 := by
  intro room v d hroom hv h
  obtain ⟨room, offer, rfl, hoffer, h⟩ := Record.reader_ok h
  have hoffer := Offer.spelled_of_offer? hoffer hv
  obtain ⟨_, texts, h₃, htexts, rfl⟩ := Placed.ap_ok h
  obtain ⟨_, operators, h₂, hoperators, rfl⟩ := Placed.ap_ok h₃
  obtain ⟨_, height, h₁, hheight, rfl⟩ := Placed.ap_ok h₂
  obtain ⟨width, hwidth, rfl⟩ := Placed.map_ok h₁
  have hwidth := (yields_number.required "width") hoffer hwidth
  have hheight := (yields_number.required "height") hoffer hheight
  have hentries := Entry.survives.listing hoffer (by omega) hoperators
  have hruns := (TextRun.fits.survives (TextRun.yields hzero)).listing hoffer (by omega) htexts
  have hnames : ["width", "height", "operators", "textItems"].Nodup := by decide
  obtain ⟨d, hd⟩ : ∃ d, PageDocument.mk width height operators texts = d := ⟨_, rfl⟩
  have hoperators : Judges IsPlacedMismatch True
      ((defaulted "operators" (.nullable (.list Entry.reader)) none).fields room d.json.offer 2)
        d.operators := by
    subst hd
    cases operators with
    | none => cases texts <;> exact .of_ok rfl
    | some entries => exact judges_field rfl (.of_ok (hentries entries rfl))
  have htexts : Judges IsPlacedMismatch True
      ((defaulted "textItems" (.nullable (.list TextRun.reader)) none).fields room d.json.offer 3)
        d.texts := by
    subst hd
    cases texts with
    | none => cases operators <;> exact .of_ok rfl
    | some runs => cases operators <;> exact judges_field rfl (.of_ok (hruns runs rfl))
  have hfields : Judges IsPlacedMismatch _ (PageDocument.record.fields room d.json.offer 0) d :=
    ((((judges_number rfl).map PageDocument.mk).ap (judges_number rfl)).ap hoperators).ap htexts
  have hread : ∀ {members}, d.json = .object members →
      (members.map Prod.fst).Sublist ["width", "height", "operators", "textItems"] →
      PageDocument.reader (room + 1) d.json.outline = .ok d := by
    intro members hmembers hsublist
    rw [hmembers] at hfields ⊢
    exact (judges_object hfields hsublist hnames).accepts
      ⟨⟨⟨hd ▸ hwidth, hd ▸ hheight⟩, trivial⟩, trivial⟩
  show PageDocument.reader (room + 1) (PageDocument.mk width height operators texts).json.outline =
    .ok (PageDocument.mk width height operators texts)
  rw [hd]
  refine hread rfl ?_
  have hkeys : ∀ entries runs : Bool,
      (["width", "height"] ++ (if entries then ["operators"] else []) ++
        (if runs then ["textItems"] else [])).Sublist
          ["width", "height", "operators", "textItems"] := by decide
  subst hd
  rcases operators with _ | entries <;> rcases texts with _ | runs
  · exact hkeys false false
  · exact hkeys false true
  · exact hkeys true false
  · exact hkeys true true

end Documents

/-! ## The vocabulary -/

/-- The types of the data files.  A painted path and a merged one have the same form. -/
inductive WireType
  | pageDocument
  | entry
  | operand
  | textRun
  | segment
  | box
  | color
  | pageSize
  | rawShape
  | compoundShape
  | label
  | drawing
deriving DecidableEq, Repr

namespace WireType

abbrev Value (α : Type) : WireType → Type
  | pageDocument => PageDocument α
  | entry => Entry α
  | operand => Operand α
  | textRun => TextRun α
  | segment => Segment α
  | box => Box α
  | color => Color α
  | pageSize => PageSize α
  | rawShape | compoundShape => Shape α
  | label => Label α
  | drawing => Drawing α

def reader [Scalar α] : (t : WireType) → Reader α (t.Value α)
  | pageDocument => PageDocument.reader
  | entry => Entry.reader
  | operand => Operand.reader
  | textRun => TextRun.reader
  | segment => Segment.reader
  | box => Box.reader
  | color => Color.reader
  | pageSize => PageSize.reader
  | rawShape | compoundShape => Shape.reader
  | label => Label.reader
  | drawing => Drawing.reader

def json : (t : WireType) → t.Value α → Json α
  | pageDocument => PageDocument.json
  | entry => Entry.json
  | operand => Operand.json
  | textRun => TextRun.json
  | segment => Segment.json
  | box => Box.json
  | color => Color.json
  | pageSize => PageSize.json
  | rawShape | compoundShape => Shape.json
  | label => Label.json
  | drawing => Drawing.json

theorem survives [Scalar α] [LawfulWritten α] (hzero : Written.Spelled (0.0 : α)) (t : WireType) :
    Survives (t.reader (α := α)) t.json Reader.maxDepth := by
  have hdepth : ∀ {β : Type} {r : Reader α β} {w : β → Json α} {need : Nat},
      need ≤ Reader.maxDepth → Survives r w need → Survives r w Reader.maxDepth :=
    fun hneed h _ _ _ hroom => h (Nat.le_trans hneed hroom)
  cases t with
  | pageDocument => exact hdepth (by decide) (PageDocument.survives hzero)
  | entry => exact hdepth (by decide) Entry.survives
  | operand => exact hdepth (by decide) Operand.survives
  | textRun => exact hdepth (by decide) (TextRun.fits.survives (TextRun.yields hzero))
  | segment => exact hdepth (by decide) (Segment.fits.survives Segment.yields)
  | box => exact hdepth (by decide) (Box.fits.survives Box.yields)
  | color => exact hdepth (by decide) (Color.fits.survives Color.yields)
  | pageSize => exact hdepth (by decide) (PageSize.fits.survives PageSize.yields)
  | rawShape | compoundShape => exact hdepth (by decide) (Shape.fits.survives Shape.yields)
  | label => exact hdepth (by decide) (Label.fits.survives Label.yields)
  | drawing => exact hdepth (by decide) (Drawing.fits.survives Drawing.yields)

/-- A text that is read as a value of the vocabulary. -/
theorem decode_text_of_decode [Scalar α] [LawfulWritten α] (hzero : Written.Spelled (0.0 : α))
    (t : WireType) {text : List Char} {v : t.Value α} (h : t.reader.decode text = .ok v)
    (sp : Spacing) :
    t.reader.decode ((t.json v).text sp).toList = .ok v := by
  have hspelled : (Outline.ofText (α := α) text).1.All Written.Spelled :=
    Outline.all_ofText (fun _ _ => LawfulWritten.spelled_of_ofNumeral?) text
  rw [Reader.decode_text]
  exact survives hzero t (Nat.le_refl _) hspelled (Reader.ok_of_decode h)

end WireType

end Artwork
