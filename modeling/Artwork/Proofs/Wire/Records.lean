import Artwork.Proofs.Json.Spelling
import Artwork.Proofs.Wire.Refusal

/-!
# Readers and writers that fit together

A writer `w` fits a reader `r` when `r` makes of a written value the value itself, or refuses it
because one of its numbers has no spelling (`Fits`).  The numbers of a value that was read all have
one (`Yields`), so that it survives being written and read again (`Survives`).  Each of the three
goes from the parts of a value to the whole, along the ways in which readers are put together.
-/

namespace Artwork

variable {α β γ : Type}

theorem exists_of_bind_ok {ε : Type} {x : Except ε β} {f : β → Except ε γ} {c : γ}
    (h : x >>= f = .ok c) : ∃ b, x = .ok b ∧ f b = .ok c := by
  cases x with
  | error e => cases h
  | ok b => exact ⟨b, rfl, h⟩

/-- A read that gives `b` just when `ok` holds, and a fault that is `bad` otherwise. -/
structure Judges {ε : Type} (bad : ε → Prop) (ok : Prop) (x : Except ε β) (b : β) : Prop where
  accepts : ok → x = .ok b
  refuses : ¬ ok → ∃ e, bad e ∧ x = .error e

namespace Judges

variable {ε ζ : Type} {bad : ε → Prop} {ok : Prop} {x : Except ε β} {b : β}

theorem map (h : Judges bad ok x b) (g : β → γ) : Judges bad ok (x.map g) (g b) where
  accepts hok := by rw [h.accepts hok]; rfl
  refuses hok := by
    obtain ⟨e, he, hx⟩ := h.refuses hok
    exact ⟨e, he, by rw [hx]; rfl⟩

theorem mapError {bad' : ζ → Prop} {g : ε → ζ} (h : Judges bad ok x b)
    (hg : ∀ e, bad e → bad' (g e)) : Judges bad' ok (x.mapError g) b where
  accepts hok := by rw [h.accepts hok]; rfl
  refuses hok := by
    obtain ⟨e, he, hx⟩ := h.refuses hok
    exact ⟨g e, hg e he, by rw [hx]; rfl⟩

theorem of_ok (h : x = .ok b) : Judges bad True x b where
  accepts _ := h
  refuses hok := absurd trivial hok

theorem of_iff {ok' : Prop} (h : Judges bad ok x b) (hiff : ok' ↔ ok) : Judges bad ok' x b where
  accepts hok := h.accepts (hiff.mp hok)
  refuses hok := h.refuses fun hok' => hok (hiff.mpr hok')

theorem ap {ok' : Prop} {f : Placed (β → γ)} {x : Placed β} {g : β → γ} {b : β}
    {bad : Nat × Fault → Prop} (hf : Judges bad ok f g) (hx : Judges bad ok' x b) :
    Judges bad (ok ∧ ok') (Placed.ap f x) (g b) where
  accepts hok := by rw [hf.accepts hok.1, hx.accepts hok.2]; rfl
  refuses hok := by
    by_cases hokf : ok
    · obtain ⟨e, he, hxe⟩ := hx.refuses fun hokx => hok ⟨hokf, hokx⟩
      exact ⟨e, he, by rw [hf.accepts hokf, hxe]; rfl⟩
    · obtain ⟨e, he, hfe⟩ := hf.refuses hokf
      by_cases hokx : ok'
      · exact ⟨e, he, by rw [hfe, hx.accepts hokx]; rfl⟩
      · -- Of two faults either one may be the answer.
        obtain ⟨e', he', hxe⟩ := hx.refuses hokx
        rw [hfe, hxe, Placed.ap]
        split
        · exact ⟨e', he', rfl⟩
        · exact ⟨e, he, rfl⟩

end Judges

abbrev IsMismatch (f : Fault) : Prop := f = .mismatch

/-- A fault of the wanted kind, wherever it stands. -/
abbrev IsPlacedMismatch (e : Nat × Fault) : Prop := e.2 = .mismatch

section Definitions

variable [Written α] (r : Reader α β) (w : β → Json α)

/-- What `w` writes `r` reads back, inside of any place where `need` more lists and objects may be
opened. -/
def Fits (need : Nat) : Prop :=
  ∀ room, need ≤ room → ∀ b,
    Judges IsMismatch ((w b).All Written.Spelled) (r room (w b).outline) b

/-- What `r` reads has spelled numbers only, when the outline has. -/
def Yields : Prop :=
  ∀ ⦃room : Nat⦄ ⦃v : Outline α⦄ ⦃b : β⦄, v.All Written.Spelled → r room v = .ok b →
    (w b).All Written.Spelled

/-- What `r` reads somewhere `w` writes so that `r` reads it there again. -/
def Survives (need : Nat) : Prop :=
  ∀ ⦃room : Nat⦄ ⦃v : Outline α⦄ ⦃b : β⦄, need ≤ room → v.All Written.Spelled → r room v = .ok b →
    r room (w b).outline = .ok b

end Definitions

section Readers

variable [Written α] {r : Reader α β} {w : β → Json α} {need : Nat}

theorem Fits.survives (h : Fits r w need) (hy : Yields r w) : Survives r w need :=
  fun _ _ _ hroom hv hb => (h _ hroom _).accepts (hy hv hb)

theorem fits_number [LawfulWritten α] : Fits (Reader.number : Reader α α) .number 0 := by
  intro room _ x
  by_cases hx : Written.Spelled x
  · rw [Json.outline_number_spelled hx]
    exact ⟨fun _ => rfl, fun h => absurd hx h⟩
  · rw [Json.outline_number_unspelled hx]
    exact ⟨fun h => absurd h hx, fun _ => ⟨.mismatch, rfl, rfl⟩⟩

theorem yields_number : Yields (Reader.number : Reader α α) .number := by
  intro room v x hv h
  cases v with
  | number y => cases h; exact hv
  | _ => cases h

theorem fits_string : Fits (Reader.string : Reader α String) .string 0 :=
  fun _ _ _ => ⟨fun _ => rfl, fun h => absurd trivial h⟩

theorem yields_string : Yields (Reader.string : Reader α String) .string :=
  fun _ _ _ _ _ => trivial

/-- A value that may be missing, written as `null` then. -/
def Json.ofOption (w : β → Json α) : Option β → Json α
  | some b => w b
  | none => .null

omit [Written α] in
theorem Reader.nullable_of_ne_null {room : Nat} {v : Outline α} (h : v ≠ .null) :
    r.nullable room v = (r room v).map some := by
  rw [Reader.nullable]
  exact h

omit [Written α] in
theorem Reader.nullable_ok {room : Nat} {v : Outline α} {found : Option β}
    (h : r.nullable room v = .ok found) :
    v = .null ∧ found = none ∨ v ≠ .null ∧ ∃ b, found = some b ∧ r room v = .ok b := by
  by_cases hv : v = .null
  · subst hv
    cases h
    exact .inl ⟨rfl, rfl⟩
  · rw [Reader.nullable_of_ne_null hv] at h
    cases hread : r room v with
    | error e =>
      rw [hread] at h
      cases h
    | ok b =>
      rw [hread] at h
      cases h
      exact .inr ⟨hv, b, rfl, rfl⟩

theorem Fits.nullable (h : Fits r w need) (hw : ∀ b, (w b).outline ≠ .null) :
    Fits r.nullable (Json.ofOption w) need := by
  intro room hroom b
  cases b with
  | none => exact ⟨fun _ => rfl, fun hok => absurd trivial hok⟩
  | some b =>
    show Judges _ ((w b).All _) (r.nullable room (w b).outline) (some b)
    rw [Reader.nullable_of_ne_null (hw b)]
    exact (h room hroom b).map some

theorem Yields.nullable (h : Yields r w) : Yields r.nullable (Json.ofOption w) := by
  intro room v found hv hfound
  rcases Reader.nullable_ok hfound with ⟨-, rfl⟩ | ⟨-, b, rfl, hread⟩
  · trivial
  · exact h hv hread

theorem exists_of_mapM_ok {f : β → Except Fault γ} {xs : List β} {ys : List γ}
    (h : xs.mapM f = .ok ys) {y : γ} (hy : y ∈ ys) : ∃ x ∈ xs, f x = .ok y := by
  induction xs generalizing ys with
  | nil =>
    cases h
    cases hy
  | cons x xs ih =>
    rw [List.mapM_cons] at h
    obtain ⟨z, hx, h⟩ := exists_of_bind_ok h
    obtain ⟨zs, hxs, h⟩ := exists_of_bind_ok h
    cases h
    rcases List.mem_cons.mp hy with rfl | hy
    · exact ⟨x, List.mem_cons_self, hx⟩
    · obtain ⟨x', hx', hread⟩ := ih hxs hy
      exact ⟨x', List.mem_cons_of_mem x hx', hread⟩

theorem Reader.ok_of_decode {r : Reader α β} {text : List Char} {b : β}
    (h : r.decode text = .ok b) : r maxDepth (Outline.ofText text).1 = .ok b := by
  obtain ⟨b', hread, h⟩ := exists_of_bind_ok h
  split at h
  · cases h
  · cases h
    exact hread

/-- A list or an object that was read to its end has no break there. -/
theorem ending_ok {stop : Option Fault} {b c : β} (h : Outline.ending b stop = .ok c) :
    stop = none ∧ b = c := by
  cases stop with
  | none => exact ⟨rfl, Except.ok.inj h⟩
  | some f => cases h

theorem deeper_ok {room room' : Nat} (h : Outline.deeper room = .ok room') : room = room' + 1 := by
  cases room with
  | zero => cases h
  | succ n => rw [Except.ok.inj h]

omit [Written α] in
theorem Reader.list_ok {room : Nat} {v : Outline α} {bs : List β} (h : r.list room v = .ok bs) :
    ∃ room' items, room = room' + 1 ∧ v = .array items none ∧
      ∀ b ∈ bs, ∃ u ∈ items, r room' u = .ok b := by
  cases v with
  | array items stop =>
    obtain ⟨room', hroom, h⟩ := exists_of_bind_ok h
    obtain ⟨xs, hitems, h⟩ := exists_of_bind_ok h
    obtain ⟨rfl, rfl⟩ := ending_ok h
    exact ⟨room', items, deeper_ok hroom, rfl, fun b hb => exists_of_mapM_ok hitems hb⟩
  | _ => cases h

theorem Reader.list_written {room : Nat} {bs : List β}
    (h : ∀ b ∈ bs, r room (w b).outline = .ok b) :
    r.list (room + 1) (Json.array (bs.map w)).outline = .ok bs := by
  have hitems : ((bs.map w).map Json.outline).mapM (r room) = .ok bs := by
    induction bs with
    | nil => rfl
    | cons b bs ih =>
      obtain ⟨hb, hbs⟩ := List.forall_mem_cons.mp h
      rw [List.map_cons, List.map_cons, List.mapM_cons, hb, ih hbs]
      rfl
  rw [Json.outline, Json.outlines_eq_map]
  show ((bs.map w).map Json.outline).mapM (r room) >>= (fun xs => Outline.ending xs none) = _
  rw [hitems]
  rfl

theorem Fits.list (h : Fits r w need) :
    Fits r.list (fun bs => .array (bs.map w)) (need + 1) := by
  intro room hroom bs
  obtain ⟨room, rfl⟩ : ∃ n, room = n + 1 := ⟨room - 1, by omega⟩
  have hitem := h room (by omega)
  have hall : (Json.array (bs.map w)).All Written.Spelled ↔
      ∀ b ∈ bs, (w b).All Written.Spelled := by
    simp [Json.All, Json.allItems_iff]
  refine ⟨fun hok => Reader.list_written fun b hb => (hitem b).accepts (hall.mp hok b hb), ?_⟩
  intro hbad
  refine ⟨.mismatch, rfl, ?_⟩
  rw [Json.outline, Json.outlines_eq_map]
  show ((bs.map w).map Json.outline).mapM (r room) >>= (fun xs => Outline.ending xs none) = _
  -- The first item that is refused ends the read.
  rw [hall] at hbad
  suffices hfail : ((bs.map w).map Json.outline).mapM (r room) = .error .mismatch by
    rw [hfail]
    rfl
  clear hall
  induction bs with
  | nil => exact absurd (List.forall_mem_nil _) hbad
  | cons b bs ih =>
    rw [List.map_cons, List.map_cons, List.mapM_cons]
    by_cases hb : (w b).All Written.Spelled
    · have hrest : ¬ ∀ b ∈ bs, (w b).All Written.Spelled :=
        fun hrest => hbad (List.forall_mem_cons.mpr ⟨hb, hrest⟩)
      rw [(hitem b).accepts hb, ih hrest]
      rfl
    · obtain ⟨e, rfl, he⟩ := (hitem b).refuses hb
      rw [he]
      rfl

theorem Yields.list (h : Yields r w) : Yields r.list (fun bs => .array (bs.map w)) := by
  intro room v bs hv hbs
  obtain ⟨room, items, rfl, rfl, hread⟩ := Reader.list_ok hbs
  show Json.AllItems _ _
  rw [Json.allItems_iff, List.forall_mem_map]
  intro b hb
  obtain ⟨u, hu, hub⟩ := hread b hb
  exact h (Outline.allItems_iff.mp hv u hu) hub

theorem Survives.list (h : Survives r w need) :
    Survives r.list (fun bs => .array (bs.map w)) (need + 1) := by
  intro room v bs hroom hv hbs
  obtain ⟨room, items, rfl, rfl, hread⟩ := Reader.list_ok hbs
  refine Reader.list_written fun b hb => ?_
  obtain ⟨u, hu, hub⟩ := hread b hb
  exact h (by omega) (Outline.allItems_iff.mp hv u hu) hub

omit [Written α] in
theorem Reader.filterMap_ok {f : β → Option γ} {room : Nat} {v : Outline α} {c : γ}
    (h : r.filterMap f room v = .ok c) : ∃ b, r room v = .ok b ∧ f b = some c := by
  obtain ⟨b, hread, h⟩ := exists_of_bind_ok h
  cases hf : f b with
  | none =>
    rw [hf] at h
    cases h
  | some d =>
    rw [hf] at h
    exact ⟨b, hread, congrArg some (Except.ok.inj h) ▸ hf⟩

omit [Written α] in
theorem Reader.filterMap_of_ok {f : β → Option γ} {room : Nat} {v : Outline α} {b : β} {c : γ}
    (hread : r room v = .ok b) (hb : f b = some c) : r.filterMap f room v = .ok c := by
  rw [Reader.filterMap, hread]
  show (match f b with
    | some c => Except.ok c
    | none => .error Fault.mismatch) = Except.ok c
  rw [hb]

theorem Yields.filterMap {f : β → Option γ} {w' : γ → Json α} (h : Yields r w)
    (hf : ∀ b c, f b = some c → (w b).All Written.Spelled → (w' c).All Written.Spelled) :
    Yields (r.filterMap f) w' := by
  intro room v c hv hc
  obtain ⟨b, hread, hb⟩ := Reader.filterMap_ok hc
  exact hf b c hb (h hv hread)

theorem Fits.filterMap {f : β → Option γ} {g : γ → β} (h : Fits r w need)
    (hfg : ∀ c, f (g c) = some c) : Fits (r.filterMap f) (fun c => w (g c)) need := by
  intro room hroom c
  obtain ⟨haccepts, hrefuses⟩ := h room hroom (g c)
  refine ⟨fun hok => Reader.filterMap_of_ok (haccepts hok) (hfg c), fun hbad => ?_⟩
  obtain ⟨e, he, hread⟩ := hrefuses hbad
  refine ⟨e, he, ?_⟩
  rw [Reader.filterMap, hread]
  rfl

end Readers

/-! ## Records -/

theorem Placed.ap_ok {f : Placed (β → γ)} {x : Placed β} {c : γ} (h : Placed.ap f x = .ok c) :
    ∃ g b, f = .ok g ∧ x = .ok b ∧ g b = c := by
  cases f with
  | error e =>
    obtain ⟨e', he⟩ := Placed.ap_error (γ := γ) e x
    rw [he] at h
    cases h
  | ok g =>
    cases x with
    | error e => cases h
    | ok b => exact ⟨g, b, rfl, rfl, Except.ok.inj h⟩

theorem Placed.map_ok {x : Placed β} {g : β → γ} {c : γ} (h : x.map g = .ok c) :
    ∃ b, x = .ok b ∧ g b = c := by
  cases x with
  | error e => cases h
  | ok b => exact ⟨b, rfl, Except.ok.inj h⟩

/-- The fields that a value offers, if it is one that a record can be read from. -/
def Outline.offer? : Outline α → Option (Offer α)
  | .object members _ => some (.members members)
  | .array items _ => some (.items items)
  | _ => none

namespace Record

theorem settle_ok {stray : Option (Nat × Fault)} {found : Placed β} {b : β}
    (h : settle stray found = .ok b) : found = .ok b := by
  cases found with
  | error e =>
    obtain ⟨f, hf⟩ := settle_error (β := β) stray e
    rw [hf] at h
    cases h
  | ok c =>
    cases stray with
    | some e => cases h
    | none => exact congrArg Except.ok (Except.ok.inj h)

variable {record : Record α β} {room index : Nat} {v : Outline α} {b : β}

theorem row_ok (h : record.row room v = .ok b) :
    ∃ room' offer, room = room' + 1 ∧ v.offer? = some offer ∧
      record.fields room' offer 0 = .ok b := by
  cases v with
  | array items stop =>
    cases room with
    | zero => cases h
    | succ room => exact ⟨room, .items items, rfl, rfl, settle_ok h⟩
  | _ => cases h

theorem reader_ok (h : record.reader room v = .ok b) :
    ∃ room' offer, room = room' + 1 ∧ v.offer? = some offer ∧
      record.fields room' offer 0 = .ok b := by
  cases v with
  | object members stop =>
    cases room with
    | zero => cases h
    | succ room => exact ⟨room, .members members, rfl, rfl, settle_ok h⟩
  | _ => exact row_ok h

/-- A field is read where it is offered; the value that stands in for it serves only where it is
not. -/
theorem field_ok {name : String} {r : Reader α β} {absent short : Option β} {offer : Offer α}
    (h : (field name r absent short).fields room offer index = .ok b) :
    (∃ v, (offer.find index name).2 = some v ∧ r room v = .ok b) ∨
      (offer.find index name).2 = none ∧ (absent = some b ∨ short = some b) := by
  rcases hfind : offer.find index name with ⟨place, found⟩
  cases found with
  | some v =>
    left
    refine ⟨v, rfl, ?_⟩
    simp only [field, hfind] at h
    cases hread : r room v with
    | error e => rw [hread] at h; cases h
    | ok c => rw [hread] at h; cases h; rfl
  | none =>
    right
    refine ⟨rfl, ?_⟩
    cases offer with
    | members ms =>
      cases absent with
      | none => simp [field, hfind] at h
      | some c => simp only [field, hfind] at h; cases h; exact .inl rfl
    | items vs =>
      cases short with
      | none => simp [field, hfind] at h
      | some c => simp only [field, hfind] at h; cases h; exact .inr rfl

/-- Nothing is astray in an object that names fields only, and none of them twice. -/
theorem strayMember_none [Written α] {names : List String} {members : List (String × Json α)}
    {place : Nat} {seen : List String} (hnames : ∀ name ∈ members.map Prod.fst, name ∈ names)
    (hnodup : (seen ++ members.map Prod.fst).Nodup) :
    strayMember names none place seen (Json.memberOutlines members) = none := by
  induction members generalizing place seen with
  | nil => rfl
  | cons m rest ih =>
    obtain ⟨hname, hnames⟩ := List.forall_mem_cons.mp hnames
    have hperm : (seen ++ m.1 :: rest.map Prod.fst).Perm (m.1 :: seen ++ rest.map Prod.fst) :=
      List.perm_middle
    have hnodup := hperm.nodup_iff.mp hnodup
    have hnew : m.1 ∉ seen := fun hm =>
      (List.nodup_cons.mp hnodup).1 (List.mem_append_left _ hm)
    rw [Json.memberOutlines, strayMember, if_pos hname, if_neg hnew]
    exact ih hnames hnodup

end Record

/-! ### Written records -/

/-- The fields that a written value offers. -/
def Json.offer [Written α] : Json α → Offer α
  | .object members => .members (memberOutlines members)
  | .array items => .items (outlines items)
  | _ => .items []

theorem Judges.settle {bad : Fault → Prop} {ok : Prop} {found : Placed β} {b : β}
    (h : Judges (fun e => bad e.2) ok found b) : Judges bad ok (Record.settle none found) b :=
  h.mapError fun _ he => he

namespace Record

variable {record : Record α β} {room index : Nat} {b : β} {ok : Prop}

theorem judges_field {name : String} {r : Reader α β} {absent short : Option β} {offer : Offer α}
    {v : Outline α} (hfind : (offer.find index name).2 = some v)
    (h : Judges IsMismatch ok (r room v) b) :
    Judges IsPlacedMismatch ok ((field name r absent short).fields room offer index) b := by
  rcases hplace : offer.find index name with ⟨place, found⟩
  rw [hplace] at hfind
  cases hfind
  have hread : (field name r absent short).fields room offer index =
      (r room v).mapError (place, ·) := by
    simp only [field, hplace]
  rw [hread]
  exact h.mapError fun _ he => he

variable [Written α]

theorem judges_object {members : List (String × Json α)}
    (h : Judges IsPlacedMismatch ok (record.fields room (Json.object members).offer 0) b)
    (hkeys : (members.map Prod.fst).Sublist record.names) (hnames : record.names.Nodup) :
    Judges IsMismatch ok (record.reader (room + 1) (Json.object members).outline) b := by
  have hstray : strayMember record.names none 0 [] (Json.memberOutlines members) = none :=
    strayMember_none (fun _ h => hkeys.subset h) (hkeys.nodup hnames)
  show Judges _ ok (settle (strayMember record.names none 0 [] _) _) b
  rw [hstray]
  exact h.settle

theorem judges_row {items : List (Json α)}
    (h : Judges IsPlacedMismatch ok (record.fields room (Json.array items).offer 0) b)
    (hlength : items.length ≤ record.names.length) :
    Judges IsMismatch ok (record.row (room + 1) (Json.array items).outline) b := by
  have hstray : strayItem record.names.length none (Json.outlines items) = none := by
    rw [strayItem, if_neg]
    · rfl
    · rw [Json.outlines_eq_map, List.length_map]
      omega
  show Judges _ ok (settle (strayItem record.names.length none _) _) b
  rw [hstray]
  exact h.settle

end Record

/-! ### Read records -/

section Read

variable [Written α]

/-- Every number that is offered is spelled. -/
def Offer.Spelled : Offer α → Prop
  | .members ms => Outline.AllMembers Written.Spelled ms
  | .items vs => Outline.AllItems Written.Spelled vs

theorem Offer.spelled_of_offer? {v : Outline α} {offer : Offer α} (hoffer : v.offer? = some offer)
    (hv : v.All Written.Spelled) : offer.Spelled := by
  cases v with
  | object | array => cases hoffer; exact hv
  | _ => cases hoffer

theorem Offer.spelled_find {offer : Offer α} (h : offer.Spelled) {index : Nat} {name : String}
    {v : Outline α} (hv : (offer.find index name).2 = some v) : v.All Written.Spelled := by
  cases offer with
  | members ms =>
    obtain ⟨m, hm, rfl⟩ := Option.map_eq_some_iff.mp hv
    exact Outline.allMembers_iff.mp h m (List.mem_of_getElem? hm)
  | items vs => exact Outline.allItems_iff.mp h v (List.mem_of_getElem? hv)

/-- What a record makes of spelled numbers has a property. -/
def Record.Yields (record : Record α β) (P : β → Prop) : Prop :=
  ∀ ⦃room index : Nat⦄ ⦃offer : Offer α⦄ ⦃b : β⦄, offer.Spelled →
    record.fields room offer index = .ok b → P b

namespace Record.Yields

variable {record : Record α β} {P : β → Prop}

theorem map (h : record.Yields P) (g : β → γ) :
    (g <$> record).Yields fun c => ∃ b, P b ∧ g b = c := by
  intro room index offer c hoffer hread
  obtain ⟨b, hb, hc⟩ := Placed.map_ok hread
  exact ⟨b, h hoffer hb, hc⟩

theorem seq {f : Record α (β → γ)} {Q : (β → γ) → Prop} (hf : f.Yields Q) (h : record.Yields P) :
    (f <*> record).Yields fun c => ∃ g b, Q g ∧ P b ∧ g b = c := by
  intro room index offer c hoffer hread
  obtain ⟨g, b, hg, hb, hc⟩ := Placed.ap_ok hread
  exact ⟨g, b, hf hoffer hg, h hoffer hb, hc⟩

theorem reader {w : β → Json α} (h : record.Yields P) (hw : ∀ b, P b → (w b).All Written.Spelled) :
    Artwork.Yields record.reader w := by
  intro room v b hv hread
  obtain ⟨room, offer, rfl, hoffer, hread⟩ := Record.reader_ok hread
  exact hw b (h (Offer.spelled_of_offer? hoffer hv) hread)

theorem row {w : β → Json α} (h : record.Yields P) (hw : ∀ b, P b → (w b).All Written.Spelled) :
    Artwork.Yields record.row w := by
  intro room v b hv hread
  obtain ⟨room, offer, rfl, hoffer, hread⟩ := Record.row_ok hread
  exact hw b (h (Offer.spelled_of_offer? hoffer hv) hread)

end Record.Yields

theorem Yields.field {r : Reader α β} {w : β → Json α} (h : Yields r w) (name : String)
    {absent short : Option β} (habsent : ∀ b ∈ absent, (w b).All Written.Spelled)
    (hshort : ∀ b ∈ short, (w b).All Written.Spelled) :
    (Record.field name r absent short).Yields fun b => (w b).All Written.Spelled := by
  intro room index offer b hoffer hread
  rcases Record.field_ok hread with ⟨v, hfind, hv⟩ | ⟨-, hb | hb⟩
  · exact h (Offer.spelled_find hoffer hfind) hv
  · exact habsent b hb
  · exact hshort b hb

theorem Yields.required {r : Reader α β} {w : β → Json α} (h : Yields r w) (name : String) :
    (Record.required name r).Yields fun b => (w b).All Written.Spelled :=
  h.field name (by simp) (by simp)

theorem Yields.defaulted {r : Reader α β} {w : β → Json α} (h : Yields r w) (name : String) {b : β}
    (hb : (w b).All Written.Spelled) :
    (Record.defaulted name r b).Yields fun b => (w b).All Written.Spelled :=
  h.field name (by simpa using hb) (by simpa using hb)

theorem Yields.optional {r : Reader α β} {w : β → Json α} (h : Yields r w) (name : String) :
    (Record.optional name r).Yields fun b => (Json.ofOption w b).All Written.Spelled :=
  h.nullable.field name (by simp [Json.ofOption, Json.All]) (by simp)

end Read
end Artwork
