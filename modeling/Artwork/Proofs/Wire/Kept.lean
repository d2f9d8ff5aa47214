import Artwork.Proofs.Wire.Records

/-!
# Values that are kept

A reader of any JSON value keeps what it reads, and opens no more lists and objects inside of each
other than it has room for.  So a written value is read back just when it is nested no deeper than
that (`Json.decode_text_iff`), and what was kept once is kept again when it has been written
(`Outline.keep_outline`).
-/

namespace Artwork

variable {α : Type}

namespace Json

mutual

/-- How many lists and objects are open at once in the text of the value. -/
def depth : Json α → Nat
  | .array items => itemsDepth items + 1
  | .object members => membersDepth members + 1
  | _ => 0

def itemsDepth : List (Json α) → Nat
  | [] => 0
  | v :: rest => max (depth v) (itemsDepth rest)

def membersDepth : List (String × Json α) → Nat
  | [] => 0
  | (_, v) :: rest => max (depth v) (membersDepth rest)

end

end Json

namespace Outline

/-! ## What is kept -/

mutual

theorem all_keep {P : α → Prop} {room : Nat} : ∀ {v : Outline α} {j : Json α},
    v.All P → keep room v = .ok j → j.All P
  | .null, _, _, h | .bool _, _, _, h | .string _, _, _, h => by
    cases h
    trivial
  | .number x, _, hx, h => by
    cases h
    exact hx
  | .unusable, _, _, h | .broken _, _, _, h => by cases h
  | .array items stop, _, hitems, h => by
    obtain ⟨inner, -, h⟩ := exists_of_bind_ok h
    obtain ⟨js, hread, h⟩ := exists_of_bind_ok h
    obtain ⟨-, rfl⟩ := ending_ok h
    exact all_keepItems hitems hread
  | .object members stop, _, hmembers, h => by
    obtain ⟨inner, -, h⟩ := exists_of_bind_ok h
    obtain ⟨js, hread, h⟩ := exists_of_bind_ok h
    obtain ⟨-, rfl⟩ := ending_ok h
    exact all_keepMembers hmembers hread

theorem all_keepItems {P : α → Prop} {room : Nat} : ∀ {vs : List (Outline α)} {js : List (Json α)},
    AllItems P vs → keepItems room vs = .ok js → Json.AllItems P js
  | [], _, _, h => by
    cases h
    trivial
  | v :: rest, _, ⟨hv, hrest⟩, h => by
    obtain ⟨j, hread, h⟩ := exists_of_bind_ok h
    obtain ⟨js, hreads, h⟩ := exists_of_bind_ok h
    cases h
    exact ⟨all_keep hv hread, all_keepItems hrest hreads⟩

theorem all_keepMembers {P : α → Prop} {room : Nat} : ∀ {ms : List (Key × Outline α)}
    {js : List (String × Json α)}, AllMembers P ms → keepMembers room ms = .ok js →
      Json.AllMembers P js
  | [], _, _, h => by
    cases h
    trivial
  | (key, v) :: rest, _, ⟨hv, hrest⟩, h => by
    obtain ⟨name, -, h⟩ := exists_of_bind_ok h
    obtain ⟨j, hread, h⟩ := exists_of_bind_ok h
    obtain ⟨js, hreads, h⟩ := exists_of_bind_ok h
    cases h
    exact ⟨all_keep hv hread, all_keepMembers hrest hreads⟩

end

mutual

/-- What is kept is nested no deeper than there is room. -/
theorem depth_le_of_keep {room : Nat} : ∀ {v : Outline α} {j : Json α}, keep room v = .ok j →
    j.depth ≤ room
  | .null, _, h | .bool _, _, h | .string _, _, h | .number _, _, h => by
    cases h
    exact Nat.zero_le room
  | .unusable, _, h | .broken _, _, h => by cases h
  | .array items stop, _, h => by
    obtain ⟨inner, hroom, h⟩ := exists_of_bind_ok h
    obtain ⟨js, hread, h⟩ := exists_of_bind_ok h
    obtain ⟨-, rfl⟩ := ending_ok h
    obtain rfl := deeper_ok hroom
    exact Nat.succ_le_succ (itemsDepth_le_of_keepItems hread)
  | .object members stop, _, h => by
    obtain ⟨inner, hroom, h⟩ := exists_of_bind_ok h
    obtain ⟨js, hread, h⟩ := exists_of_bind_ok h
    obtain ⟨-, rfl⟩ := ending_ok h
    obtain rfl := deeper_ok hroom
    exact Nat.succ_le_succ (membersDepth_le_of_keepMembers hread)

theorem itemsDepth_le_of_keepItems {room : Nat} : ∀ {vs : List (Outline α)} {js : List (Json α)},
    keepItems room vs = .ok js → Json.itemsDepth js ≤ room
  | [], _, h => by
    cases h
    exact Nat.zero_le room
  | v :: rest, _, h => by
    obtain ⟨j, hread, h⟩ := exists_of_bind_ok h
    obtain ⟨js, hreads, h⟩ := exists_of_bind_ok h
    cases h
    exact Nat.max_le.mpr ⟨depth_le_of_keep hread, itemsDepth_le_of_keepItems hreads⟩

theorem membersDepth_le_of_keepMembers {room : Nat} : ∀ {ms : List (Key × Outline α)}
    {js : List (String × Json α)}, keepMembers room ms = .ok js → Json.membersDepth js ≤ room
  | [], _, h => by
    cases h
    exact Nat.zero_le room
  | (key, v) :: rest, _, h => by
    obtain ⟨name, -, h⟩ := exists_of_bind_ok h
    obtain ⟨j, hread, h⟩ := exists_of_bind_ok h
    obtain ⟨js, hreads, h⟩ := exists_of_bind_ok h
    cases h
    exact Nat.max_le.mpr ⟨depth_le_of_keep hread, membersDepth_le_of_keepMembers hreads⟩

end

/-! ## What is written -/

variable [Written α]

mutual

/-- A value that is nested no deeper than `room` is kept. -/
theorem keep_of_depth_le [LawfulWritten α] {room : Nat} : ∀ {j : Json α},
    j.All Written.Spelled → j.depth ≤ room → keep room j.outline = .ok j
  | .null, _, _ | .bool _, _, _ | .string _, _, _ => rfl
  | .number x, hx, _ => by
    rw [Json.outline_number_spelled hx]
    rfl
  | .array items, hitems, hroom => by
    obtain ⟨inner, rfl⟩ := Nat.exists_eq_add_of_le' (Nat.one_le_of_lt hroom)
    show keepItems inner (Json.outlines items) >>= (fun js => ending (Json.array js) none) = _
    rw [keepItems_of_depth_le hitems (Nat.le_of_succ_le_succ hroom)]
    rfl
  | .object members, hmembers, hroom => by
    obtain ⟨inner, rfl⟩ := Nat.exists_eq_add_of_le' (Nat.one_le_of_lt hroom)
    show keepMembers inner (Json.memberOutlines members) >>=
      (fun js => ending (Json.object js) none) = _
    rw [keepMembers_of_depth_le hmembers (Nat.le_of_succ_le_succ hroom)]
    rfl

theorem keepItems_of_depth_le [LawfulWritten α] {room : Nat} : ∀ {items : List (Json α)},
    Json.AllItems Written.Spelled items → Json.itemsDepth items ≤ room →
      keepItems room (Json.outlines items) = .ok items
  | [], _, _ => rfl
  | v :: rest, ⟨hv, hrest⟩, hroom => by
    obtain ⟨hfirst, hlater⟩ := Nat.max_le.mp hroom
    rw [Json.outlines, keepItems, keep_of_depth_le hv hfirst, keepItems_of_depth_le hrest hlater]
    rfl

theorem keepMembers_of_depth_le [LawfulWritten α] {room : Nat} :
    ∀ {members : List (String × Json α)}, Json.AllMembers Written.Spelled members →
      Json.membersDepth members ≤ room →
        keepMembers room (Json.memberOutlines members) = .ok members
  | [], _, _ => rfl
  | (key, v) :: rest, ⟨hv, hrest⟩, hroom => by
    obtain ⟨hfirst, hlater⟩ := Nat.max_le.mp hroom
    rw [Json.memberOutlines, keepMembers, keep_of_depth_le hv hfirst,
      keepMembers_of_depth_le hrest hlater]
    rfl

end

/-- A value that is kept is kept just so when it has been written. -/
theorem keep_outline [LawfulWritten α] {room : Nat} {v : Outline α} {j : Json α}
    (hv : v.All Written.Spelled) (h : keep room v = .ok j) : keep room j.outline = .ok j :=
  keep_of_depth_le (all_keep hv h) (depth_le_of_keep h)

end Outline

/-- A written value is read back just when it is nested no deeper than a reader goes. -/
theorem Json.decode_text_iff [Written α] [LawfulWritten α] {j : Json α} (h : j.All Written.Spelled)
    (sp : Spacing) :
    Reader.json.decode (j.text sp).toList = .ok j ↔ j.depth ≤ Reader.maxDepth := by
  rw [Reader.decode_text]
  exact ⟨Outline.depth_le_of_keep, Outline.keep_of_depth_le h⟩

end Artwork
