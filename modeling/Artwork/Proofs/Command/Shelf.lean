import Artwork.Command.Shelf

/-!
# A file among others

Replacing the text of a file changes neither what the other paths lead to nor which paths lead
anywhere (`find_put`).
-/

namespace Artwork
namespace Command
namespace Shelf

variable {s : Shelf} {l : Location}

theorem node?_put (s : Shelf) (l : Location) (n : Node) : (s.put l n).node? l = some n := by
  simp [node?, put]

theorem node?_put_ne (s : Shelf) {l k : Location} (h : k ≠ l) (n : Node) :
    (s.put l n).node? k = s.node? k := by
  have hfind : (s.nodes.filter (·.1 != l)).find? (·.1 == k) = s.nodes.find? (·.1 == k) := by
    rw [List.find?_filter]
    refine congrArg (List.find? · s.nodes) (funext fun m => ?_)
    by_cases hm : m.1 = k
    · simp [hm, h]
    · simp [hm]
  simp only [node?, put, List.find?_cons]
  rw [beq_false_of_ne (Ne.symm h), hfind]

/-- Only what was put last counts. -/
theorem put_put (s : Shelf) (l : Location) (n n' : Node) : (s.put l n).put l n' = s.put l n' := by
  simp [put]

theorem append_put (s : Shelf) (l : Location) (content more : String) :
    (s.put l (.text content)).append l more = s.put l (.text (content ++ more)) := by
  simp only [append, node?_put, put_put]

/-- A file that is created is empty. -/
theorem create_eq {path : String} {t : Shelf} (h : s.create path = .ok (l, t)) :
    t = s.put l (.text "") := by
  unfold create at h
  split at h
  · cases h
  · cases hwalk : s.walk (Location.start path) (Location.names path).dropLast with
    | error e =>
      simp only [hwalk] at h
      cases h
    | ok parent =>
      cases henter : s.enter parent with
      | error e =>
        simp only [hwalk, henter, bind, Except.bind] at h
        cases h
      | ok u =>
        simp only [hwalk, henter, bind, Except.bind] at h
        split at h
        · cases h
        · split at h
          · cases h
          · cases h
            rfl

/-! ## Rewriting a file -/

variable {content : String}

theorem enter_put (h : s.node? l = some (.text content)) (more : String) (k : Location) :
    (s.put l (.text more)).enter k = s.enter k := by
  by_cases hk : k = l
  · rw [enter, enter, hk, node?_put, h]
  · rw [enter, enter, node?_put_ne s hk]

theorem walk_put (h : s.node? l = some (.text content)) (more : String) (k : Location)
    (names : List String) : (s.put l (.text more)).walk k names = s.walk k names := by
  induction names generalizing k with
  | nil => rfl
  | cons name rest ih => rw [walk, walk, enter_put h, ih]

/-- What a path leads to, the rewritten file apart. -/
theorem find_put (h : s.node? l = some (.text content)) (more : String) (path : String) :
    (s.put l (.text more)).find path =
      (s.find path).map fun (k, n) => (k, if k = l then .text more else n) := by
  simp only [find, walk_put h]
  split
  · rfl
  · cases s.walk (Location.start path) (Location.names path) with
    | error e => rfl
    | ok k =>
      by_cases hk : k = l
      · simp [bind, Except.bind, Except.map, hk, node?_put, h]
      · simp only [bind, Except.bind, node?_put_ne s hk]
        cases s.node? k <;> simp [Except.map, hk]

theorem node?_of_find {path : String} {k : Location} {n : Node} (h : s.find path = .ok (k, n)) :
    s.node? k = some n := by
  unfold find at h
  split at h
  · cases h
  · cases hwalk : s.walk (Location.start path) (Location.names path) with
    | error e =>
      rw [hwalk] at h
      cases h
    | ok j =>
      simp only [hwalk, bind, Except.bind] at h
      cases hnode : s.node? j with
      | none => simp [hnode] at h
      | some m =>
        simp only [hnode, Except.ok.injEq, Prod.mk.injEq] at h
        rw [← h.1, hnode, h.2]

theorem has_put (h : s.node? l = some (.text content)) (more : String) (path : String) :
    (s.put l (.text more)).has path = s.has path := by
  rw [has, has, find_put h]
  cases s.find path <;> rfl

theorem has_of_read {path : String} (h : s.read path = .ok content) : s.has path = true := by
  unfold read at h
  unfold has
  cases hfind : s.find path with
  | ok found => rfl
  | error e =>
    rw [hfind] at h
    cases h

/-- A path leads to the rewritten file, or to what it led to before. -/
theorem read_put (h : s.node? l = some (.text content)) (more : String) (path : String) :
    (s.read path = .ok content ∧ (s.put l (.text more)).read path = .ok more) ∨
      (s.put l (.text more)).read path = s.read path := by
  rw [read, read, find_put h]
  cases hfind : s.find path with
  | error e => exact .inr rfl
  | ok found =>
    obtain ⟨k, n⟩ := found
    by_cases hk : k = l
    · have hn : n = .text content := by
        have hnode := node?_of_find hfind
        rw [hk, h] at hnode
        exact (Option.some.inj hnode).symm
      left
      simp [Except.map, hk, hn]
    · right
      simp [Except.map, hk]

end Shelf
end Command
end Artwork
