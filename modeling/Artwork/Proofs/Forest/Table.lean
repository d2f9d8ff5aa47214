import Artwork.Proofs.Buckets
import Artwork.Proofs.Forest.Roots

/-!
# Forests as tables of representatives

What a user of a forest sees is a table that gives each index the representative of its class.
`Table.Step` says, call by call, what such a table answers and how it changes; nothing of parents or
paths is left in it.

Main statement: whatever calls are made of a fresh forest, with whatever arguments, its answers are
those of a table, and its roots are the table's entries (`run_refines_table`).  A call that is
refused on the way, after it has halved a path, is no exception.
-/

namespace Artwork
namespace Forest

/-! ## Classes -/

theorem collect_eq {f : Forest} (hf : f.Sound) (found : Buckets Nat) (xs : List Nat) :
    ∃ g, f.collect found xs =
        ((xs.map fun x => (f.root x, x)).foldl (fun b p => b.add p.1 p.2) found, g) ∧
      f.Shortens g := by
  induction xs generalizing f found with
  | nil => exact ⟨f, rfl, .refl f⟩
  | cons x rest ih =>
    have hg := shortens_climb f x f.size
    obtain ⟨h, hcollect, hgh⟩ := ih (hg.sound hf) (found.add (f.root x) x)
    refine ⟨h, ?_, hg.trans hgh⟩
    rw [collect]
    dsimp only
    rw [(hf.climb x).1, hcollect]
    simp only [List.map_cons, List.foldl_cons, hg.root_eq hf]

theorem Sound.classes {f : Forest} (hf : f.Sound) :
    ∃ cs g, f.classes = (cs, g) ∧ f.Shortens g ∧
      Listing f.size (fun x y => f.root x = f.root y) cs := by
  obtain ⟨g, hcollect, hg⟩ := collect_eq hf [] (List.range f.size)
  refine ⟨_, g, ?_, hg, Buckets.Sorts.listing (Buckets.sorts_foldl ?_)⟩
  · rw [Forest.classes, hcollect]
  · exact List.pairwise_map.mpr List.pairwise_lt_range

/-! ## Calls -/

inductive Call
  | find (x : Nat)
  | union (a b : Nat)
  | classes
deriving DecidableEq, Repr

inductive Answer
  | root (r : Nat)
  | united
  | classes (cs : List (List Nat))
  /-- The call is refused on an index that is none. -/
  | refused (e : OutOfRange)
deriving DecidableEq, Repr

def call (f : Forest) : Call → Answer × Forest
  | .find x =>
    match f.find x with
    | (.ok r, g) => (.root r, g)
    | (.error e, g) => (.refused e, g)
  | .union a b =>
    match f.union a b with
    | (.ok (), g) => (.united, g)
    | (.error e, g) => (.refused e, g)
  | .classes =>
    match f.classes with
    | (cs, g) => (.classes cs, g)

/-- Makes the calls one after the other. -/
def run (f : Forest) : List Call → List Answer × Forest
  | [] => ([], f)
  | c :: rest =>
    let (answer, f) := f.call c
    let (answers, f) := f.run rest
    (answer :: answers, f)

/-- The size of a forest, and the representative of each index. -/
structure Table where
  size : Nat
  rep : Nat → Nat

namespace Table

/-- Every index below `n` represents itself. -/
def start (n : Nat) : Table := ⟨n, id⟩

/-- Changes exactly the entries that are `a`. -/
def redirect (t : Table) (a b : Nat) : Table :=
  { t with rep := fun x => if t.rep x = a then b else t.rep x }

/-- What a table answers to a call, and the table after it. -/
inductive Step : Table → Call → Answer → Table → Prop
  | find {t : Table} {x : Nat} (hx : x < t.size) : Step t (.find x) (.root (t.rep x)) t
  | findRefused {t : Table} {x : Nat} (hx : t.size ≤ x) :
      Step t (.find x) (.refused ⟨t.size, x⟩) t
  | union {t : Table} {a b : Nat} (ha : a < t.size) (hb : b < t.size) :
      Step t (.union a b) .united (t.redirect (t.rep a) (t.rep b))
  | unionRefusedLeft {t : Table} {a b : Nat} (ha : t.size ≤ a) :
      Step t (.union a b) (.refused ⟨t.size, a⟩) t
  | unionRefusedRight {t : Table} {a b : Nat} (ha : a < t.size) (hb : t.size ≤ b) :
      Step t (.union a b) (.refused ⟨t.size, b⟩) t
  | classes {t : Table} {cs : List (List Nat)}
      (h : Listing t.size (fun x y => t.rep x = t.rep y) cs) : Step t .classes (.classes cs) t

inductive Run : Table → List Call → List Answer → Table → Prop
  | nil (t : Table) : Run t [] [] t
  | cons {t u v : Table} {c : Call} {cs : List Call} {a : Answer} {as : List Answer}
      (first : Step t c a u) (rest : Run u cs as v) : Run t (c :: cs) (a :: as) v

theorem Step.size {t u : Table} {c : Call} {a : Answer} (h : Step t c a u) : u.size = t.size := by
  cases h <;> rfl

theorem Run.size {t u : Table} {cs : List Call} {as : List Answer} (h : Run t cs as u) :
    u.size = t.size := by
  induction h with
  | nil => rfl
  | cons first _ ih => exact ih.trans first.size

/-- A table leaves no choice: what it answers and what becomes of it is settled by the call. -/
theorem Step.unique {t u v : Table} {c : Call} {a b : Answer} (h : Step t c a u)
    (h' : Step t c b v) : a = b ∧ u = v := by
  cases h with
  | find hx =>
    cases h' with
    | find => exact ⟨rfl, rfl⟩
    | findRefused hx' => omega
  | findRefused hx =>
    cases h' with
    | find hx' => omega
    | findRefused => exact ⟨rfl, rfl⟩
  | union ha hb =>
    cases h' with
    | union => exact ⟨rfl, rfl⟩
    | unionRefusedLeft ha' => omega
    | unionRefusedRight _ hb' => omega
  | unionRefusedLeft ha =>
    cases h' with
    | union ha' => omega
    | unionRefusedLeft => exact ⟨rfl, rfl⟩
    | unionRefusedRight ha' => omega
  | unionRefusedRight ha hb =>
    cases h' with
    | union _ hb' => omega
    | unionRefusedLeft ha' => omega
    | unionRefusedRight => exact ⟨rfl, rfl⟩
  | classes h =>
    cases h' with
    | classes h' => exact ⟨congrArg _ (h.unique h'), rfl⟩

theorem Run.unique {t u v : Table} {cs : List Call} {as bs : List Answer} (h : Run t cs as u)
    (h' : Run t cs bs v) : as = bs ∧ u = v := by
  induction h generalizing bs with
  | nil =>
    cases h'
    exact ⟨rfl, rfl⟩
  | cons first _ ih =>
    cases h' with
    | cons first' rest' =>
      obtain ⟨rfl, rfl⟩ := first.unique first'
      obtain ⟨rfl, rfl⟩ := ih rest'
      exact ⟨rfl, rfl⟩

end Table

/-- A sound forest with the size of the table, whose roots are the table's entries. -/
structure Follows (f : Forest) (t : Table) : Prop where
  sound : f.Sound
  size : f.size = t.size
  root : ∀ x, f.root x = t.rep x

namespace Follows

variable {f g : Forest} {t : Table}

theorem start (n : Nat) : (singletons n).Follows (.start n) :=
  ⟨sound_singletons n, size_singletons n, root_singletons n⟩

theorem shortens (h : f.Follows t) (hfg : f.Shortens g) : g.Follows t where
  sound := hfg.sound h.sound
  size := hfg.size.trans h.size
  root x := (hfg.root_eq h.sound x).trans (h.root x)

/- One case for each way a call can go; every one of them halves paths, and only a union of two
indices changes a root. -/
theorem call (h : f.Follows t) (c : Call) :
    ∃ a g u, f.call c = (a, g) ∧ Table.Step t c a u ∧ g.Follows u := by
  cases c with
  | find x =>
    by_cases hx : x < f.size
    · obtain ⟨g, hfind, hg, -⟩ := h.sound.find hx
      refine ⟨.root (f.root x), g, t, ?_, ?_, h.shortens hg⟩
      · rw [Forest.call, hfind]
      · rw [h.root x]
        exact .find (h.size ▸ hx)
    · have hx := Nat.le_of_not_lt hx
      refine ⟨.refused ⟨f.size, x⟩, f, t, ?_, ?_, h⟩
      · rw [Forest.call, find_of_size_le hx]
      · rw [h.size] at hx ⊢
        exact .findRefused hx
  | union a b =>
    by_cases ha : a < f.size
    · by_cases hb : b < f.size
      · obtain ⟨g, hunion, hs, hsize, hroot⟩ := h.sound.union ha hb
        refine ⟨.united, g, t.redirect (t.rep a) (t.rep b), ?_, ?_, hs, hsize.trans h.size, ?_⟩
        · rw [Forest.call, hunion]
        · exact .union (h.size ▸ ha) (h.size ▸ hb)
        · intro x
          rw [hroot, h.root, h.root, h.root]
          rfl
      · have hb := Nat.le_of_not_lt hb
        obtain ⟨g, hunion, hg⟩ := h.sound.union_of_size_le ha hb
        refine ⟨.refused ⟨f.size, b⟩, g, t, ?_, ?_, h.shortens hg⟩
        · rw [Forest.call, hunion]
        · rw [h.size] at ha hb ⊢
          exact .unionRefusedRight ha hb
    · have ha := Nat.le_of_not_lt ha
      refine ⟨.refused ⟨f.size, a⟩, f, t, ?_, ?_, h⟩
      · rw [Forest.call, Forest.union_of_size_le ha]
      · rw [h.size] at ha ⊢
        exact .unionRefusedLeft ha
  | classes =>
    obtain ⟨cs, g, hclasses, hg, hlisting⟩ := h.sound.classes
    refine ⟨.classes cs, g, t, ?_, .classes ?_, h.shortens hg⟩
    · rw [Forest.call, hclasses]
    · rw [← h.size]
      exact hlisting.congr fun x _ y _ => by rw [h.root, h.root]

theorem run (h : f.Follows t) (calls : List Call) :
    ∃ u, Table.Run t calls (f.run calls).1 u ∧ (f.run calls).2.Follows u := by
  induction calls generalizing f t with
  | nil => exact ⟨t, .nil t, h⟩
  | cons c rest ih =>
    obtain ⟨a, g, u, hcall, hstep, hgu⟩ := h.call c
    obtain ⟨v, hrun, hfollows⟩ := ih hgu
    rw [Forest.run, hcall]
    exact ⟨v, .cons hstep hrun, hfollows⟩

end Follows

/-- Any calls of a fresh forest are answered as a table of representatives answers them and in no
other way.  The roots of the forest that is left are the entries of the table that is left, its
parents are indices, and the climb from each of its indices comes to its end. -/
theorem run_refines_table (n : Nat) (calls : List Call) :
    ∃ t, (∀ answers u, Table.Run (.start n) calls answers u ↔
        answers = ((singletons n).run calls).1 ∧ u = t) ∧
      let f := ((singletons n).run calls).2
      f.size = n ∧ t.size = n ∧ (∀ x < n, f.parent x < n) ∧ (∀ x, f.root x = t.rep x) ∧
        ∀ x < n, ∃ g, f.find x = (.ok (t.rep x), g) ∧ Climbs f x (t.rep x) g := by
  obtain ⟨t, hrun, hfollows⟩ := (Follows.start n).run calls
  have htable : t.size = n := hrun.size
  have hsize : ((singletons n).run calls).2.size = n := hfollows.size.trans htable
  refine ⟨t, fun answers u => ⟨fun h => h.unique hrun, ?_⟩, hsize, htable, ?_, hfollows.root,
    fun x hx => ?_⟩
  · rintro ⟨rfl, rfl⟩
    exact hrun
  · have hinside := hfollows.sound.inRange
    unfold InRange at hinside
    rwa [hsize] at hinside
  · obtain ⟨g, hfind, -, hclimb⟩ := hfollows.sound.find (hsize.symm ▸ hx)
    rw [hfollows.root x] at hfind hclimb
    exact ⟨g, hfind, hclimb⟩

-- A union that is refused on its second index, after it has halved the path from its first.
example :
    ((singletons 4).run [.union 0 1, .union 1 2, .union 0 9, .find 0, .classes]).1 =
      [.united, .united, .refused ⟨4, 9⟩, .root 2, .classes [[0, 1, 2], [3]]] := by
  decide

end Forest
end Artwork
