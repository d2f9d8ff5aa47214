import Mathlib.Data.List.Nodup
import Mathlib.Data.List.Perm.Basic
import Mathlib.Data.List.Range
import Artwork.Buckets

/-!
# Sorting into buckets

Indices that arrive in ascending order end in buckets that can be described without the run:
`Sorts pairs b` says which keys have a bucket, what is in it, and in which order the buckets stand.

`Listing n same classes` says that a list of lists is the list of the classes of the indices below
`n` under a relation.  Buckets by a key are such a listing (`Sorts.listing`), and a relation has no
other (`Listing.unique`).
-/

namespace Artwork

/-- `classes` lists the classes that `same` makes of the indices below `n`: every index once, each
class ascending, the classes by their smallest members. -/
structure Listing (n : Nat) (same : Nat → Nat → Prop) (classes : List (List Nat)) : Prop where
  each_once : classes.flatten.Perm (List.range n)
  ne_nil : ∀ c ∈ classes, c ≠ []
  ascending : ∀ c ∈ classes, c.Pairwise (· < ·)
  by_smallest : classes.Pairwise fun c d => ∃ x ∈ c, ∀ y ∈ d, x < y
  together : ∀ x < n, ∀ y < n, (∃ c ∈ classes, x ∈ c ∧ y ∈ c) ↔ same x y

namespace Listing

variable {n : Nat} {same same' : Nat → Nat → Prop} {cs ds : List (List Nat)}

theorem congr (h : Listing n same cs) (hs : ∀ x < n, ∀ y < n, same x y ↔ same' x y) :
    Listing n same' cs :=
  { h with together := fun x hx y hy => (h.together x hx y hy).trans (hs x hx y hy) }

theorem lt_of_mem (h : Listing n same cs) {c : List Nat} (hc : c ∈ cs) {x : Nat} (hx : x ∈ c) :
    x < n :=
  List.mem_range.mp (h.each_once.subset (List.mem_flatten.mpr ⟨c, hc, hx⟩))

theorem exists_mem (h : Listing n same cs) {x : Nat} (hx : x < n) : ∃ c ∈ cs, x ∈ c :=
  List.mem_flatten.mp (h.each_once.symm.subset (List.mem_range.mpr hx))

/-- A class is what is related to any of its members. -/
theorem mem_iff (h : Listing n same cs) {c : List Nat} (hc : c ∈ cs) {x y : Nat} (hx : x ∈ c) :
    y ∈ c ↔ y < n ∧ same x y := by
  have hxn := h.lt_of_mem hc hx
  constructor
  · intro hy
    have hyn := h.lt_of_mem hc hy
    exact ⟨hyn, (h.together x hxn y hyn).mp ⟨c, hc, hx, hy⟩⟩
  · rintro ⟨hyn, hxy⟩
    obtain ⟨d, hd, hxd, hyd⟩ := (h.together x hxn y hyn).mpr hxy
    have hnodup : cs.flatten.Nodup := h.each_once.nodup_iff.mpr List.nodup_range
    by_cases hcd : c = d
    · rwa [hcd]
    · have : Std.Symm (List.Disjoint (α := Nat)) := ⟨fun _ _ h _ hl hr => h hr hl⟩
      exact absurd hxd ((List.nodup_flatten.mp hnodup).2.forall hc hd hcd hx)

/- Two listings of one relation have the same classes, and the order by smallest members leaves one
order of them. -/
theorem mem_of_mem (h : Listing n same cs) (h' : Listing n same ds) {c : List Nat} (hc : c ∈ cs) :
    c ∈ ds := by
  obtain ⟨x, hx⟩ := List.exists_mem_of_ne_nil c (h.ne_nil c hc)
  obtain ⟨d, hd, hxd⟩ := h'.exists_mem (h.lt_of_mem hc hx)
  have hperm : c.Perm d := by
    refine (List.perm_ext_iff_of_nodup ?_ ?_).mpr fun y => ?_
    · exact (h.ascending c hc).imp Nat.ne_of_lt
    · exact (h'.ascending d hd).imp Nat.ne_of_lt
    · rw [h.mem_iff hc hx, h'.mem_iff hd hxd]
  have hcd : c = d := hperm.eq_of_pairwise (fun a b _ _ hab hba => absurd hba (Nat.lt_asymm hab))
    (h.ascending c hc) (h'.ascending d hd)
  rwa [hcd]

theorem nodup (h : Listing n same cs) : cs.Nodup := by
  refine h.by_smallest.imp ?_
  rintro c d ⟨x, hx, hlt⟩ rfl
  exact Nat.lt_irrefl x (hlt x hx)

theorem unique (h : Listing n same cs) (h' : Listing n same ds) : cs = ds := by
  have hperm : cs.Perm ds := (List.perm_ext_iff_of_nodup h.nodup h'.nodup).mpr
    fun c => ⟨h.mem_of_mem h', h'.mem_of_mem h⟩
  refine hperm.eq_of_pairwise ?_ h.by_smallest h'.by_smallest
  rintro c d - - ⟨x, hx, hlt⟩ ⟨y, hy, hlt'⟩
  exact absurd (hlt y hy) (Nat.lt_asymm (hlt' x hx))

end Listing

namespace Buckets

variable {κ : Type} [DecidableEq κ]

/-- The indices that `pairs` gives to a key. -/
def under (pairs : List (κ × Nat)) (key : κ) : List Nat :=
  (pairs.filter fun p => p.1 = key).map (·.2)

theorem mem_under {pairs : List (κ × Nat)} {key : κ} {x : Nat} :
    x ∈ under pairs key ↔ (key, x) ∈ pairs := by
  simp [under]

theorem under_append (pairs : List (κ × Nat)) (key k : κ) (x : Nat) :
    under (pairs ++ [(k, x)]) key = under pairs key ++ if k = key then [x] else [] := by
  by_cases h : k = key <;> simp [under, h]

theorem add_of_not_mem {b : Buckets κ} {key : κ} (h : key ∉ b.map (·.1)) (x : Nat) :
    b.add key x = b ++ [(key, [x])] := by
  induction b with
  | nil => rfl
  | cons p rest ih =>
    simp only [List.map_cons, List.mem_cons, not_or] at h
    rw [add, if_neg (Ne.symm h.1), ih h.2, List.cons_append]

theorem add_of_mem {b : Buckets κ} {key : κ} (hb : (b.map (·.1)).Nodup) (h : key ∈ b.map (·.1))
    (x : Nat) :
    b.add key x = b.map fun p => if p.1 = key then (p.1, p.2 ++ [x]) else p := by
  induction b with
  | nil => cases h
  | cons p rest ih =>
    simp only [List.map_cons, List.nodup_cons] at hb
    by_cases hp : p.1 = key
    · have hrest : ∀ q ∈ rest, q.1 ≠ key := by
        intro q hq hqk
        exact hb.1 (List.mem_map.mpr ⟨q, hq, hqk.trans hp.symm⟩)
      rw [add, if_pos hp, List.map_cons, if_pos hp]
      refine congrArg _ ((List.map_id rest).symm.trans (List.map_congr_left fun q hq => ?_))
      rw [if_neg (hrest q hq), id]
    · have h' : key ∈ rest.map (·.1) := by
        simpa [Ne.symm hp] using h
      rw [add, if_neg hp, List.map_cons, if_neg hp, ih hb.2 h']

/-- `b` holds the indices of `pairs` by their keys, the buckets by their first indices. -/
structure Sorts (pairs : List (κ × Nat)) (b : Buckets κ) : Prop where
  keys_nodup : (b.map (·.1)).Nodup
  mem_keys : ∀ k, k ∈ b.map (·.1) ↔ k ∈ pairs.map (·.1)
  bucket : ∀ p ∈ b, p.2 = under pairs p.1
  by_first : b.Pairwise fun p q => ∃ x ∈ p.2, ∀ y ∈ q.2, x < y

namespace Sorts

variable {pairs : List (κ × Nat)} {b : Buckets κ}

theorem exists_mem (h : Sorts pairs b) {p : κ × List Nat} (hp : p ∈ b) :
    ∃ x ∈ p.2, (p.1, x) ∈ pairs := by
  have hkey := (h.mem_keys p.1).mp (List.mem_map_of_mem hp)
  obtain ⟨⟨k, x⟩, hx, rfl : k = p.1⟩ := List.mem_map.mp hkey
  exact ⟨x, by rw [h.bucket p hp]; exact mem_under.mpr hx, hx⟩

theorem mem_pairs (h : Sorts pairs b) {p : κ × List Nat} (hp : p ∈ b) {x : Nat} (hx : x ∈ p.2) :
    (p.1, x) ∈ pairs := by
  rw [h.bucket p hp] at hx
  exact mem_under.mp hx

/-- A new index is greater than all before it, so it comes last in the bucket of its key. -/
theorem add_old (h : Sorts pairs b) {x : Nat} (hx : ∀ p ∈ pairs, p.2 < x) {key : κ}
    (hkey : key ∈ b.map (·.1)) : Sorts (pairs ++ [(key, x)]) (b.add key x) := by
  rw [add_of_mem h.keys_nodup hkey]
  have hkeys : (b.map fun p => if p.1 = key then (p.1, p.2 ++ [x]) else p).map (·.1) =
      b.map (·.1) := by
    rw [List.map_map]
    refine List.map_congr_left fun p _ => ?_
    by_cases hp : p.1 = key <;> simp [hp]
  refine ⟨hkeys ▸ h.keys_nodup, fun k => ?_, fun q hq => ?_, ?_⟩
  · have hk := (h.mem_keys key).mp hkey
    rw [hkeys, h.mem_keys, List.map_append, List.mem_append, List.map_singleton,
      List.mem_singleton]
    exact ⟨.inl, fun h => h.elim id fun h => h ▸ hk⟩
  · obtain ⟨p, hp, rfl⟩ := List.mem_map.mp hq
    by_cases hpk : p.1 = key
    · rw [if_pos hpk, under_append, ← h.bucket p hp, if_pos hpk.symm]
    · rw [if_neg hpk, under_append, ← h.bucket p hp, if_neg (Ne.symm hpk), List.append_nil]
  · rw [List.pairwise_map]
    refine h.by_first.imp_of_mem fun {p q} hp _ hpq => ?_
    obtain ⟨y, hy, hlt⟩ := hpq
    refine ⟨y, ?_, fun z hz => ?_⟩
    · split
      · exact List.mem_append_left [x] hy
      · exact hy
    · split at hz
      · obtain hz | hz := List.mem_append.mp hz
        · exact hlt z hz
        · rw [List.mem_singleton.mp hz]
          exact hx _ (h.mem_pairs hp hy)
      · exact hlt z hz

/-- A bucket that a new index begins comes last. -/
theorem add_new (h : Sorts pairs b) {x : Nat} (hx : ∀ p ∈ pairs, p.2 < x) {key : κ}
    (hkey : key ∉ b.map (·.1)) : Sorts (pairs ++ [(key, x)]) (b.add key x) := by
  rw [add_of_not_mem hkey]
  have hunder : under pairs key = [] := by
    refine List.eq_nil_iff_forall_not_mem.mpr fun y hy => hkey ?_
    exact (h.mem_keys key).mpr (List.mem_map_of_mem (mem_under.mp hy))
  refine ⟨?_, fun k => ?_, fun q hq => ?_, ?_⟩
  · rw [List.map_append, List.map_singleton]
    exact List.nodup_append_comm.mp (List.nodup_cons.mpr ⟨hkey, h.keys_nodup⟩)
  · rw [List.map_append, List.mem_append, h.mem_keys, List.map_append, List.mem_append]
    rfl
  · obtain hq | hq := List.mem_append.mp hq
    · have hqk : key ≠ q.1 := fun hk => hkey (hk ▸ List.mem_map_of_mem hq)
      rw [under_append, ← h.bucket q hq, if_neg hqk, List.append_nil]
    · rw [List.mem_singleton.mp hq, under_append, hunder, if_pos rfl, List.nil_append]
  · refine List.pairwise_append.mpr ⟨h.by_first, List.pairwise_singleton .., ?_⟩
    intro p hp q hq
    obtain ⟨y, hy, hpair⟩ := h.exists_mem hp
    rw [List.mem_singleton.mp hq]
    refine ⟨y, hy, fun z hz => ?_⟩
    rw [List.mem_singleton.mp hz]
    exact hx _ hpair

theorem add (h : Sorts pairs b) {x : Nat} (hx : ∀ p ∈ pairs, p.2 < x) (key : κ) :
    Sorts (pairs ++ [(key, x)]) (b.add key x) := by
  by_cases hkey : key ∈ b.map (·.1)
  · exact h.add_old hx hkey
  · exact h.add_new hx hkey

end Sorts

theorem sorts_foldl {pairs : List (κ × Nat)} (h : pairs.Pairwise fun p q => p.2 < q.2) :
    Sorts pairs (pairs.foldl (fun b p => add p.1 p.2 b) []) := by
  induction pairs using List.reverseRecOn with
  | nil => exact ⟨List.nodup_nil, fun _ => Iff.rfl, fun _ hp => (nomatch hp), .nil⟩
  | append_singleton pairs p ih =>
    obtain ⟨hpairs, -, hlt⟩ := List.pairwise_append.mp h
    rw [List.foldl_append]
    exact (ih hpairs).add (fun q hq => hlt q hq p (List.mem_singleton_self p)) p.1

namespace Sorts

-- The indices are those below `n`, and `key` gives the key of each.
variable {key : Nat → κ} {n : Nat} {b : Buckets κ}

theorem bucket_eq (h : Sorts ((List.range n).map fun x => (key x, x)) b) {p : κ × List Nat}
    (hp : p ∈ b) : p.2 = (List.range n).filter fun x => key x = p.1 := by
  rw [h.bucket p hp, under, List.filter_map, List.map_map]
  exact List.map_id _

theorem mem_bucket_iff (h : Sorts ((List.range n).map fun x => (key x, x)) b)
    {p : κ × List Nat} (hp : p ∈ b) {x : Nat} : x ∈ p.2 ↔ x < n ∧ key x = p.1 := by
  rw [h.bucket_eq hp, List.mem_filter, List.mem_range, decide_eq_true_iff]

theorem exists_bucket (h : Sorts ((List.range n).map fun x => (key x, x)) b) {x : Nat}
    (hx : x < n) : ∃ p ∈ b, p.1 = key x := by
  refine List.mem_map.mp ((h.mem_keys (key x)).mpr ?_)
  simpa using ⟨x, hx, rfl⟩

theorem ascending (h : Sorts ((List.range n).map fun x => (key x, x)) b) {p : κ × List Nat}
    (hp : p ∈ b) : p.2.Pairwise (· < ·) := by
  rw [h.bucket_eq hp]
  exact List.pairwise_lt_range.filter _

/-- The buckets split the indices: a bucket repeats none, and two buckets have two keys. -/
theorem flatten_members_perm (h : Sorts ((List.range n).map fun x => (key x, x)) b) :
    b.members.flatten.Perm (List.range n) := by
  refine (List.perm_ext_iff_of_nodup ?_ List.nodup_range).mpr fun x => ?_
  · rw [List.nodup_flatten]
    constructor
    · intro c hc
      obtain ⟨p, hp, rfl⟩ := List.mem_map.mp hc
      exact (h.ascending hp).imp Nat.ne_of_lt
    · refine List.pairwise_map.mpr ((List.pairwise_map.mp h.keys_nodup).imp_of_mem ?_)
      intro p q hp hq hne x hxp hxq
      exact hne (((h.mem_bucket_iff hp).mp hxp).2.symm.trans ((h.mem_bucket_iff hq).mp hxq).2)
  · rw [List.mem_flatten, List.mem_range]
    constructor
    · rintro ⟨c, hc, hx⟩
      obtain ⟨p, hp, rfl⟩ := List.mem_map.mp hc
      exact ((h.mem_bucket_iff hp).mp hx).1
    · intro hx
      obtain ⟨p, hp, hkey⟩ := h.exists_bucket hx
      exact ⟨p.2, List.mem_map_of_mem hp, (h.mem_bucket_iff hp).mpr ⟨hx, hkey.symm⟩⟩

/-- Buckets by a key of every index below `n` list the classes that the key makes. -/
theorem listing (h : Sorts ((List.range n).map fun x => (key x, x)) b) :
    Listing n (fun x y => key x = key y) b.members := by
  refine ⟨h.flatten_members_perm, fun c hc => ?_, fun c hc => ?_, List.pairwise_map.mpr h.by_first,
    fun x hx y hy => ?_⟩
  · obtain ⟨p, hp, rfl⟩ := List.mem_map.mp hc
    obtain ⟨x, hx, -⟩ := h.exists_mem hp
    exact List.ne_nil_of_mem hx
  · obtain ⟨p, hp, rfl⟩ := List.mem_map.mp hc
    exact h.ascending hp
  · constructor
    · rintro ⟨c, hc, hxc, hyc⟩
      obtain ⟨p, hp, rfl⟩ := List.mem_map.mp hc
      exact ((h.mem_bucket_iff hp).mp hxc).2.trans ((h.mem_bucket_iff hp).mp hyc).2.symm
    · intro hxy
      obtain ⟨p, hp, hkey⟩ := h.exists_bucket hx
      exact ⟨p.2, List.mem_map_of_mem hp, (h.mem_bucket_iff hp).mpr ⟨hx, hkey.symm⟩,
        (h.mem_bucket_iff hp).mpr ⟨hy, hxy.symm.trans hkey.symm⟩⟩

end Sorts

end Buckets
end Artwork
