import Mathlib.Logic.Relation
import Artwork.Grouping
import Artwork.Proofs.Forest.Table

/-!
# Connected components of a drawing

Two shapes are adjacent when they have one style and the box of the earlier one, grown by the gap,
touches the box of the later one.  Grouping makes one shape out of every connected component of this
relation.

Main statement: the classes that grouping finds are those of the chains of adjacent shapes
(`group_components`), and the order in which the buckets of styles are visited is lost.
-/

namespace Artwork

open Relation

namespace Forest

/-! ## Uniting many pairs -/

/-- Unites the two indices of each pair. -/
def uniteAll (f : Forest) (pairs : List (Nat × Nat)) : Forest :=
  pairs.foldl (fun f p => (f.union p.1 p.2).2) f

theorem uniteAll_append (f : Forest) (ps qs : List (Nat × Nat)) :
    f.uniteAll (ps ++ qs) = (f.uniteAll ps).uniteAll qs :=
  List.foldl_append

variable {f g : Forest} {E : Nat → Nat → Prop}

/-- If the roots of `f` tell apart just what `E` does not link, and `g` is `f` with the classes of
`a` and `b` made one, then the roots of `g` tell apart what `E` and this new link do not link. -/
theorem root_eq_iff_of_union {a b : Nat} (hE : ∀ x y, f.root x = f.root y ↔ EqvGen E x y)
    (hg : ∀ x, g.root x = if f.root x = f.root a then f.root b else f.root x) (x y : Nat) :
    g.root x = g.root y ↔ EqvGen (fun i j => E i j ∨ (i = a ∧ j = b)) x y := by
  have hold : ∀ {x y}, f.root x = f.root y → EqvGen (fun i j => E i j ∨ (i = a ∧ j = b)) x y :=
    fun h => EqvGen.mono (fun _ _ => .inl) _ _ ((hE _ _).mp h)
  have hnew : EqvGen (fun i j => E i j ∨ (i = a ∧ j = b)) a b := .rel _ _ (.inr ⟨rfl, rfl⟩)
  constructor
  · intro h
    rw [hg, hg] at h
    by_cases hx : f.root x = f.root a <;> by_cases hy : f.root y = f.root a
    · exact hold (hx.trans hy.symm)
    · rw [if_pos hx, if_neg hy] at h
      exact ((hold hx).trans _ _ _ hnew).trans _ _ _ (hold h)
    · rw [if_neg hx, if_pos hy] at h
      exact ((hold h).trans _ _ _ (hnew.symm _ _)).trans _ _ _ (hold hy.symm)
    · rw [if_neg hx, if_neg hy] at h
      exact hold h
  · intro h
    induction h with
    | rel x y h =>
      obtain h | ⟨rfl, rfl⟩ := h
      · rw [hg, hg, (hE x y).mpr (.rel x y h)]
      · rw [hg, hg, if_pos rfl, ite_self]
    | refl x => rfl
    | symm x y _ ih => exact ih.symm
    | trans x y z _ _ ihxy ihyz => exact ihxy.trans ihyz

theorem Sound.uniteAll (hf : f.Sound) (hE : ∀ x y, f.root x = f.root y ↔ EqvGen E x y)
    {pairs : List (Nat × Nat)} (hpairs : ∀ p ∈ pairs, p.1 < f.size ∧ p.2 < f.size) :
    (f.uniteAll pairs).Sound ∧ (f.uniteAll pairs).size = f.size ∧
      ∀ x y, (f.uniteAll pairs).root x = (f.uniteAll pairs).root y ↔
        EqvGen (fun i j => E i j ∨ (i, j) ∈ pairs) x y := by
  induction pairs generalizing f E with
  | nil =>
    refine ⟨hf, rfl, fun x y => (hE x y).trans ?_⟩
    simp only [List.not_mem_nil, or_false]
  | cons p rest ih =>
    obtain ⟨ha, hb⟩ := hpairs p List.mem_cons_self
    obtain ⟨g, hunion, hg, hsize, hroot⟩ := hf.union ha hb
    have hrest : ∀ q ∈ rest, q.1 < g.size ∧ q.2 < g.size := by
      intro q hq
      rw [hsize]
      exact hpairs q (List.mem_cons_of_mem p hq)
    obtain ⟨hsound, hsize', hiff⟩ := ih hg (root_eq_iff_of_union hE hroot) hrest
    have hall : f.uniteAll (p :: rest) = g.uniteAll rest := by
      unfold Forest.uniteAll
      rw [List.foldl_cons, hunion]
    rw [hall]
    refine ⟨hsound, hsize'.trans hsize, fun x y => (hiff x y).trans ?_⟩
    simp only [List.mem_cons, or_assoc, Prod.ext_iff]

end Forest

namespace Buckets

variable {κ : Type} [DecidableEq κ]

theorem sorts_ofKeys (keys : List κ) : Sorts keys.zipIdx (ofKeys keys) := by
  refine sorts_foldl (List.pairwise_map.mp ?_)
  rw [List.zipIdx_map_snd]
  exact List.pairwise_lt_range'

theorem mem_under_zipIdx {keys : List κ} {key : κ} {x : Nat} :
    x ∈ under keys.zipIdx key ↔ keys[x]? = some key := by
  rw [mem_under, List.mk_mem_zipIdx_iff_getElem?]

end Buckets

namespace Grouping

variable {α : Type} [Scalar α]

/-! ## Adjacent shapes -/

/-- The shape at `i` is before that at `j`, has its style, and is near it. -/
def Adjacent (shapes : List (Shape α)) (gap : α) (i j : Nat) : Prop :=
  i < j ∧ ∃ s t, shapes[i]? = some s ∧ shapes[j]? = some t ∧
    ColorKey.ofColor? s.fill = ColorKey.ofColor? t.fill ∧
    ColorKey.ofColor? s.stroke = ColorKey.ofColor? t.stroke ∧ s.box.isNear t.box gap = true

theorem mem_pairs {β : Type} {xs : List β} {x y : β} : (x, y) ∈ pairs xs ↔ [x, y].Sublist xs := by
  induction xs with
  | nil => simp [pairs]
  | cons z rest ih =>
    rw [pairs, List.mem_append, List.mem_map, ih]
    constructor
    · rintro (⟨w, hw, h⟩ | h)
      · obtain ⟨rfl, rfl⟩ := Prod.mk.inj h
        exact (List.singleton_sublist.mpr hw).cons_cons z
      · exact h.cons z
    · intro h
      cases h with
      | cons _ h => exact .inr h
      | cons_cons _ h => exact .inl ⟨y, List.singleton_sublist.mp h, rfl⟩

/-- The pairs of an ascending list are its ascending pairs. -/
theorem mem_pairs_of_ascending {xs : List Nat} (h : xs.Pairwise (· < ·)) {x y : Nat} :
    (x, y) ∈ pairs xs ↔ x < y ∧ x ∈ xs ∧ y ∈ xs := by
  rw [mem_pairs]
  constructor
  · intro hsub
    have hlt : x < y := by
      have := h.sublist hsub
      simpa using this
    exact ⟨hlt, hsub.subset (by simp), hsub.subset (by simp)⟩
  · rintro ⟨hlt, hx, hy⟩
    refine List.sublist_of_subperm_of_pairwise (r := (· < ·)) ?_ (by simpa using hlt) h
    exact List.subperm_of_subset (by simpa using Nat.ne_of_lt hlt) (by simp [hx, hy])

/-- The pairs that the buckets make one. -/
def links (near : Nat → Nat → Bool) (visits : List (List Nat)) : List (Nat × Nat) :=
  visits.flatMap fun members => (pairs members).filter fun p => near p.1 p.2

theorem foldl_linkBucket (near : Nat → Nat → Bool) (f : Forest) (visits : List (List Nat)) :
    visits.foldl (linkBucket near) f = f.uniteAll (links near visits) := by
  have hbucket : ∀ (f : Forest) (members : List Nat), linkBucket near f members =
      f.uniteAll ((pairs members).filter fun p => near p.1 p.2) := by
    intro f members
    rw [Forest.uniteAll, List.foldl_filter]
    rfl
  induction visits generalizing f with
  | nil => rfl
  | cons members rest ih =>
    rw [List.foldl_cons, hbucket, ih, ← Forest.uniteAll_append]
    rfl

theorem ascending_of_mem_buckets {shapes : List (Shape α)} {m : List Nat}
    (hm : m ∈ buckets shapes) : m.Pairwise (· < ·) := by
  obtain ⟨p, hp, rfl⟩ := List.mem_map.mp hm
  rw [(Buckets.sorts_ofKeys (shapes.map styleKey)).bucket p hp, Buckets.under, List.pairwise_map]
  refine (List.pairwise_map.mp ?_).filter _
  rw [List.zipIdx_map_snd]
  exact List.pairwise_lt_range'

/-- A bucket holds the shapes of one style. -/
theorem exists_style {shapes : List (Shape α)} {m : List Nat} (hm : m ∈ buckets shapes) :
    ∃ key, ∀ x, x ∈ m ↔ ∃ s, shapes[x]? = some s ∧ styleKey s = key := by
  obtain ⟨p, hp, rfl⟩ := List.mem_map.mp hm
  refine ⟨p.1, fun x => ?_⟩
  rw [(Buckets.sorts_ofKeys (shapes.map styleKey)).bucket p hp, Buckets.mem_under_zipIdx,
    List.getElem?_map, Option.map_eq_some_iff]

theorem exists_bucket {shapes : List (Shape α)} {i : Nat} {s : Shape α}
    (hs : shapes[i]? = some s) : ∃ m ∈ buckets shapes, i ∈ m := by
  have hsorts := Buckets.sorts_ofKeys (shapes.map styleKey)
  have hkey : styleKey s ∈ (Buckets.ofKeys (shapes.map styleKey)).map (·.1) := by
    rw [hsorts.mem_keys, List.zipIdx_map_fst]
    exact List.mem_map_of_mem (List.mem_of_getElem? hs)
  obtain ⟨p, hp, hpk⟩ := List.mem_map.mp hkey
  refine ⟨p.2, List.mem_map_of_mem hp, ?_⟩
  rw [hsorts.bucket p hp, Buckets.mem_under_zipIdx, List.getElem?_map, hs, hpk]
  rfl

theorem lt_of_mem_pairs_buckets {shapes : List (Shape α)} {visits : List (List Nat)}
    (hv : visits.Perm (buckets shapes)) :
    ∀ p ∈ visits.flatMap pairs, p.1 < shapes.length ∧ p.2 < shapes.length := by
  intro p hp
  obtain ⟨m, hm, hpair⟩ := List.mem_flatMap.mp hp
  have hm := hv.subset hm
  obtain ⟨key, hkey⟩ := exists_style hm
  obtain ⟨-, hi, hj⟩ := (mem_pairs_of_ascending (ascending_of_mem_buckets hm)).mp hpair
  obtain ⟨s, hs, -⟩ := (hkey p.1).mp hi
  obtain ⟨t, ht, -⟩ := (hkey p.2).mp hj
  exact ⟨(List.getElem?_eq_some_iff.mp hs).1, (List.getElem?_eq_some_iff.mp ht).1⟩

theorem nearAt_iff {shapes : List (Shape α)} {gap : α} {i j : Nat} :
    nearAt shapes.toArray gap i j = true ↔
      ∃ s t, shapes[i]? = some s ∧ shapes[j]? = some t ∧ s.box.isNear t.box gap = true := by
  unfold nearAt
  rw [List.getElem?_toArray, List.getElem?_toArray]
  cases shapes[i]? <;> cases shapes[j]? <;> simp

theorem mem_links {shapes : List (Shape α)} {gap : α} {visits : List (List Nat)}
    (hv : visits.Perm (buckets shapes)) {i j : Nat} :
    (i, j) ∈ links (nearAt shapes.toArray gap) visits ↔ Adjacent shapes gap i j := by
  rw [links, List.mem_flatMap]
  constructor
  · rintro ⟨m, hm, h⟩
    have hm := hv.subset hm
    obtain ⟨hpair, hnear⟩ := List.mem_filter.mp h
    obtain ⟨hlt, hi, hj⟩ := (mem_pairs_of_ascending (ascending_of_mem_buckets hm)).mp hpair
    obtain ⟨s, t, hs, ht, hst⟩ := nearAt_iff.mp hnear
    obtain ⟨key, hkey⟩ := exists_style hm
    obtain ⟨s', hs', hkeyS⟩ := (hkey i).mp hi
    obtain ⟨t', ht', hkeyT⟩ := (hkey j).mp hj
    obtain rfl : s = s' := Option.some.inj (hs.symm.trans hs')
    obtain rfl : t = t' := Option.some.inj (ht.symm.trans ht')
    obtain ⟨hfill, hstroke⟩ := Prod.mk.inj (hkeyS.trans hkeyT.symm)
    exact ⟨hlt, s, t, hs, ht, hfill, hstroke, hst⟩
  · rintro ⟨hlt, s, t, hs, ht, hfill, hstroke, hst⟩
    obtain ⟨m, hm, hi⟩ := exists_bucket hs
    obtain ⟨key, hkey⟩ := exists_style hm
    obtain ⟨s', hs', hkeyS⟩ := (hkey i).mp hi
    obtain rfl : s = s' := Option.some.inj (hs.symm.trans hs')
    have hkeyT : styleKey t = key := (Prod.ext hfill.symm hstroke.symm).trans hkeyS
    have hj : j ∈ m := (hkey j).mpr ⟨t, ht, hkeyT⟩
    refine ⟨m, hv.symm.subset hm, List.mem_filter.mpr ⟨?_, nearAt_iff.mpr ⟨s, t, hs, ht, hst⟩⟩⟩
    exact (mem_pairs_of_ascending (ascending_of_mem_buckets hm)).mpr ⟨hlt, hi, hj⟩

/-- The forest of the shapes after the buckets have been visited in some order. -/
def linked (shapes : List (Shape α)) (gap : α) (visits : List (List Nat)) : Forest :=
  (Forest.singletons shapes.length).uniteAll (links (nearAt shapes.toArray gap) visits)

theorem listing_linked (shapes : List (Shape α)) (gap : α) {visits : List (List Nat)}
    (hv : visits.Perm (buckets shapes)) :
    Listing shapes.length (EqvGen (Adjacent shapes gap)) (linked shapes gap visits).classes.1 := by
  let f := Forest.singletons shapes.length
  have hE : ∀ x y, f.root x = f.root y ↔ EqvGen (fun _ _ => False) x y := by
    intro x y
    rw [Forest.root_singletons, Forest.root_singletons]
    constructor
    · rintro rfl
      exact .refl x
    · intro h
      induction h with
      | rel _ _ h => exact h.elim
      | refl => rfl
      | symm _ _ _ ih => exact ih.symm
      | trans _ _ _ _ _ ihxy ihyz => exact ihxy.trans ihyz
  have hlinks : ∀ p ∈ links (nearAt shapes.toArray gap) visits, p.1 < f.size ∧ p.2 < f.size := by
    intro p hp
    obtain ⟨-, s, t, hs, ht, -⟩ := (mem_links hv).mp hp
    rw [Forest.size_singletons]
    exact ⟨(List.getElem?_eq_some_iff.mp hs).1, (List.getElem?_eq_some_iff.mp ht).1⟩
  obtain ⟨hsound, hsize, hroot⟩ := (Forest.sound_singletons shapes.length).uniteAll hE hlinks
  obtain ⟨cs, g, hclasses, -, hlisting⟩ := hsound.classes
  rw [linked, hclasses]
  rw [hsize, Forest.size_singletons] at hlisting
  refine hlisting.congr fun x _ y _ => (hroot x y).trans ?_
  simp only [false_or, mem_links hv]

theorem listing_classes (shapes : List (Shape α)) (gap : α) :
    Listing shapes.length (EqvGen (Adjacent shapes gap)) (classes shapes gap) := by
  rw [classes, foldl_linkBucket]
  exact listing_linked shapes gap (.refl (buckets shapes))

/-! ## Merged shapes -/

/-- `s` is what the shapes at the indices of `c` merge into: it has the style of the first of them,
all their segments in order, and the box that grows from the first box by union with each box. -/
def IsMerger (shapes : List (Shape α)) (c : List Nat) (s : Shape α) : Prop :=
  ∃ first rest, c.map (shapes[·]?) = (first :: rest).map some ∧
    s.segments = (first :: rest).flatMap Shape.segments ∧
    s.fill = first.fill ∧ s.stroke = first.stroke ∧ s.strokeWidth = first.strokeWidth ∧
    s.box = (first :: rest).foldl (fun b m => b.union m.box) first.box

theorem exists_merger {shapes : List (Shape α)} {c : List Nat} (hne : c ≠ [])
    (hlt : ∀ x ∈ c, x < shapes.length) :
    ∃ s, merge? (c.filterMap (shapes.toArray[·]?)) = some s ∧ IsMerger shapes c s := by
  have hlookup : ∀ c : List Nat, (∀ x ∈ c, x < shapes.length) →
      c.map (shapes[·]?) = (c.filterMap (shapes.toArray[·]?)).map some := by
    intro c hc
    induction c with
    | nil => rfl
    | cons x rest ih =>
      have hx := hc x List.mem_cons_self
      have ih := ih fun y hy => hc y (List.mem_cons_of_mem x hy)
      rw [List.map_cons, ih, List.filterMap_cons, List.getElem?_toArray,
        List.getElem?_eq_getElem hx]
      rfl
  have h := hlookup c hlt
  match hmembers : c.filterMap (shapes.toArray[·]?), h with
  | [], h => exact absurd (List.map_eq_nil_iff.mp h) hne
  | first :: rest, h => exact ⟨_, rfl, first, rest, h, rfl, rfl, rfl, rfl, rfl⟩

theorem forall₂_isMerger {shapes : List (Shape α)} {cs : List (List Nat)} (hne : ∀ c ∈ cs, c ≠ [])
    (hlt : ∀ c ∈ cs, ∀ x ∈ c, x < shapes.length) :
    List.Forall₂ (IsMerger shapes) cs
      (cs.filterMap fun members => merge? (members.filterMap (shapes.toArray[·]?))) := by
  induction cs with
  | nil => exact .nil
  | cons c rest ih =>
    obtain ⟨s, hs, hmerger⟩ := exists_merger (hne c List.mem_cons_self) (hlt c List.mem_cons_self)
    rw [List.filterMap_cons, hs]
    exact .cons hmerger (ih (fun d hd => hne d (List.mem_cons_of_mem c hd))
      (fun d hd => hlt d (List.mem_cons_of_mem c hd)))

/-- The segments of the shape at an index; none at an index outside. -/
def segmentsAt (shapes : List (Shape α)) (i : Nat) : List (Segment α) :=
  (shapes[i]?.map Shape.segments).getD []

theorem IsMerger.segments {shapes : List (Shape α)} {c : List Nat} {s : Shape α}
    (h : IsMerger shapes c s) : s.segments = c.flatMap (segmentsAt shapes) := by
  obtain ⟨first, rest, hmembers, hsegments, -⟩ := h
  rw [hsegments]
  generalize first :: rest = members at hmembers
  induction members generalizing c with
  | nil =>
    rw [List.map_eq_nil_iff.mp hmembers]
    rfl
  | cons m members ih =>
    obtain ⟨x, c, rfl, hx, hc⟩ := List.map_eq_cons_iff.mp hmembers
    rw [List.flatMap_cons, List.flatMap_cons, ih hc, segmentsAt, hx]
    rfl

omit [Scalar α] in
theorem flatMap_segmentsAt_range (shapes : List (Shape α)) :
    (List.range shapes.length).flatMap (segmentsAt shapes) = shapes.flatMap Shape.segments := by
  have hshapes : (List.range shapes.length).map (segmentsAt shapes) =
      shapes.map Shape.segments := by
    refine List.ext_getElem (by simp) fun i h _ => ?_
    have hi : i < shapes.length := by simpa using h
    simp [segmentsAt, hi]
  rw [List.flatMap_def, List.flatMap_def, hshapes]

/-- Mergers of all the classes of a listing hold every segment just as often as the shapes do. -/
theorem segments_perm {shapes out : List (Shape α)} {same : Nat → Nat → Prop}
    {cs : List (List Nat)} (h : Listing shapes.length same cs)
    (hout : List.Forall₂ (IsMerger shapes) cs out) :
    (out.flatMap Shape.segments).Perm (shapes.flatMap Shape.segments) := by
  have hflat : out.flatMap Shape.segments = cs.flatten.flatMap (segmentsAt shapes) := by
    clear h
    induction hout with
    | nil => rfl
    | cons hmerger _ ih =>
      rw [List.flatMap_cons, List.flatten_cons, List.flatMap_append, ih, hmerger.segments]
  rw [hflat, ← flatMap_segmentsAt_range]
  exact h.each_once.flatMap_right (segmentsAt shapes)

/-! ## Checked look-ups -/

/-- The item at an index; an index outside is an error. -/
def lookup {β : Type} (xs : Array β) (i : Nat) : Except OutOfRange β :=
  match xs[i]? with
  | some x => .ok x
  | none => .error ⟨xs.size, i⟩

/-- Unites a pair if its shapes are near, and stops where an index is outside. -/
def tryLink (all : Array (Shape α)) (gap : α) (f : Forest) (p : Nat × Nat) :
    Except OutOfRange Forest := do
  let s ← lookup all p.1
  let t ← lookup all p.2
  if s.box.isNear t.box gap then
    match f.union p.1 p.2 with
    | (.ok (), f) => .ok f
    | (.error e, _) => .error e
  else .ok f

/-- Merges the shapes at some indices, and stops where there is no shape. -/
def tryMerge (all : Array (Shape α)) (members : List Nat) : Except OutOfRange (Shape α) := do
  let first ← lookup all (← lookup members.toArray 0)
  let shapes ← members.mapM (lookup all)
  return { first with
    segments := shapes.flatMap Shape.segments
    box := shapes.foldl (fun b s => b.union s.box) first.box }

/-- Merges the shapes of a drawing with every look-up checked; the buckets are visited in the order
given. -/
def tryGroup (shapes : List (Shape α)) (gap : α) (visits : List (List Nat)) :
    Except OutOfRange (List (Shape α)) := do
  let all := shapes.toArray
  let f ← (visits.flatMap pairs).foldlM (tryLink all gap) (.singletons shapes.length)
  f.classes.1.mapM (tryMerge all)

theorem lookup_of_lt {β : Type} {xs : Array β} {i : Nat} (h : i < xs.size) :
    lookup xs i = .ok xs[i] := by
  rw [lookup, Array.getElem?_eq_getElem h]

theorem tryLink_eq {shapes : List (Shape α)} {gap : α} {f : Forest} (hf : f.Sound)
    (hsize : f.size = shapes.length) {p : Nat × Nat} (hi : p.1 < shapes.length)
    (hj : p.2 < shapes.length) :
    tryLink shapes.toArray gap f p =
      .ok (if nearAt shapes.toArray gap p.1 p.2 then (f.union p.1 p.2).2 else f) := by
  obtain ⟨g, hunion, -⟩ := hf.union (hsize ▸ hi) (hsize ▸ hj)
  have hnear : nearAt shapes.toArray gap p.1 p.2 =
      shapes[p.1].box.isNear shapes[p.2].box gap := by
    simp [nearAt, hi, hj]
  rw [tryLink, lookup_of_lt (by simpa using hi), lookup_of_lt (by simpa using hj), hunion, hnear]
  by_cases h : shapes[p.1].box.isNear shapes[p.2].box gap = true <;>
    simp [bind, Except.bind, h]

theorem foldlM_tryLink {shapes : List (Shape α)} {gap : α} {f : Forest} (hf : f.Sound)
    (hsize : f.size = shapes.length) {ps : List (Nat × Nat)}
    (hps : ∀ p ∈ ps, p.1 < shapes.length ∧ p.2 < shapes.length) :
    ps.foldlM (tryLink shapes.toArray gap) f =
      .ok (f.uniteAll (ps.filter fun p => nearAt shapes.toArray gap p.1 p.2)) := by
  induction ps generalizing f with
  | nil => rfl
  | cons p rest ih =>
    obtain ⟨hi, hj⟩ := hps p List.mem_cons_self
    have hrest := fun q hq => hps q (List.mem_cons_of_mem p hq)
    rw [List.foldlM_cons, tryLink_eq hf hsize hi hj]
    by_cases h : nearAt shapes.toArray gap p.1 p.2 = true
    · obtain ⟨g, hunion, hg, hgsize, -⟩ := hf.union (hsize ▸ hi) (hsize ▸ hj)
      rw [if_pos h, List.filter_cons, if_pos h, hunion, Forest.uniteAll, List.foldl_cons, hunion]
      exact ih hg (hgsize.trans hsize) hrest
    · rw [if_neg h, List.filter_cons, if_neg h]
      exact ih hf hsize hrest

theorem mapM_lookup {β : Type} {xs : List β} {c : List Nat} (hlt : ∀ x ∈ c, x < xs.length) :
    c.mapM (lookup xs.toArray) = .ok (c.filterMap (xs.toArray[·]?)) := by
  induction c with
  | nil => rfl
  | cons x rest ih =>
    have hx := hlt x List.mem_cons_self
    have hlookup : lookup xs.toArray x = .ok xs[x] := lookup_of_lt (by simpa using hx)
    rw [List.mapM_cons, hlookup, ih fun y hy => hlt y (List.mem_cons_of_mem x hy),
      List.filterMap_cons, List.getElem?_toArray, List.getElem?_eq_getElem hx]
    rfl

theorem tryMerge_eq {shapes : List (Shape α)} {c : List Nat} {s : Shape α}
    (hlt : ∀ x ∈ c, x < shapes.length)
    (h : merge? (c.filterMap (shapes.toArray[·]?)) = some s) :
    tryMerge shapes.toArray c = .ok s := by
  cases c with
  | nil => cases h
  | cons x rest =>
    have hx := hlt x List.mem_cons_self
    have hlookup : lookup shapes.toArray x = .ok shapes[x] := lookup_of_lt (by simpa using hx)
    rw [tryMerge, lookup_of_lt (Nat.zero_lt_succ _), mapM_lookup hlt]
    rw [List.filterMap_cons, List.getElem?_toArray, List.getElem?_eq_getElem hx] at h ⊢
    cases h
    simp [bind, Except.bind, hlookup, pure, Except.pure]

theorem mapM_tryMerge {shapes : List (Shape α)} {cs : List (List Nat)} (hne : ∀ c ∈ cs, c ≠ [])
    (hlt : ∀ c ∈ cs, ∀ x ∈ c, x < shapes.length) :
    cs.mapM (tryMerge shapes.toArray) =
      .ok (cs.filterMap fun members => merge? (members.filterMap (shapes.toArray[·]?))) := by
  induction cs with
  | nil => rfl
  | cons c rest ih =>
    obtain ⟨s, hs, -⟩ := exists_merger (hne c List.mem_cons_self) (hlt c List.mem_cons_self)
    rw [List.mapM_cons, tryMerge_eq (hlt c List.mem_cons_self) hs,
      ih (fun d hd => hne d (List.mem_cons_of_mem c hd))
        (fun d hd => hlt d (List.mem_cons_of_mem c hd)), List.filterMap_cons, hs]
    rfl

theorem tryGroup_eq (shapes : List (Shape α)) (gap : α) {visits : List (List Nat)}
    (hv : visits.Perm (buckets shapes)) : tryGroup shapes gap visits = .ok (group shapes gap) := by
  have hlisting := listing_classes shapes gap
  rw [tryGroup, foldlM_tryLink (Forest.sound_singletons shapes.length)
    (Forest.size_singletons shapes.length) (lt_of_mem_pairs_buckets hv)]
  have hlinked : (Forest.singletons shapes.length).uniteAll
      ((visits.flatMap pairs).filter fun p => nearAt shapes.toArray gap p.1 p.2) =
      linked shapes gap visits := by
    rw [List.filter_flatMap]
    rfl
  have hclasses : (linked shapes gap visits).classes.1 = classes shapes gap :=
    (listing_linked shapes gap hv).unique hlisting
  rw [hlinked]
  show (linked shapes gap visits).classes.1.mapM _ = _
  rw [hclasses]
  exact mapM_tryMerge hlisting.ne_nil fun _ hc _ hx => hlisting.lt_of_mem hc hx

/-- Grouping makes one shape out of each connected component of adjacent shapes.  The components
stand in the order of their first members, and none of the segments is lost or doubled.  No look-up
on the way goes wrong, and it makes no difference in which order the buckets of styles are
visited. -/
theorem group_components (shapes : List (Shape α)) (gap : α) :
    ∃ cs, Listing shapes.length (EqvGen (Adjacent shapes gap)) cs ∧
      List.Forall₂ (IsMerger shapes) cs (group shapes gap) ∧
      ((group shapes gap).flatMap Shape.segments).Perm (shapes.flatMap Shape.segments) ∧
      ∀ visits, visits.Perm (buckets shapes) →
        tryGroup shapes gap visits = .ok (group shapes gap) := by
  have hlisting := listing_classes shapes gap
  have hmergers := forall₂_isMerger hlisting.ne_nil fun _ hc _ hx => hlisting.lt_of_mem hc hx
  exact ⟨_, hlisting, hmergers, segments_perm hlisting hmergers,
    fun visits hv => tryGroup_eq shapes gap hv⟩

end Grouping
end Artwork
