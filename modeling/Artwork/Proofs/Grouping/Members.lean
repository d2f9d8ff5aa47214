import Artwork.Proofs.Grouping.Components

/-!
# Members of merged shapes

Each shape that comes out of grouping merges the members of one class, some of the shapes that went
in, in their order (`exists_members`).  Two shapes are `Together` when they are members of one: just
when a chain of adjacent shapes links them (`together_iff`), and then their styles have one key.
-/

namespace Artwork

open Relation

namespace Grouping

/-- The items at ascending positions. -/
theorem filterMap_getElem?_sublist {β : Type} {xs : List β} {idx : List Nat}
    (hasc : idx.Pairwise (· < ·)) (hlt : ∀ i ∈ idx, i < xs.length) :
    (idx.filterMap (xs.toArray[·]?)).Sublist xs := by
  have hrange : (List.range xs.length).filterMap (xs.toArray[·]?) = xs := by
    have hmap : (List.range xs.length).map (xs.toArray[·]?) = xs.map some := by
      refine List.ext_getElem (by simp) fun i h _ => ?_
      have hi : i < xs.length := by simpa using h
      simp [hi]
    calc (List.range xs.length).filterMap (xs.toArray[·]?)
        = ((List.range xs.length).map (xs.toArray[·]?)).filterMap id := by
          rw [List.filterMap_map]
          rfl
      _ = xs := by
          rw [hmap, List.filterMap_map]
          exact List.filterMap_some
  have hsub : idx.Sublist (List.range xs.length) := by
    have hnodup : idx.Nodup := hasc.imp Nat.ne_of_lt
    have hsubset : idx ⊆ List.range xs.length := fun i hi => List.mem_range.mpr (hlt i hi)
    exact List.sublist_of_subperm_of_pairwise (hnodup.subperm hsubset) hasc
      List.pairwise_lt_range
  have hmap := hsub.filterMap (xs.toArray[·]?)
  rwa [hrange] at hmap

variable {α : Type} [Scalar α] {shapes : List (Shape α)} {gap : α}

/-- A shape that comes out of grouping is merged from some of the shapes, in their order. -/
theorem exists_members {c : Shape α} (hc : c ∈ group shapes gap) :
    ∃ members, members.Sublist shapes ∧ merge? members = some c := by
  obtain ⟨idx, hidx, hmerge⟩ := List.mem_filterMap.mp hc
  have hlisting := listing_classes shapes gap
  have hlt : ∀ i ∈ idx, i < shapes.length := fun i hi => hlisting.lt_of_mem hidx hi
  exact ⟨_, filterMap_getElem?_sublist (hlisting.ascending idx hidx) hlt, hmerge⟩

theorem mergers (shapes : List (Shape α)) (gap : α) :
    List.Forall₂ (IsMerger shapes) (classes shapes gap) (group shapes gap) :=
  have hlisting := listing_classes shapes gap
  forall₂_isMerger hlisting.ne_nil fun _ hc _ hx => hlisting.lt_of_mem hc hx

/-! ## Two members of one shape -/

/-- The shapes at `i` and at `j` are members of one merged shape. -/
def Together (shapes : List (Shape α)) (gap : α) (i j : Nat) : Prop :=
  ∃ p ∈ (classes shapes gap).zip (group shapes gap), IsMerger shapes p.1 p.2 ∧ i ∈ p.1 ∧ j ∈ p.1

theorem exists_zip_mem {c : List Nat} (hc : c ∈ classes shapes gap) :
    ∃ s, (c, s) ∈ (classes shapes gap).zip (group shapes gap) ∧ IsMerger shapes c s := by
  obtain ⟨hlength, hmergers⟩ := List.forall₂_iff_zip.mp (mergers shapes gap)
  obtain ⟨k, hk, rfl⟩ := List.mem_iff_getElem.mp hc
  have hzip : ((classes shapes gap)[k], (group shapes gap)[k]) ∈
      (classes shapes gap).zip (group shapes gap) := by
    rw [List.mem_iff_getElem]
    exact ⟨k, by simpa [← hlength] using hk, List.getElem_zip⟩
  exact ⟨_, hzip, hmergers hzip⟩

/-- Two shapes become one just when a chain of adjacent shapes links them. -/
theorem together_iff {i j : Nat} :
    Together shapes gap i j ↔
      i < shapes.length ∧ j < shapes.length ∧ EqvGen (Adjacent shapes gap) i j := by
  have hlisting := listing_classes shapes gap
  constructor
  · rintro ⟨⟨c, s⟩, hp, -, hi, hj⟩
    have hc := (List.of_mem_zip hp).1
    have hin := hlisting.lt_of_mem hc hi
    have hjn := hlisting.lt_of_mem hc hj
    exact ⟨hin, hjn, (hlisting.together i hin j hjn).mp ⟨c, hc, hi, hj⟩⟩
  · rintro ⟨hi, hj, hchain⟩
    obtain ⟨c, hc, hic, hjc⟩ := (hlisting.together i hi j hj).mpr hchain
    obtain ⟨s, hzip, hmerger⟩ := exists_zip_mem hc
    exact ⟨(c, s), hzip, hmerger, hic, hjc⟩

/-- A chain never leaves its style. -/
theorem styleKey_of_chain {i j : Nat} (h : EqvGen (Adjacent shapes gap) i j) :
    shapes[i]?.map styleKey = shapes[j]?.map styleKey := by
  induction h with
  | rel i j h =>
    obtain ⟨-, s, t, hs, ht, hfill, hstroke, -⟩ := h
    rw [hs, ht, Option.map_some, Option.map_some, styleKey, styleKey, hfill, hstroke]
  | refl i => rfl
  | symm i j _ ih => exact ih.symm
  | trans i j k _ _ ihij ihjk => exact ihij.trans ihjk

theorem Together.styleKey_eq {i j : Nat} {s t : Shape α} (h : Together shapes gap i j)
    (hs : shapes[i]? = some s) (ht : shapes[j]? = some t) : styleKey s = styleKey t := by
  obtain ⟨-, -, hchain⟩ := together_iff.mp h
  have hkeys := styleKey_of_chain hchain
  rw [hs, ht] at hkeys
  exact Option.some.inj hkeys

end Grouping
end Artwork
