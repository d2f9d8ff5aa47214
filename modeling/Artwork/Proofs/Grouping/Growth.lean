import Mathlib.Data.List.NodupEquivFin
import Artwork.Proofs.Grouping.Order

/-!
# Wider gaps and more shapes

On exact coordinates a wider gap links what a smaller one links, and shapes that are painted in
between only move the others to later positions.  So a chain of near shapes is found again among
more shapes and at a wider gap, and no merged shape is ever split (`group_growth`).
-/

namespace Artwork

open Relation

namespace Grouping

variable {xs ys : List (Shape Rat)} {gap wider : Rat} {f : Nat → Nat}

/-- Shapes that are together stay so wherever they are found again. -/
theorem Together.map {i j : Nat} (h : Together xs gap i j)
    (hf : ∀ i s, xs[i]? = some s → ys[f i]? = some s) (hgap : gap ≤ wider) :
    Together ys wider (f i) (f j) := by
  have hlt : ∀ {k : Nat}, k < xs.length → f k < ys.length := fun hk =>
    (List.getElem?_eq_some_iff.mp (hf _ _ (List.getElem?_eq_getElem hk))).1
  obtain ⟨hi, hj, hchain⟩ := together_iff.mp h
  exact together_iff.mpr ⟨hlt hi, hlt hj, chain_map hf hgap hchain⟩

/-- All members of a merged shape go into one merged shape. -/
theorem exists_wider_class (hf : ∀ i s, xs[i]? = some s → ys[f i]? = some s) (hgap : gap ≤ wider)
    {c : List Nat} (hc : c ∈ classes xs gap) : ∃ d ∈ classes ys wider, ∀ i ∈ c, f i ∈ d := by
  have hlisting := listing_classes xs gap
  have hwider := listing_classes ys wider
  obtain ⟨i, hi⟩ := List.exists_mem_of_ne_nil c (hlisting.ne_nil c hc)
  have htogether : ∀ j ∈ c, Together ys wider (f i) (f j) := fun j hj =>
    have hchain := (hlisting.mem_iff hc hi).mp hj
    (together_iff.mpr ⟨hlisting.lt_of_mem hc hi, hchain⟩).map hf hgap
  obtain ⟨d, hd, hid⟩ := hwider.exists_mem (together_iff.mp (htogether i hi)).1
  exact ⟨d, hd, fun j hj => (hwider.mem_iff hd hid).mpr (together_iff.mp (htogether j hj)).2⟩

/-- Shapes that merge still do when the gap is wider and other shapes are painted in between,
wherever they stand among these, and the members of one merged shape go into one merged shape. -/
theorem group_growth (hsub : xs.Sublist ys) (hgap : gap ≤ wider) :
    (∃ f : Nat ↪o Nat, ∀ i : Nat, xs[i]? = ys[f i]?) ∧
      ∀ f : Nat → Nat, (∀ i s, xs[i]? = some s → ys[f i]? = some s) →
        (∀ i j, Together xs gap i j → Together ys wider (f i) (f j)) ∧
          ∀ p ∈ (classes xs gap).zip (group xs gap),
            ∃ q ∈ (classes ys wider).zip (group ys wider),
              IsMerger ys q.1 q.2 ∧ ∀ i ∈ p.1, f i ∈ q.1 := by
  refine ⟨List.sublist_iff_exists_orderEmbedding_getElem?_eq.mp hsub, fun f hf =>
    ⟨fun i j h => h.map hf hgap, fun p hp => ?_⟩⟩
  obtain ⟨d, hd, hmem⟩ := exists_wider_class hf hgap (List.of_mem_zip hp).1
  obtain ⟨s, hzip, hmerger⟩ := exists_zip_mem hd
  exact ⟨(d, s), hzip, hmerger, hmem⟩

/-- Two squares merge across a third one of another style that is painted between them. -/
theorem group_growth_between :
    let square : Rat → Color Rat → Shape Rat := fun x c => ⟨[], some c, none, 1, ⟨x, 0, 1, 1⟩⟩
    let left := square 0 .black
    let right := square 3 .black
    let middle := square 1 ⟨1, 0, 0⟩
    [left, right].Sublist [left, middle, right] ∧ (2 : Rat) ≤ 5 / 2 ∧
      Together [left, right] 2 0 1 ∧ Together [left, middle, right] (5 / 2) 0 2 := by
  intro square left right middle
  have hsub : [left, right].Sublist [left, middle, right] := .cons_cons _ (.cons _ (.refl _))
  have hgap : (2 : Rat) ≤ 5 / 2 := by norm_num
  have hnear : left.box.isNear right.box 2 = true := by decide +kernel
  have htogether : Together [left, right] 2 0 1 :=
    together_iff.mpr ⟨by simp, by simp, chain_of_near rfl rfl rfl hnear⟩
  have hpositions : ∀ i s, [left, right][i]? = some s → [left, middle, right][2 * i]? = some s := by
    intro i s hi
    match i, hi with
    | 0, hi | 1, hi => exact hi
  exact ⟨hsub, hgap, htogether, ((group_growth hsub hgap).2 (2 * ·) hpositions).1 0 1 htogether⟩

end Grouping
end Artwork
