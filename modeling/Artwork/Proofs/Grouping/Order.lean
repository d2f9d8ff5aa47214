import Mathlib.Data.List.FinRange
import Artwork.Proofs.Geometry.Hull
import Artwork.Proofs.Grouping.Members

/-!
# Order of painting

The scan grows the box of the earlier of two shapes and asks whether it touches that of the later
one.  On exact coordinates this compares the distance between the boxes with the gap, so that the
answer is the same the other way round.  Chains of near shapes of one style are then carried along
by any map of positions that keeps the shapes (`chain_map`), and who merges with whom does not
depend on the order of painting (`group_order_independent`).
-/

namespace Artwork

open Relation

namespace Box

variable {b c : Box Rat} {gap : Rat}

/-- The width of the strip between two boxes; nothing when they overlap across. -/
def apartAcross (b c : Box Rat) : Rat := max 0 (max (c.x - b.right) (b.x - c.right))

/-- The height of the strip between two boxes; nothing when they overlap down the page. -/
def apartDown (b c : Box Rat) : Rat := max 0 (max (c.y - b.bottom) (b.y - c.bottom))

/-- Two boxes are near when neither strip between them is wider than the gap. -/
theorem isNear_exact_iff (hgap : 0 ≤ gap) :
    b.isNear c gap = true ↔ b.apartAcross c ≤ gap ∧ b.apartDown c ≤ gap := by
  unfold isNear apartAcross apartDown
  rw [decide_eq_true_iff, max_le_iff, max_le_iff, max_le_iff, max_le_iff]
  constructor
  · rintro ⟨hleft, hright, htop, hbottom⟩
    exact ⟨⟨hgap, by linarith, by linarith⟩, hgap, by linarith, by linarith⟩
  · rintro ⟨⟨-, hright, hleft⟩, -, hbottom, htop⟩
    exact ⟨by linarith, by linarith, by linarith, by linarith⟩

theorem isNear_comm (b c : Box Rat) (gap : Rat) : b.isNear c gap = c.isNear b gap := by
  unfold isNear
  refine decide_eq_decide.mpr ?_
  rw [sub_le_iff_le_add, sub_le_iff_le_add, sub_le_iff_le_add, sub_le_iff_le_add]
  tauto

theorem isNear_mono {wider : Rat} (hgap : gap ≤ wider) (h : b.isNear c gap = true) :
    b.isNear c wider = true := by
  unfold isNear at h ⊢
  rw [decide_eq_true_iff] at h ⊢
  obtain ⟨hleft, hright, htop, hbottom⟩ := h
  exact ⟨by linarith, by linarith, by linarith, by linarith⟩

end Box

namespace Grouping

variable {shapes xs ys : List (Shape Rat)} {gap wider : Rat} {i j : Nat} {s t : Shape Rat}

/-- Near shapes of one style are linked, in whichever order they stand. -/
theorem chain_of_near (hs : shapes[i]? = some s) (ht : shapes[j]? = some t)
    (hkey : styleKey s = styleKey t) (hnear : s.box.isNear t.box gap = true) :
    EqvGen (Adjacent shapes gap) i j := by
  obtain ⟨hfill, hstroke⟩ := Prod.mk.inj hkey
  rcases Nat.lt_trichotomy i j with hlt | rfl | hgt
  · exact .rel i j ⟨hlt, s, t, hs, ht, hfill, hstroke, hnear⟩
  · exact .refl i
  · rw [Box.isNear_comm] at hnear
    exact .symm j i (.rel j i ⟨hgt, t, s, ht, hs, hfill.symm, hstroke.symm, hnear⟩)

/-- A chain follows its shapes to other positions. -/
theorem chain_map {f : Nat → Nat} (hf : ∀ i s, xs[i]? = some s → ys[f i]? = some s)
    (hgap : gap ≤ wider) (h : EqvGen (Adjacent xs gap) i j) :
    EqvGen (Adjacent ys wider) (f i) (f j) := by
  induction h with
  | rel i j h =>
    obtain ⟨-, s, t, hs, ht, hfill, hstroke, hnear⟩ := h
    exact chain_of_near (hf i s hs) (hf j t ht) (Prod.ext hfill hstroke)
      (Box.isNear_mono hgap hnear)
  | refl i => exact .refl (f i)
  | symm i j _ ih => exact .symm _ _ ih
  | trans i j k _ _ ihij ihjk => exact .trans _ _ _ ihij ihjk

/-! ## Another order of the same shapes -/

/-- The shapes in another order: at `i` stands what stood at `σ i`. -/
def reordered (shapes : List (Shape Rat)) (σ : Equiv.Perm (Fin shapes.length)) :
    List (Shape Rat) :=
  List.ofFn fun i => shapes[σ i]

theorem reordered_perm (shapes : List (Shape Rat)) (σ : Equiv.Perm (Fin shapes.length)) :
    (reordered shapes σ).Perm shapes := by
  have hperm := σ.ofFn_comp_perm shapes.get
  rwa [List.ofFn_get] at hperm

@[simp]
theorem length_reordered (shapes : List (Shape Rat)) (σ : Equiv.Perm (Fin shapes.length)) :
    (reordered shapes σ).length = shapes.length :=
  List.length_ofFn

/-- A permutation of the positions below `n` that leaves the others. -/
def extended {n : Nat} (σ : Equiv.Perm (Fin n)) (i : Nat) : Nat :=
  if h : i < n then σ ⟨i, h⟩ else i

@[simp]
theorem extended_val {n : Nat} (σ : Equiv.Perm (Fin n)) (i : Fin n) : extended σ i = σ i :=
  dif_pos i.isLt

theorem getElem?_reordered {σ : Equiv.Perm (Fin shapes.length)} (i : Fin shapes.length) :
    (reordered shapes σ)[i.val]? = shapes[(σ i).val]? := by
  rw [reordered, List.getElem?_ofFn, dif_pos i.isLt, List.getElem?_eq_getElem]
  rfl

theorem chain_reordered_iff {σ : Equiv.Perm (Fin shapes.length)} (i j : Fin shapes.length) :
    EqvGen (Adjacent (reordered shapes σ) gap) i j ↔ EqvGen (Adjacent shapes gap) (σ i) (σ j) := by
  constructor
  · intro h
    have hf : ∀ k s, (reordered shapes σ)[k]? = some s → shapes[extended σ k]? = some s := by
      intro k s hk
      have hlt : k < shapes.length := by
        simpa using (List.getElem?_eq_some_iff.mp hk).1
      have hextended : extended σ k = σ ⟨k, hlt⟩ := extended_val σ ⟨k, hlt⟩
      rwa [hextended, ← getElem?_reordered]
    simpa using chain_map hf (le_refl gap) h
  · intro h
    have hf : ∀ k s, shapes[k]? = some s → (reordered shapes σ)[extended σ.symm k]? = some s := by
      intro k s hk
      have hlt : k < shapes.length := (List.getElem?_eq_some_iff.mp hk).1
      have hextended : extended σ.symm k = σ.symm ⟨k, hlt⟩ := extended_val σ.symm ⟨k, hlt⟩
      rwa [hextended, getElem?_reordered, Equiv.apply_symm_apply]
    simpa using chain_map hf (le_refl gap) h

/-- Nearness is symmetric and compares distances with the gap, and shapes are together in any order
of painting or in none. -/
theorem group_order_independent :
    (∀ (b c : Box Rat) (gap : Rat), 0 ≤ gap →
      (b.isNear c gap = true ↔ b.apartAcross c ≤ gap ∧ b.apartDown c ≤ gap) ∧
        b.isNear c gap = c.isNear b gap) ∧
      ∀ (shapes : List (Shape Rat)) (σ : Equiv.Perm (Fin shapes.length)) (gap : Rat),
        (reordered shapes σ).Perm shapes ∧
          ∀ i j : Fin shapes.length,
            Together (reordered shapes σ) gap i j ↔ Together shapes gap (σ i) (σ j) := by
  refine ⟨fun b c gap hgap => ⟨Box.isNear_exact_iff hgap, Box.isNear_comm b c gap⟩,
    fun shapes σ gap => ⟨reordered_perm shapes σ, fun i j => ?_⟩⟩
  rw [together_iff, together_iff, chain_reordered_iff, length_reordered]
  simp only [Fin.is_lt, true_and]

/-- Boxes that are just the gap apart are near, from either side. -/
theorem group_order_independent_strip :
    let b : Box Rat := ⟨0, 0, 1, 1⟩
    let c : Box Rat := ⟨3, 0, 1, 1⟩
    0 ≤ (2 : Rat) ∧ b.apartAcross c = 2 ∧ b.apartDown c = 0 ∧
      b.isNear c 2 = true ∧ c.isNear b 2 = true := by
  intro b c
  have hgap : 0 ≤ (2 : Rat) := by decide
  have hacross : b.apartAcross c = 2 := by decide +kernel
  have hdown : b.apartDown c = 0 := by decide +kernel
  obtain ⟨hnear, hcomm⟩ := group_order_independent.1 b c 2 hgap
  have hbc : b.isNear c 2 = true := hnear.mpr ⟨hacross.le, hdown.le.trans hgap⟩
  exact ⟨hgap, hacross, hdown, hbc, hcomm ▸ hbc⟩

end Grouping
end Artwork
