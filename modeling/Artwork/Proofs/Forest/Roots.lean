import Mathlib.Data.Fintype.Pigeonhole
import Mathlib.Logic.Function.Iterate
import Artwork.Forest

/-!
# Roots of a forest

The root above an index is found by following parents; halving moves parents, and no root.

`Rises f k x r` says that at most `k` steps lead from `x` to the root `r`.  Halving a path only
makes rises shorter, so a forest whose indices all rise to roots (`Sound`) stays so through any
number of halvings, and each index keeps its root.  A rise never meets an index twice, so the size
of the forest bounds it, and the climb of `Forest.find` comes to its end by itself (`Climbs`).
-/

namespace Artwork
namespace Forest

theorem parent_of_size_le {f : Forest} {x : Nat} (h : f.size ≤ x) : f.parent x = x := by
  unfold parent
  rw [Array.getD_eq_getD_getElem?, Array.getElem?_eq_none h]
  rfl

@[simp]
theorem size_hang (f : Forest) (x y : Nat) : (f.hang x y).size = f.size := by
  simp [size, hang]

theorem parent_hang_self {f : Forest} {x : Nat} (h : x < f.size) (y : Nat) :
    (f.hang x y).parent x = y := by
  have hx : x < f.parents.size := h
  simp [parent, hang, hx]

theorem parent_hang_ne {f : Forest} {x y z : Nat} (h : z ≠ x) :
    (f.hang x y).parent z = f.parent z := by
  simp [parent, hang, Ne.symm h]

@[simp]
theorem size_singletons (n : Nat) : (singletons n).size = n := by
  simp [size, singletons]

theorem parent_singletons (n x : Nat) : (singletons n).parent x = x := by
  by_cases h : x < n
  · simp [parent, singletons, h]
  · exact parent_of_size_le (by rw [size_singletons]; omega)

/-- At most `k` steps from parent to parent lead from `x` to the root `r`. -/
inductive Rises (f : Forest) : Nat → Nat → Nat → Prop
  | here {x : Nat} (k : Nat) (root : f.parent x = x) : Rises f k x x
  | up {k x r : Nat} (rest : Rises f k (f.parent x) r) : Rises f (k + 1) x r

namespace Rises

variable {f : Forest} {k m x r s : Nat}

theorem mono (h : f.Rises k x r) (hk : k ≤ m) : f.Rises m x r := by
  induction h generalizing m with
  | here _ root => exact .here m root
  | up rest ih =>
    obtain ⟨m, rfl⟩ : ∃ j, m = j + 1 := ⟨m - 1, by omega⟩
    exact .up (ih (by omega))

theorem parent_root (h : f.Rises k x r) : f.parent r = r := by
  induction h with
  | here _ root => exact root
  | up _ ih => exact ih

theorem iff_iterate : f.Rises k x r ↔ f.parent^[k] x = r ∧ f.parent r = r := by
  constructor
  · intro h
    refine ⟨?_, h.parent_root⟩
    induction h with
    | here k root => exact Function.iterate_fixed root k
    | up _ ih => rw [Function.iterate_succ_apply, ih]
  · rintro ⟨rfl, root⟩
    induction k generalizing x with
    | zero => exact .here 0 root
    | succ k ih => exact .up (ih root)

theorem eq_of_root (h : f.Rises k x r) (root : f.parent x = x) : r = x := by
  rw [← (iff_iterate.mp h).1, Function.iterate_fixed root]

/-- A step less is left above the parent, and nothing is lost at a root. -/
theorem parent (h : f.Rises (k + 1) x r) : f.Rises k (f.parent x) r := by
  cases h with
  | here _ root =>
    rw [root]
    exact .here k root
  | up rest => exact rest

theorem parent_same (h : f.Rises k x r) : f.Rises k (f.parent x) r :=
  (h.mono (Nat.le_succ k)).parent

end Rises

/-- Every parent is an index of the forest. -/
def InRange (f : Forest) : Prop := ∀ x < f.size, f.parent x < f.size

theorem InRange.iterate {f : Forest} (hf : f.InRange) {x : Nat} (hx : x < f.size) (k : Nat) :
    f.parent^[k] x < f.size := by
  induction k with
  | zero => exact hx
  | succ k ih =>
    rw [Function.iterate_succ_apply']
    exact hf _ ih

/- A rise of the least length meets as many different indices as it has steps: were one met twice,
what lies between could be left out. -/
theorem Rises.within_size {f : Forest} (hf : f.InRange) {k x r : Nat} (h : f.Rises k x r) :
    f.Rises f.size x r := by
  by_cases hx : x < f.size
  · classical
    have hex : ∃ k, f.Rises k x r := ⟨k, h⟩
    by_cases hle : Nat.find hex ≤ f.size
    · exact (Nat.find_spec hex).mono hle
    · exfalso
      obtain ⟨i, j, hne, hij⟩ := Fintype.exists_ne_map_eq_of_card_lt
        (fun i : Fin (f.size + 1) => (⟨f.parent^[i] x, hf.iterate hx i⟩ : Fin f.size)) (by simp)
      wlog hlt' : i < j generalizing i j
      · exact this j i hne.symm hij.symm (lt_of_le_of_ne (not_lt.mp hlt') hne.symm)
      have hij' : f.parent^[(i : Nat)] x = f.parent^[(j : Nat)] x := congrArg Fin.val hij
      have hlong := iff_iterate.mp (Nat.find_spec hex)
      have hj : (j : Nat) < Nat.find hex := by omega
      refine Nat.find_min hex (m := Nat.find hex - j + i) (by omega) (iff_iterate.mpr ⟨?_, hlong.2⟩)
      rw [Function.iterate_add_apply, hij', ← Function.iterate_add_apply,
        Nat.sub_add_cancel hj.le]
      exact hlong.1
  · have root := parent_of_size_le (Nat.le_of_not_lt hx)
    rw [h.eq_of_root root]
    exact .here _ root

/-- The parents of a sound forest are indices of it, and lead from each index to a root. -/
structure Sound (f : Forest) : Prop where
  inRange : f.InRange
  rises : ∀ x, ∃ k r, f.Rises k x r

/-- The root above `x`: where as many steps lead as the forest has indices. -/
def root (f : Forest) (x : Nat) : Nat := f.parent^[f.size] x

theorem Rises.root_eq {f : Forest} (hf : f.Sound) {k x r : Nat} (h : f.Rises k x r) :
    f.root x = r :=
  (Rises.iff_iterate.mp (h.within_size hf.inRange)).1

namespace Sound

variable {f : Forest} {x : Nat}

theorem rises_root (hf : f.Sound) (x : Nat) : f.Rises f.size x (f.root x) := by
  obtain ⟨k, r, h⟩ := hf.rises x
  rw [h.root_eq hf]
  exact h.within_size hf.inRange

theorem parent_root (hf : f.Sound) (x : Nat) : f.parent (f.root x) = f.root x :=
  (hf.rises_root x).parent_root

theorem root_lt (hf : f.Sound) (hx : x < f.size) : f.root x < f.size := hf.inRange.iterate hx f.size

end Sound

theorem sound_singletons (n : Nat) : (singletons n).Sound where
  inRange x hx := by rwa [parent_singletons]
  rises x := ⟨0, x, .here 0 (parent_singletons n x)⟩

theorem root_singletons (n x : Nat) : (singletons n).root x = x :=
  (Rises.here 0 (parent_singletons n x)).root_eq (sound_singletons n)

/-! ## Halving -/

/-- Hangs `x` under its grandparent. -/
def halve (f : Forest) (x : Nat) : Forest := f.hang x (f.parent (f.parent x))

@[simp]
theorem size_halve (f : Forest) (x : Nat) : (f.halve x).size = f.size := size_hang ..

theorem parent_halve_self (f : Forest) (x : Nat) :
    (f.halve x).parent x = f.parent (f.parent x) := by
  by_cases hx : x < f.size
  · exact parent_hang_self hx _
  · have hx : f.size ≤ x := Nat.le_of_not_lt hx
    rw [parent_of_size_le (f := f.halve x) (by rwa [size_halve]), parent_of_size_le hx,
      parent_of_size_le hx]

theorem parent_halve_ne {f : Forest} {x z : Nat} (h : z ≠ x) :
    (f.halve x).parent z = f.parent z := parent_hang_ne h

/-- `g` is `f` with shorter rises: each index of `f` still rises to its root, in no more steps. -/
structure Shortens (f g : Forest) : Prop where
  size : g.size = f.size
  inRange : f.InRange → g.InRange
  rises : ∀ {k x r : Nat}, f.Rises k x r → g.Rises k x r

namespace Shortens

variable {f g h : Forest}

theorem refl (f : Forest) : f.Shortens f := ⟨rfl, id, id⟩

theorem trans (hfg : f.Shortens g) (hgh : g.Shortens h) : f.Shortens h where
  size := hgh.size.trans hfg.size
  inRange hf := hgh.inRange (hfg.inRange hf)
  rises r := hgh.rises (hfg.rises r)

theorem sound (hfg : f.Shortens g) (hf : f.Sound) : g.Sound where
  inRange := hfg.inRange hf.inRange
  rises x := by
    obtain ⟨k, r, h⟩ := hf.rises x
    exact ⟨k, r, hfg.rises h⟩

theorem root_eq (hfg : f.Shortens g) (hf : f.Sound) (x : Nat) : g.root x = f.root x :=
  (hfg.rises (hf.rises_root x)).root_eq (hfg.sound hf)

end Shortens

/- By induction on the rise: what lies above the parent has been shortened already, and the one
index that was moved stands a step nearer to the root. -/
theorem Rises.halve {f : Forest} {k y r : Nat} (h : f.Rises k y r) (x : Nat) :
    (f.halve x).Rises k y r := by
  induction h with
  | @here y k root =>
    refine .here k ?_
    by_cases hy : y = x
    · rw [← hy, parent_halve_self, root, root]
    · rw [parent_halve_ne hy, root]
  | @up k y r rest ih =>
    by_cases hy : y = x
    · subst hy
      refine .up ?_
      rw [parent_halve_self]
      by_cases hp : f.parent y = y
      · rw [hp, hp]
        rwa [hp] at ih
      · have h := ih.parent_same
        rwa [parent_halve_ne hp] at h
    · refine .up ?_
      rwa [parent_halve_ne hy]

theorem shortens_halve (f : Forest) (x : Nat) : f.Shortens (f.halve x) where
  size := size_halve f x
  inRange hf y hy := by
    rw [size_halve] at hy ⊢
    by_cases hyx : y = x
    · rw [hyx, parent_halve_self]
      exact hf _ (hf _ (hyx ▸ hy))
    · rw [parent_halve_ne hyx]
      exact hf y hy
  rises h := h.halve x

/-! ## Climbing -/

/-- The climb from `x` in `f` without a limit on its steps: it comes to its end at `r` and leaves
`g`. -/
inductive Climbs : Forest → Nat → Nat → Forest → Prop
  | root {f : Forest} {x : Nat} (h : f.parent x = x) : Climbs f x x f
  | hop {f g : Forest} {x r : Nat} (h : f.parent x ≠ x)
      (rest : Climbs (f.halve x) ((f.halve x).parent x) r g) : Climbs f x r g

theorem shortens_climb (f : Forest) (x steps : Nat) : f.Shortens (f.climb x steps).2 := by
  induction steps generalizing f x with
  | zero => exact .refl f
  | succ steps ih =>
    unfold climb
    split
    · exact .refl f
    · exact (shortens_halve f x).trans (ih (f.halve x) ((f.halve x).parent x))

/- One step of the climb uses up two steps of the rise, or the last one. -/
theorem Rises.climbs {f : Forest} {k x r steps : Nat} (h : f.Rises k x r) (hk : k ≤ steps) :
    (f.climb x steps).1 = r ∧ Climbs f x r (f.climb x steps).2 := by
  induction steps generalizing f k x with
  | zero =>
    obtain rfl : k = 0 := by omega
    cases h with
    | here _ root => exact ⟨rfl, .root root⟩
  | succ steps ih =>
    unfold climb
    split
    · next root =>
      obtain rfl := h.eq_of_root root
      exact ⟨rfl, .root root⟩
    · next hx =>
      have hrest : (f.halve x).Rises steps ((f.halve x).parent x) r :=
        ((h.mono hk).halve x).parent
      obtain ⟨hroot, hclimb⟩ := ih hrest (Nat.le_refl steps)
      exact ⟨hroot, .hop hx hclimb⟩

theorem Sound.climb {f : Forest} (hf : f.Sound) (x : Nat) :
    (f.climb x f.size).1 = f.root x ∧ Climbs f x (f.root x) (f.climb x f.size).2 :=
  (hf.rises_root x).climbs (Nat.le_refl f.size)

/-! ## Finding -/

theorem find_of_size_le {f : Forest} {x : Nat} (hx : f.size ≤ x) :
    f.find x = (.error ⟨f.size, x⟩, f) := by
  unfold find
  rw [if_neg (Nat.not_lt.mpr hx)]

theorem Sound.find {f : Forest} (hf : f.Sound) {x : Nat} (hx : x < f.size) :
    ∃ g, f.find x = (.ok (f.root x), g) ∧ f.Shortens g ∧ Climbs f x (f.root x) g := by
  obtain ⟨hroot, hclimb⟩ := hf.climb x
  refine ⟨(f.climb x f.size).2, ?_, shortens_climb f x f.size, hclimb⟩
  unfold Forest.find
  rw [if_pos hx, ← hroot]

/-! ## Uniting -/

theorem Rises.hang {f : Forest} {a b : Nat} (ha : a < f.size) (hroot : f.parent a = a)
    (hb : f.parent b = b) (hab : a ≠ b) {k x r : Nat} (h : f.Rises k x r) :
    (f.hang a b).Rises (k + 1) x (if r = a then b else r) := by
  induction h with
  | @here x k root =>
    by_cases hx : x = a
    · rw [if_pos hx]
      refine .up ?_
      rw [hx, parent_hang_self ha]
      exact .here k (by rw [parent_hang_ne hab.symm, hb])
    · rw [if_neg hx]
      exact .here (k + 1) (by rw [parent_hang_ne hx, root])
  | @up k x r rest ih =>
    by_cases hx : x = a
    · rw [hx, hroot] at rest ih
      rw [hx]
      exact ih.mono (Nat.le_succ (k + 1))
    · refine .up ?_
      rw [parent_hang_ne hx]
      exact ih

/- Hanging one root under another moves just the indices below the first. -/
theorem Sound.hang {f : Forest} (hf : f.Sound) {a b : Nat} (ha : a < f.size) (hb : b < f.size)
    (haroot : f.parent a = a) (hbroot : f.parent b = b) (hab : a ≠ b) :
    (f.hang a b).Sound ∧
      ∀ x, (f.hang a b).root x = if f.root x = a then b else f.root x := by
  have hrises := fun x => (hf.rises_root x).hang ha haroot hbroot hab
  have hsound : (f.hang a b).Sound := by
    refine ⟨fun x hx => ?_, fun x => ⟨_, _, hrises x⟩⟩
    rw [size_hang] at hx ⊢
    by_cases hxa : x = a
    · rw [hxa, parent_hang_self ha]
      exact hb
    · rw [parent_hang_ne hxa]
      exact hf.inRange x hx
  exact ⟨hsound, fun x => (hrises x).root_eq hsound⟩

theorem union_of_size_le {f : Forest} {a : Nat} (ha : f.size ≤ a) (b : Nat) :
    f.union a b = (.error ⟨f.size, a⟩, f) := by
  unfold union
  rw [find_of_size_le ha]

/- The path from `a` has been halved by the time `b` turns out to be no index. -/
theorem Sound.union_of_size_le {f : Forest} (hf : f.Sound) {a b : Nat} (ha : a < f.size)
    (hb : f.size ≤ b) : ∃ g, f.union a b = (.error ⟨f.size, b⟩, g) ∧ f.Shortens g := by
  obtain ⟨g, hfind, hg, -⟩ := hf.find ha
  refine ⟨g, ?_, hg⟩
  have hb' : g.size ≤ b := by rwa [hg.size]
  unfold union
  rw [hfind]
  dsimp only
  rw [find_of_size_le hb', hg.size]

theorem Sound.union {f : Forest} (hf : f.Sound) {a b : Nat} (ha : a < f.size) (hb : b < f.size) :
    ∃ g, f.union a b = (.ok (), g) ∧ g.Sound ∧ g.size = f.size ∧
      ∀ x, g.root x = if f.root x = f.root a then f.root b else f.root x := by
  obtain ⟨g, hfindA, hg, -⟩ := hf.find ha
  obtain ⟨h, hfindB, hh, -⟩ := (hg.sound hf).find (hg.size ▸ hb)
  have hfh := hg.trans hh
  have hsound := hfh.sound hf
  have hunion : f.union a b =
      (.ok (), if f.root a = f.root b then h else h.hang (f.root a) (f.root b)) := by
    unfold Forest.union
    rw [hfindA]
    dsimp only
    rw [hfindB, hg.root_eq hf]
  refine ⟨_, hunion, ?_⟩
  by_cases hab : f.root a = f.root b
  · rw [if_pos hab]
    refine ⟨hsound, hfh.size, fun x => ?_⟩
    rw [hfh.root_eq hf]
    split
    · next hx => rw [hx, hab]
    · rfl
  · rw [if_neg hab]
    have hroot : ∀ x, h.parent (f.root x) = f.root x := by
      intro x
      rw [← hfh.root_eq hf]
      exact hsound.parent_root x
    have hlt : ∀ x, x < f.size → f.root x < h.size := by
      intro x hx
      rw [hfh.size]
      exact hf.root_lt hx
    obtain ⟨hs, hx⟩ := hsound.hang (hlt a ha) (hlt b hb) (hroot a) (hroot b) hab
    refine ⟨hs, by rw [size_hang, hfh.size], fun x => ?_⟩
    rw [hx, hfh.root_eq hf]

end Forest
end Artwork
