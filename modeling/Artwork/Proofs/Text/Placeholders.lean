import Artwork.Proofs.Text.Share
import Artwork.Text.Label

/-!
# Runs of placeholders

Outlined fonts leave runs that hold nothing but placeholders: replacement characters, control
characters, and glyph codes for private use.  None of them is printable, so that such a run is
dropped as soon as one of its characters is readable, however long it is.

Where none is readable there is nothing to take a share of, and no share of nothing is too small: a
run without a printable character is kept just when it is made of unreadable characters that are not
all blank (`placeholders_kept_iff`).
-/

namespace Artwork

namespace Double

open Float.Model Float.Model.UnpackedFloat

/-- An infinite value stays where it is when it is multiplied by a positive finite one. -/
theorem Stored.mul_of_limit_le {u v : UnpackedFloat} {p q : ℚ} (hu : Stored u p) (hp : limit ≤ |p|)
    (hv : Holds v q) (hq : 0 < q) :
    Stored (Float.Model.pack (UnpackedFloat.mul .binary64 u v)).unpack p := by
  cases hu with
  | finite _ hlt => exact absurd hlt (not_lt.mpr hp)
  | infinity s =>
    cases hv with
    | zero t => exact absurd hq (lt_irrefl 0)
    | finite t m e hm he =>
      have hpos : (0 : ℚ) < t.apply (m : ℤ) :=
        (mul_pos_iff_of_pos_right (twoPow_pos e)).mp hq
      have hprod : UnpackedFloat.mul .binary64 (.infinity s) (.finite t m e hm) = .infinity s := by
        cases t with
        | positive => cases s <;> rfl
        | negative =>
          rw [Sign.apply, Int.cast_neg, neg_pos] at hpos
          exact absurd hpos (not_lt.mpr (Int.cast_nonneg (Int.natCast_nonneg m)))
      rw [hprod, unpack_pack_infinity]
      exact .infinity s

end Double

namespace Text

open Double

/-- Half of a count that is not zero stands above zero, even of one that no double can hold. -/
theorem exists_at_half {n : ℕ} (hn : 0 < n) : ∃ q, At (Float.ofNat n * minShare) q ∧ 0 < q := by
  obtain ⟨hhalf, hhalflt⟩ := at_minShare
  have hnat := at_ofNat n
  have hone : 1 ≤ clamped (rounded n) := by
    have hle : rounded (1 : ℕ) ≤ rounded n := rounded_mono (by exact_mod_cast hn)
    rw [rounded_natCast (by decide), Nat.cast_one] at hle
    have hmono := clamped_mono hle
    rwa [clamped_of_abs_lt (by simpa using abs_natCast_lt_limit (m := 1) (by decide))] at hmono
  rcases lt_or_ge |clamped (rounded n)| limit with hlt | hge
  · refine ⟨_, hnat.mul hhalf hlt hhalflt, ?_⟩
    have hle : rounded ((1 : ℕ) * (1 / 2)) ≤ rounded (clamped (rounded n) * (1 / 2)) := by
      rw [Nat.cast_one]
      exact rounded_mono (mul_le_mul_of_nonneg_right hone (by norm_num))
    rw [rounded_half_natCast (by decide), Nat.cast_one, one_mul] at hle
    have hmono := clamped_mono hle
    rw [clamped_of_abs_lt hhalflt] at hmono
    exact hmono.trans_lt' (by norm_num)
  · exact ⟨_, Stored.mul_of_limit_le hnat hge (Stored.holds hhalf hhalflt) (by norm_num),
      one_pos.trans_le hone⟩

/-- Nothing is as much as half of nothing, and less than half of anything else. -/
theorem half_le_zero_iff {n : ℕ} : Float.ofNat n * minShare ≤ Float.ofNat 0 ↔ n = 0 := by
  constructor
  · intro h
    by_contra hne
    obtain ⟨q, hq, hpos⟩ := exists_at_half (Nat.pos_of_ne_zero hne)
    rw [hq.le_iff (at_ofNat_of_lt (by decide)), Nat.cast_zero] at h
    exact absurd hpos (not_lt.mpr h)
  · rintro rfl
    exact (half_le_iff (by decide) (by decide)).mpr (Nat.zero_le _)

/-! ## Placeholders -/

/-- Control characters, the replacement character, and code points for private use. -/
def placeholderRanges : List (Nat × Nat) :=
  [(0x00, 0x1F), (0x7F, 0x9F), (0xFFFD, 0xFFFD), (0xE000, 0xF8FF), (0xF0000, 0xFFFFD),
    (0x100000, 0x10FFFD)]

def isPlaceholder (c : Char) : Bool :=
  placeholderRanges.any fun (lo, hi) => lo ≤ c.toNat ∧ c.toNat ≤ hi

theorem isPrintable_of_isPlaceholder {c : Char} (h : isPlaceholder c = true) :
    isPrintable c = false := by
  simp only [isPlaceholder, placeholderRanges, List.any_cons, List.any_nil, Bool.or_false,
    Bool.or_eq_true, decide_eq_true_eq] at h
  simp only [isPrintable, printableRanges, List.any_cons, List.any_nil, Bool.or_false,
    Bool.or_eq_false_iff, decide_eq_false_iff_not]
  omega

theorem units_pos (c : Char) : 0 < units c := by
  unfold units
  split_ifs <;> decide

theorem weight_eq_zero_iff {p : Char → Bool} {cs : List Char} :
    weight p cs = 0 ↔ ∀ c ∈ cs, p c = false := by
  have hsize : ∀ ds : List Char, size ds = 0 ↔ ds = [] := by
    intro ds
    cases ds with
    | nil => exact ⟨fun _ => rfl, fun _ => rfl⟩
    | cons c rest =>
      have hpos := units_pos c
      rw [size_cons]
      exact ⟨fun h => absurd h (by omega), nofun⟩
  rw [weight, hsize, List.filter_eq_nil_iff]
  simp only [Bool.not_eq_true]

theorem readable_eq_zero_iff {cs : List Char} :
    readable cs = 0 ↔ ∀ c ∈ cs, isUnreadable c = true := by
  rw [readable, weight_eq_zero_iff]
  simp only [isReadable, Bool.not_eq_false']

/-- Without a printable character a run is kept for what cannot be read alone. -/
theorem isGenuine_iff_of_not_printable {s : String} (h : ∀ c ∈ s.toList, isPrintable c = false) :
    isGenuine s = true ↔
      (∀ c ∈ s.toList, isUnreadable c = true) ∧ ∃ c ∈ s.toList, isBlank c = false := by
  have hprint : printable s.toList = 0 :=
    weight_eq_zero_iff.mpr fun c hc => by rw [h c hc, Bool.false_and]
  rw [isGenuine_iff, hprint, half_le_zero_iff, readable_eq_zero_iff, and_comm]

end Text

variable {α : Type} [Scalar α]

/-- A run of a listing is placed just when it is genuine. -/
theorem Label.ofRun_mem_ofRuns_iff {runs : List (TextRun α)} {run : TextRun α} (h : run ∈ runs)
    (height : α) : ofRun run height ∈ ofRuns runs height ↔ Text.isGenuine run.text = true := by
  constructor
  · intro hmem
    obtain ⟨other, hother, hplaced⟩ := List.mem_map.mp hmem
    have htext : other.text = run.text := congrArg Label.text hplaced
    rw [← htext]
    exact (List.mem_filter.mp hother).2
  · exact fun hkept => List.mem_map_of_mem (List.mem_filter.mpr ⟨h, hkept⟩)

namespace Text

/-- A text without a printable character is kept just when it holds unreadable characters only, and
not only blank ones.  So it is with a listed run that is made of placeholders. -/
theorem placeholders_kept_iff :
    (∀ s : String, (∀ c ∈ s.toList, isPrintable c = false) →
      (isGenuine s = true ↔
        (∀ c ∈ s.toList, isUnreadable c = true) ∧ ∃ c ∈ s.toList, isBlank c = false)) ∧
      ∀ (runs : List (TextRun α)) (height : α), ∀ run ∈ runs,
        (∀ c ∈ run.text.toList, isPlaceholder c = true) →
          (Label.ofRun run height ∈ Label.ofRuns runs height ↔
            (∀ c ∈ run.text.toList, isUnreadable c = true) ∧
              ∃ c ∈ run.text.toList, isBlank c = false) := by
  refine ⟨fun s => isGenuine_iff_of_not_printable, fun runs height run hrun hplaceholders => ?_⟩
  rw [Label.ofRun_mem_ofRuns_iff hrun]
  exact isGenuine_iff_of_not_printable fun c hc => isPrintable_of_isPlaceholder (hplaceholders c hc)

/-- Glyph codes are dropped, and a replacement character among them does not save them. -/
theorem placeholders_kept_iff_glyphs :
    let glyphs : TextRun Rat := ⟨"\uE001\uFFFD\uE002", .identity, 20⟩
    let rest : TextRun Rat := ⟨"\uFFFD\u0007", .identity, 20⟩
    isGenuine glyphs.text = false ∧
      Label.ofRun glyphs 100 ∉ Label.ofRuns [glyphs, rest] 100 ∧
      Label.ofRun rest 100 ∈ Label.ofRuns [glyphs, rest] 100 := by
  intro glyphs rest
  obtain ⟨hverdict, hplaced⟩ := placeholders_kept_iff (α := Rat)
  have hglyphs : ∀ c ∈ glyphs.text.toList, isPlaceholder c = true :=
    List.all_eq_true.mp (by decide)
  have hrest : ∀ c ∈ rest.text.toList, isPlaceholder c = true := List.all_eq_true.mp (by decide)
  have hreadable : ¬ ∀ c ∈ glyphs.text.toList, isUnreadable c = true :=
    fun h => absurd (h '\uE001' (by decide)) (by decide)
  refine ⟨?_, ?_, ?_⟩
  · rw [← Bool.not_eq_true,
      hverdict _ fun c hc => isPrintable_of_isPlaceholder (hglyphs c hc)]
    exact fun h => hreadable h.1
  · rw [hplaced _ 100 glyphs (by simp) hglyphs]
    exact fun h => hreadable h.1
  · rw [hplaced _ 100 rest (by simp) hrest]
    exact ⟨List.all_eq_true.mp (by decide), '\uFFFD', by decide, by decide⟩

/-- A replacement character alone is kept, although it is not printable. -/
theorem replacement_kept :
    isGenuine "\uFFFD" = true ∧
      ¬ ∀ s : String, isGenuine s = true → ∃ c ∈ s.toList, isPrintable c = true := by
  have hkept : isGenuine "\uFFFD" = true := by decide
  refine ⟨hkept, fun hall => ?_⟩
  obtain ⟨c, hc, hprintable⟩ := hall _ hkept
  obtain rfl : c = '\uFFFD' := List.mem_singleton.mp hc
  exact absurd hprintable (by decide)

end Text
end Artwork
