import Artwork.Proofs.Double.Range
import Artwork.Text.Genuine

/-!
# Shares of printable text

A run is kept when half of its readable units, taken in doubles, are no more than its printable
ones.  Below `2 ^ 53` every count is a double and so is its half, so that the comparison is that of
whole numbers (`half_le_iff`).

Main statement: the verdict is a matter of two sums over the characters (`isGenuine_iff_share`).
Hence the order of the characters does not count, and two kept runs make a kept one.
-/

namespace Artwork

namespace Double

theorem rounded_half_natCast {n : ℕ} (hn : n < 2 ^ 53) : rounded (n * (1 / 2)) = n * (1 / 2) := by
  rcases Nat.eq_zero_or_pos n with rfl | hpos
  · rw [Nat.cast_zero, zero_mul, rounded_zero]
  · have hlog := (Nat.log2_lt hpos.ne').mpr hn
    have hhalf : (1 / 2 : ℚ) = 2 ^ (-1 : ℤ) := by norm_num
    have hexp := exponent_natCast_mul hpos (-1)
    have hle := rounded_of_exponent_le (m := n) (e := -1) (by
      rw [Int.cast_natCast, hexp]
      omega)
    rwa [Int.cast_natCast, ← hhalf] at hle

theorem at_ofNat_of_lt {n : ℕ} (hn : n < 2 ^ 53) : At (Float.ofNat n) n := by
  have hnat := at_ofNat n
  rwa [rounded_natCast hn, clamped_of_abs_lt (abs_natCast_lt_limit (hn.trans (by decide)))] at hnat

end Double

namespace Text

open Double

/-! ## Half of a count -/

theorem at_minShare : At minShare (1 / 2) ∧ |(1 / 2 : ℚ)| < limit :=
  stored_of_value? (by decide +kernel)

/-- Below `2 ^ 53` nothing is rounded. -/
theorem half_le_iff {r p : ℕ} (hr : r < 2 ^ 53) (hp : p < 2 ^ 53) :
    Float.ofNat r * minShare ≤ Float.ofNat p ↔ r ≤ 2 * p := by
  obtain ⟨hhalf, hhalflt⟩ := at_minShare
  have hrlt : |(r : ℚ)| < limit := abs_natCast_lt_limit (hr.trans (by decide))
  have hprod := (at_ofNat_of_lt hr).mul hhalf hrlt hhalflt
  have hsmall : |(r * (1 / 2) : ℚ)| < limit := by
    rw [abs_mul]
    calc |(r : ℚ)| * |1 / 2| ≤ |(r : ℚ)| * 1 :=
          mul_le_mul_of_nonneg_left (by norm_num) (abs_nonneg _)
      _ < limit := by rwa [mul_one]
  rw [rounded_half_natCast hr, clamped_of_abs_lt hsmall] at hprod
  rw [hprod.le_iff (at_ofNat_of_lt hp), mul_one_div, div_le_iff₀ two_pos, mul_comm (p : ℚ)]
  exact_mod_cast Iff.rfl

/-! ## Units of a run -/

/-- The UTF-16 length of a run. -/
def size (cs : List Char) : ℕ := (cs.map units).sum

/-- The units of the characters with a property. -/
def weight (p : Char → Bool) (cs : List Char) : ℕ := size (cs.filter p)

def isReadable (c : Char) : Bool := !isUnreadable c

/-- The units of all characters but control characters and the replacement character. -/
def readable (cs : List Char) : ℕ := weight isReadable cs

/-- How many of the readable units are printable. -/
def printable (cs : List Char) : ℕ := weight (fun c => isPrintable c && isReadable c) cs

theorem size_cons (c : Char) (cs : List Char) : size (c :: cs) = units c + size cs := rfl

theorem size_append (cs ds : List Char) : size (cs ++ ds) = size cs + size ds := by
  rw [size, List.map_append, List.sum_append]
  rfl

theorem size_perm {cs ds : List Char} (h : cs.Perm ds) : size cs = size ds := (h.map units).sum_eq

theorem size_le_of_sublist {cs ds : List Char} (h : cs.Sublist ds) : size cs ≤ size ds :=
  (h.map units).sum_le_sum fun _ _ => Nat.zero_le _

theorem weight_append (p : Char → Bool) (cs ds : List Char) :
    weight p (cs ++ ds) = weight p cs + weight p ds := by
  rw [weight, List.filter_append, size_append]
  rfl

theorem weight_perm (p : Char → Bool) {cs ds : List Char} (h : cs.Perm ds) :
    weight p cs = weight p ds :=
  size_perm (h.filter p)

theorem weight_cons_of_pos {p : Char → Bool} {c : Char} {cs : List Char} (hc : p c = true) :
    weight p (c :: cs) = units c + weight p cs := by
  rw [weight, List.filter_cons_of_pos hc, size_cons]
  rfl

theorem readable_le_size (cs : List Char) : readable cs ≤ size cs :=
  size_le_of_sublist List.filter_sublist

/-- The printable units are found among the readable ones. -/
theorem printable_eq (cs : List Char) : printable cs = weight isPrintable (cs.filter isReadable) := by
  rw [printable, weight, weight, List.filter_filter]

theorem printable_le_readable (cs : List Char) : printable cs ≤ readable cs := by
  rw [printable_eq]
  exact size_le_of_sublist List.filter_sublist

theorem units_le_two (c : Char) : units c ≤ 2 := by
  unfold units
  split_ifs <;> decide

theorem isReadable_of_isPrintable {c : Char} (h : isPrintable c = true) : isReadable c = true := by
  simp only [isPrintable, printableRanges, List.any_cons, List.any_nil, Bool.or_false,
    Bool.or_eq_true, decide_eq_true_eq] at h
  simp only [isReadable, isUnreadable, Bool.not_eq_true', Bool.or_eq_false_iff,
    decide_eq_false_iff_not, beq_eq_false_iff_ne, ne_eq]
  omega

/-- The one pass over what is readable adds up both counts. -/
theorem foldl_counts (cs : List Char) (r p : ℕ) :
    cs.foldl (fun (counts : ℕ × ℕ) c =>
      (counts.1 + units c, if isPrintable c then counts.2 + units c else counts.2)) (r, p) =
        (r + size cs, p + weight isPrintable cs) := by
  induction cs generalizing r p with
  | nil => rfl
  | cons c rest ih =>
    rw [List.foldl_cons, ih, size_cons, weight, weight, List.filter_cons, Nat.add_assoc]
    split_ifs
    · rw [size_cons, Nat.add_assoc]
    · rfl

theorem tally_eq (cs : List Char) : tally cs = (readable cs, printable cs) := by
  have hcounts := foldl_counts (cs.filter isReadable) 0 0
  rw [Nat.zero_add, Nat.zero_add, ← printable_eq] at hcounts
  exact hcounts

/-! ## The verdict -/

theorem isGenuine_iff {s : String} :
    isGenuine s = true ↔ (∃ c ∈ s.toList, isBlank c = false) ∧
      Float.ofNat (readable s.toList) * minShare ≤ Float.ofNat (printable s.toList) := by
  simp only [isGenuine, tally_eq, Bool.and_eq_true, Bool.not_eq_true', decide_eq_true_eq,
    List.all_eq_false, Bool.not_eq_true]

/-- In runs of less than `2 ^ 53` readable units whole numbers decide. -/
theorem isGenuine_iff_of_lt {s : String} (h : readable s.toList < 2 ^ 53) :
    isGenuine s = true ↔ (∃ c ∈ s.toList, isBlank c = false) ∧
      readable s.toList ≤ 2 * printable s.toList := by
  rw [isGenuine_iff, half_le_iff h ((printable_le_readable _).trans_lt h)]

/-- The order of the characters does not count. -/
theorem isGenuine_perm {s t : String} (h : s.toList.Perm t.toList) : isGenuine s = isGenuine t := by
  rw [Bool.eq_iff_iff, isGenuine_iff, isGenuine_iff, readable, readable, printable, printable,
    weight_perm _ h, weight_perm _ h]
  simp only [h.mem_iff]

/-- Two kept runs make a kept one: each has as many printable units as others. -/
theorem isGenuine_append {s t : String} (hs : size s.toList < 2 ^ 52) (ht : size t.toList < 2 ^ 52)
    (hskept : isGenuine s = true) (htkept : isGenuine t = true) : isGenuine (s ++ t) = true := by
  have hsread := (readable_le_size s.toList).trans_lt hs
  have htread := (readable_le_size t.toList).trans_lt ht
  obtain ⟨⟨d, hd, hblank⟩, hshalf⟩ := (isGenuine_iff_of_lt (hsread.trans (by decide))).mp hskept
  obtain ⟨-, hthalf⟩ := (isGenuine_iff_of_lt (htread.trans (by decide))).mp htkept
  have hread : readable (s ++ t).toList = readable s.toList + readable t.toList := by
    rw [String.toList_append]
    exact weight_append _ _ _
  have hprint : printable (s ++ t).toList = printable s.toList + printable t.toList := by
    rw [String.toList_append]
    exact weight_append _ _ _
  rw [isGenuine_iff_of_lt (by omega), hread, hprint]
  refine ⟨⟨d, ?_, hblank⟩, by omega⟩
  rw [String.toList_append]
  exact List.mem_append_left _ hd

/-- A printable character does no harm, wherever it is put. -/
theorem isGenuine_insert {s t : String} {c : Char} (hst : size (s ++ t).toList < 2 ^ 52)
    (hc : isPrintable c = true) (hkept : isGenuine (s ++ t) = true) :
    isGenuine (s ++ String.singleton c ++ t) = true := by
  have hperm : (s ++ String.singleton c ++ t).toList.Perm (c :: (s ++ t).toList) := by
    rw [String.toList_append, String.toList_append, String.toList_singleton, String.toList_append,
      List.append_assoc]
    exact List.perm_middle
  have hunits := units_le_two c
  have hstread := (readable_le_size (s ++ t).toList).trans_lt hst
  obtain ⟨⟨d, hd, hblank⟩, hhalf⟩ := (isGenuine_iff_of_lt (hstread.trans (by decide))).mp hkept
  have hread : readable (s ++ String.singleton c ++ t).toList =
      units c + readable (s ++ t).toList := by
    rw [readable, weight_perm _ hperm]
    exact weight_cons_of_pos (isReadable_of_isPrintable hc)
  have hprint : printable (s ++ String.singleton c ++ t).toList =
      units c + printable (s ++ t).toList := by
    rw [printable, weight_perm _ hperm]
    exact weight_cons_of_pos (by rw [hc, isReadable_of_isPrintable hc]; rfl)
  rw [isGenuine_iff_of_lt (by omega), hread, hprint]
  exact ⟨⟨d, hperm.mem_iff.mpr (List.mem_cons_of_mem c hd), hblank⟩, by omega⟩

/-- A run is kept just when it is not blank and half of its readable units are printable.  Reordered
it fares as before, two kept runs make a kept one, and a printable character can be put anywhere. -/
theorem isGenuine_iff_share :
    (∀ s : String, size s.toList < 2 ^ 52 →
      (isGenuine s = true ↔ (∃ c ∈ s.toList, isBlank c = false) ∧
        readable s.toList ≤ 2 * printable s.toList)) ∧
      (∀ s t : String, s.toList.Perm t.toList → isGenuine s = isGenuine t) ∧
      (∀ s t : String, size s.toList < 2 ^ 52 → size t.toList < 2 ^ 52 →
        isGenuine s = true → isGenuine t = true → isGenuine (s ++ t) = true) ∧
      ∀ (s t : String) (c : Char), size (s ++ t).toList < 2 ^ 52 → isPrintable c = true →
        isGenuine (s ++ t) = true → isGenuine (s ++ String.singleton c ++ t) = true := by
  refine ⟨fun s hs => isGenuine_iff_of_lt ?_, fun s t => isGenuine_perm,
    fun s t => isGenuine_append, fun s t c => isGenuine_insert⟩
  exact (readable_le_size s.toList).trans_lt (hs.trans (by decide))

/-- An emoji takes two units: two letters stand up to it, and one does not. -/
theorem isGenuine_iff_share_emoji :
    isGenuine "ab😀" = true ∧ isGenuine "a😀" = false ∧ isGenuine "a😀b" = true ∧
      isGenuine ("ab😀" ++ "ab😀") = true ∧
      isGenuine ("ab" ++ String.singleton 'c' ++ "😀") = true := by
  obtain ⟨hiff, hperm, happend, hinsert⟩ := isGenuine_iff_share
  have hsize : size "ab😀".toList < 2 ^ 52 := by decide
  have hkept : isGenuine "ab😀" = true :=
    (hiff _ hsize).mpr ⟨⟨'a', by decide, by decide⟩, by decide⟩
  have hdropped : isGenuine "a😀" = false := by
    rw [← Bool.not_eq_true, hiff _ (by decide), not_and]
    exact fun _ => by decide
  refine ⟨hkept, hdropped, ?_, happend _ _ hsize hsize hkept hkept, ?_⟩
  · rw [← hperm "ab😀" _ (by decide)]
    exact hkept
  · exact hinsert "ab" "😀" 'c' hsize (by decide) hkept

end Text
end Artwork
