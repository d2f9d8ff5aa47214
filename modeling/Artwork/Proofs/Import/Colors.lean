import Mathlib.Algebra.Order.Field.Rat
import Mathlib.Tactic.Linarith
import Mathlib.Tactic.NormNum
import Mathlib.Tactic.Positivity
import Artwork.Proofs.Import.Looks
import Artwork.Proofs.Machine.Batch
import Artwork.Scalar.Exact

/-!
# Range of colours

The range of the operands of a colour is guessed: one of them above 1 has all divided by 255.  On
exact numbers a colour whose operands lie between 0 and 255 comes out between 0 and 1 in every
channel, also when it is mixed from inks, and so do all colours of a run and of the drawing
(`colors_bounded`).  The guess is no matter to a colour with an operand above 1/255: counted up to
255 it is the same colour.
-/

namespace Artwork

/-! ## Operands of a colour -/

/-- Every channel lies between 0 and 1. -/
def Color.Bounded (c : Color Rat) : Prop := ∀ v ∈ c.channels, 0 ≤ v ∧ v ≤ 1

/-- The numbers that the entry reads a colour from, if it is one that sets a colour and can read
them. -/
def Entry.colorOperands? {α : Type} (e : Entry α) : Option (List α) :=
  match e.operator with
  | .verb (.color _ space) => Operand.leading? space.arity e.operands
  | _ => none

namespace Color

theorem normalize_of_exceeds {values : List Rat} (h : ∃ x ∈ values, 1 < x) (v : Rat) :
    normalize values v = v / 255 := by
  have hany : values.any ((1.0 : Rat) < ·) = true := by
    obtain ⟨x, hx, hone⟩ := h
    refine List.any_eq_true.mpr ⟨x, hx, decide_eq_true ?_⟩
    norm_num
    exact hone
  rw [normalize, if_pos hany]
  norm_num

theorem normalize_of_le {values : List Rat} (h : ∀ x ∈ values, x ≤ 1) (v : Rat) :
    normalize values v = v := by
  have hany : ¬ values.any ((1.0 : Rat) < ·) = true := by
    intro hany
    obtain ⟨x, hx, hone⟩ := List.any_eq_true.mp hany
    have hone : (1.0 : Rat) < x := of_decide_eq_true hone
    norm_num at hone
    exact absurd (h x hx) (not_le_of_gt hone)
  rw [normalize, if_neg hany]

theorem normalize_bounded {values : List Rat} (h : ∀ x ∈ values, 0 ≤ x ∧ x ≤ 255) {v : Rat}
    (hv : v ∈ values) : 0 ≤ normalize values v ∧ normalize values v ≤ 1 := by
  obtain ⟨hnonneg, hle⟩ := h v hv
  by_cases hexceeds : ∃ x ∈ values, 1 < x
  · rw [normalize_of_exceeds hexceeds]
    exact ⟨by positivity, by linarith⟩
  · have hsmall : ∀ x ∈ values, x ≤ 1 := fun x hx =>
      le_of_not_gt fun hone => hexceeds ⟨x, hx, hone⟩
    rw [normalize_of_le hsmall]
    exact ⟨hnonneg, hsmall v hv⟩

theorem normalize_scaled {values : List Rat} (hle : ∀ x ∈ values, x ≤ 1)
    (h : ∃ x ∈ values, 1 / 255 < x) (v : Rat) :
    normalize (values.map (· * 255)) (v * 255) = normalize values v := by
  have hexceeds : ∃ x ∈ values.map (· * 255), 1 < x := by
    obtain ⟨x, hx, hmore⟩ := h
    exact ⟨x * 255, List.mem_map_of_mem hx, by linarith⟩
  rw [normalize_of_exceeds hexceeds, normalize_of_le hle]
  linarith

theorem black_bounded : (black : Color Rat).Bounded := by
  have hzero : (0.0 : Rat) = 0 := by norm_num
  intro v hv
  have hv : v = 0 := by simpa [black, channels, hzero] using hv
  rw [hv]
  norm_num

end Color

namespace ColorSpace

/-- What is left of white behind an ink and behind black. -/
theorem light_bounded {ink black : Rat} (hink : 0 ≤ ink ∧ ink ≤ 1)
    (hblack : 0 ≤ black ∧ black ≤ 1) :
    0 ≤ (1.0 - ink) * (1.0 - black) ∧ (1.0 - ink) * (1.0 - black) ≤ 1 := by
  have hone : (1.0 : Rat) = 1 := by norm_num
  rw [hone]
  have hlight : 0 ≤ 1 - ink := sub_nonneg.mpr hink.2
  have hwhite : 0 ≤ 1 - black := sub_nonneg.mpr hblack.2
  exact ⟨mul_nonneg hlight hwhite,
    mul_le_one₀ (sub_le_self 1 hink.1) hwhite (sub_le_self 1 hblack.1)⟩

theorem color?_bounded {space : ColorSpace} {xs : List Rat} {c : Color Rat}
    (hcolor : space.color? xs = some c) (h : ∀ x ∈ xs, 0 ≤ x ∧ x ≤ 255) : c.Bounded := by
  have hn : ∀ v ∈ xs, 0 ≤ Color.normalize xs v ∧ Color.normalize xs v ≤ 1 :=
    fun v hv => Color.normalize_bounded h hv
  unfold color? at hcolor
  split at hcolor
  · cases hcolor
    simpa [Color.Bounded, Color.ofRgb, Color.channels] using hn
  · cases hcolor
    simpa [Color.Bounded, Color.ofGray, Color.channels] using hn
  · next c m y k =>
    cases hcolor
    have hblack := hn k (by simp)
    have hmixed : ∀ ink ∈ [c, m, y, k],
        0 ≤ (1.0 - Color.normalize [c, m, y, k] ink) * (1.0 - Color.normalize [c, m, y, k] k) ∧
          (1.0 - Color.normalize [c, m, y, k] ink) * (1.0 - Color.normalize [c, m, y, k] k) ≤ 1 :=
      fun ink hink => light_bounded (hn ink hink) hblack
    intro v hv
    obtain rfl | rfl | rfl : v = _ ∨ v = _ ∨ v = _ := by
      simpa [Color.ofCmyk, Color.channels] using hv
    · exact hmixed c (by simp)
    · exact hmixed m (by simp)
    · exact hmixed y (by simp)
  · cases hcolor

theorem color?_scaled {space : ColorSpace} {xs : List Rat} (hlength : xs.length = space.arity)
    (hle : ∀ x ∈ xs, x ≤ 1) (h : ∃ x ∈ xs, 1 / 255 < x) :
    ∃ c, space.color? xs = some c ∧ space.color? (xs.map (· * 255)) = some c := by
  have hn : ∀ v, Color.normalize (xs.map (· * 255)) (v * 255) = Color.normalize xs v :=
    Color.normalize_scaled hle h
  match space, xs, hlength with
  | rgb, [r, g, b], _ =>
    refine ⟨.ofRgb r g b, rfl, congrArg some ?_⟩
    simp only [List.map_cons, List.map_nil] at hn
    simp only [Color.ofRgb, hn]
  | gray, [g], _ =>
    refine ⟨.ofGray g, rfl, congrArg some ?_⟩
    simp only [List.map_cons, List.map_nil] at hn
    simp only [Color.ofGray, hn]
  | cmyk, [c, m, y, k], _ =>
    refine ⟨.ofCmyk c m y k, rfl, congrArg some ?_⟩
    simp only [List.map_cons, List.map_nil] at hn
    simp only [Color.ofCmyk, hn]

end ColorSpace

/-! ## Colours of a run -/

theorem Operand.leading?_numbers_append {α : Type} (xs : List α) (more : List (Operand α)) :
    leading? xs.length (xs.map .number ++ more) = some xs := by
  have hlength : (xs.map (number (α := α))).length = xs.length := List.length_map number
  rw [leading?, if_pos (by rw [List.length_append]; omega), List.take_left' hlength, mapM_number?]

namespace Entry

/-- An entry that sets a colour has read it from its operands. -/
theorem colorOperands?_of_meaning {α : Type} [Scalar α] {e : Entry α} {ink : Ink} {c : Color α}
    (h : e.meaning = .color ink c) :
    ∃ space xs, e.colorOperands? = some xs ∧ ColorSpace.color? space xs = some c := by
  obtain ⟨o, operands⟩ := e
  cases o with
  | other name unlisted => cases h
  | verb v =>
    have hmeans := v.canMean_ofVerb operands
    rw [show Meaning.ofVerb operands v = .color ink c from h] at hmeans
    cases hmeans with
    | color ink space c =>
      simp only [meaning, Meaning.ofVerb] at h
      cases hread : Operand.leading? space.arity operands with
      | none =>
        rw [hread] at h
        cases h
      | some xs =>
        refine ⟨space, xs, hread, ?_⟩
        rw [hread] at h
        cases hcolor : space.color? xs with
        | none =>
          rw [Option.bind_some, hcolor] at h
          cases h
        | some d =>
          rw [Option.bind_some, hcolor] at h
          cases h
          rfl

theorem meaning_of_color? {α : Type} [Scalar α] {space : ColorSpace} {xs : List α} {c : Color α}
    (hlength : xs.length = space.arity) (h : space.color? xs = some c) (ink : Ink)
    (more : List (Operand α)) :
    meaning ⟨.verb (.color ink space), xs.map .number ++ more⟩ = .color ink c := by
  have hread : Operand.leading? space.arity (xs.map .number ++ more) = some xs := by
    rw [← hlength]
    exact Operand.leading?_numbers_append xs more
  simp only [meaning, Meaning.ofVerb, hread, Option.bind_some, h]
  rfl

end Entry

/-- The colours of the state, those that are set, are bounded. -/
structure GraphicsState.Bounded (s : GraphicsState Rat) : Prop where
  fill : ∀ c ∈ s.fill, c.Bounded
  stroke : ∀ c ∈ s.stroke, c.Bounded

namespace GraphicsState

theorem bounded_initial : (initial : GraphicsState Rat).Bounded := by
  constructor
  · intro c hc
    cases hc
    exact Color.black_bounded
  · intro c hc
    cases hc
    exact Color.black_bounded

namespace Bounded

variable {s : GraphicsState Rat}

theorem fillColor (h : s.Bounded) : s.fillColor.Bounded := by
  unfold GraphicsState.fillColor
  cases hfill : s.fill with
  | none => exact Color.black_bounded
  | some c => exact h.fill c hfill

theorem strokeColor (h : s.Bounded) : s.strokeColor.Bounded := by
  unfold GraphicsState.strokeColor
  cases hstroke : s.stroke with
  | none => exact Color.black_bounded
  | some c => exact h.stroke c hstroke

theorem change (h : s.Bounded) {e : Entry Rat}
    (he : ∀ xs ∈ e.colorOperands?, ∀ x ∈ xs, 0 ≤ x ∧ x ≤ 255) : (e.meaning.change s).Bounded := by
  cases hmeaning : e.meaning with
  | color ink c =>
    obtain ⟨space, xs, hread, hcolor⟩ := Entry.colorOperands?_of_meaning hmeaning
    have hc : c.Bounded := ColorSpace.color?_bounded hcolor (he xs hread)
    cases ink with
    | stroke => exact ⟨h.fill, fun d hd => Option.some.inj hd ▸ hc⟩
    | fill => exact ⟨fun d hd => Option.some.inj hd ▸ hc, h.stroke⟩
  | enterForm t => cases t <;> exact ⟨h.fill, h.stroke⟩
  | _ => exact ⟨h.fill, h.stroke⟩

end Bounded
end GraphicsState

namespace Import

/-- When the operands that colours are read from lie between 0 and 255, the colours of the state in
force and of all saved states lie between 0 and 1 whenever one looks, and so do those of every shape
of the drawing.
A colour with an operand above 1/255 can be counted up to 1 or up to 255. -/
theorem colors_bounded :
    (∀ entries : List (Entry Rat),
        (∀ e ∈ entries, ∀ xs ∈ e.colorOperands?, ∀ x ∈ xs, 0 ≤ x ∧ x ≤ 255) →
          (∀ (δ : Type) [PaintDevice Rat δ] (height : Rat) (device : δ) (stop : δ → Bool)
              (front : List (Entry Rat)), front <+: entries →
            ∀ s ∈ ((Machine.start height device).run stop front).1.scope.states,
              (∀ c ∈ s.fill, c.Bounded) ∧ ∀ c ∈ s.stroke, c.Bounded) ∧
          ∀ (o : Options Rat) (raised : Bool) (runs : List (TextRun Rat)) (size : PageSize Rat)
              (d : Drawing Rat), page o raised entries runs size = .ok d →
            ∀ s ∈ d.shapes, (∀ c ∈ s.fill, c.Bounded) ∧ ∀ c ∈ s.stroke, c.Bounded) ∧
      ∀ (space : ColorSpace) (xs : List Rat), xs.length = space.arity →
        (∀ x ∈ xs, 0 ≤ x ∧ x ≤ 1) → (∃ x ∈ xs, 1 / 255 < x) →
          ∃ c, ∀ (δ : Type) [PaintDevice Rat δ] (m : Machine Rat δ) (ink : Ink)
              (more : List (Operand Rat)),
            m.step ⟨.verb (.color ink space), xs.map .number ++ more⟩ =
                { m with state := m.state.setColor ink c } ∧
              m.step ⟨.verb (.color ink space), (xs.map (· * 255)).map .number ++ more⟩ =
                { m with state := m.state.setColor ink c } := by
  refine ⟨fun entries hentries => ?_, fun space xs hlength hrange hmore => ?_⟩
  · have hkept : ∀ e ∈ entries, ∀ s : GraphicsState Rat, s.Bounded →
        (e.meaning.change s).Bounded := fun e he s hs => hs.change (hentries e he)
    refine ⟨fun δ _ height device stop front hfront s hs => ?_,
      fun o raised runs size d hpage s hs => ?_⟩
    · obtain ⟨reached, hreached, hrun⟩ := Machine.exists_front stop (.start height device) front
      rw [hrun, Machine.scope_runAll] at hs
      have hbounded := Scope.forall_states_run
        (Scope.forall_states_start GraphicsState.bounded_initial)
        (fun e he => hkept e (hfront.subset (hreached.subset he))) s hs
      exact ⟨hbounded.fill, hbounded.stroke⟩
    · rw [eq_drawn_of_page hpage] at hs
      obtain ⟨state, hstate, hlooks⟩ := looksLike_drawn GraphicsState.bounded_initial hkept hs
      exact ⟨fun c hc => hlooks.fill c hc ▸ hstate.fillColor,
        fun c hc => hlooks.stroke c hc ▸ hstate.strokeColor⟩
  · obtain ⟨c, hcolor, hscaled⟩ :=
      ColorSpace.color?_scaled hlength (fun x hx => (hrange x hx).2) hmore
    refine ⟨c, fun δ _ m ink more => ⟨?_, ?_⟩⟩
    · rw [Machine.step_eq_perform, Entry.meaning_of_color? hlength hcolor]
      rfl
    · have hlength : (xs.map (· * 255)).length = space.arity := by rw [List.length_map, hlength]
      rw [Machine.step_eq_perform, Entry.meaning_of_color? hlength hscaled]
      rfl

/-- A colour counted up to 255 is saved under one mixed from inks, and both are painted. -/
theorem colors_bounded_saved :
    let inks : List Rat := [0, 1 / 2, 1, 1 / 5]
    let square : List (Entry Rat) :=
      [.numbers (.verb (.path .rectangle)) [0, 0, 72, 72], .bare (.verb (.paint .fill))]
    let front : List (Entry Rat) :=
      [.numbers (.verb (.color .fill .rgb)) [255, 51, 0], .bare (.verb .save),
        .numbers (.verb (.color .fill .cmyk)) inks]
    let entries := front ++ square ++ .bare (.verb .restore) :: square
    let o : Options Rat := Options.standard.withoutGrouping
    let m := ((Machine.start 100 (Collector.empty : Collector Rat)).run (fun _ => false) front).1
    (∀ e ∈ entries, ∀ xs ∈ e.colorOperands?, ∀ x ∈ xs, 0 ≤ x ∧ x ≤ 255) ∧
      m.scope.states.map (·.fill) = [some ⟨4 / 5, 2 / 5, 0⟩, some ⟨1, 1 / 5, 0⟩] ∧
      (∀ s ∈ m.scope.states, (∀ c ∈ s.fill, c.Bounded) ∧ ∀ c ∈ s.stroke, c.Bounded) ∧
      (∃ d, page o false entries [] ⟨100, 100⟩ = .ok d ∧
        d.shapes.map (·.fill) = [some ⟨4 / 5, 2 / 5, 0⟩, some ⟨1, 1 / 5, 0⟩] ∧
        ∀ s ∈ d.shapes, (∀ c ∈ s.fill, c.Bounded) ∧ ∀ c ∈ s.stroke, c.Bounded) ∧
      inks.length = ColorSpace.cmyk.arity ∧ (∀ x ∈ inks, 0 ≤ x ∧ x ≤ 1) ∧
      (∃ x ∈ inks, 1 / 255 < x) ∧
      m.step (.numbers (.verb (.color .fill .cmyk)) inks) =
        m.step (.numbers (.verb (.color .fill .cmyk)) [0, 255 / 2, 255, 51]) := by
  intro inks square front entries o m
  have hentries : ∀ e ∈ entries, ∀ xs ∈ e.colorOperands?, ∀ x ∈ xs, 0 ≤ x ∧ x ≤ 255 := by
    decide +kernel
  have hlength : inks.length = ColorSpace.cmyk.arity := rfl
  have hinks : ∀ x ∈ inks, 0 ≤ x ∧ x ≤ 1 := by decide +kernel
  have hmore : ∃ x ∈ inks, 1 / 255 < x := by decide +kernel
  have hscaled : inks.map (· * 255) = [0, 255 / 2, 255, 51] := by decide +kernel
  have hfront : front <+: entries := ⟨square ++ .bare (.verb .restore) :: square, rfl⟩
  obtain ⟨hstates, hshapes⟩ := colors_bounded.1 entries hentries
  obtain ⟨c, hc⟩ := colors_bounded.2 .cmyk inks hlength hinks hmore
  obtain ⟨hplain, hcounted⟩ := hc (Collector Rat) m .fill []
  have hpage : page o false entries [] ⟨100, 100⟩ = .ok (drawn o ⟨100, 100⟩ entries []) :=
    page_false
  refine ⟨hentries, by decide +kernel, hstates _ 100 Collector.empty (fun _ => false) front hfront,
    ⟨_, hpage, by decide +kernel, hshapes o false [] ⟨100, 100⟩ _ hpage⟩, hlength, hinks, hmore, ?_⟩
  rw [hscaled] at hcounted
  exact hplain.trans hcounted.symm

end Import

end Artwork
