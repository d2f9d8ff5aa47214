import Artwork.Proofs.Import.Endings
import Artwork.Proofs.Machine.Tidying

/-!
# Imports of tidy lists

An import looks at an operator list only by running a machine on it.  Lists that no machine can tell
apart have the same result (`source_congr`), whatever comes of the page's size and its text.

The cancel flag must be down: with the flag up a list of which nothing is left when it is tidied is
imported, and any other is not.
-/

namespace Artwork

variable {α : Type} [Scalar α]

namespace Import

variable {o : Options α} {raised : Bool} {xs ys : List (Entry α)}

theorem drawn_congr (hrun : ∀ m : Machine α (Collector α), m.runAll xs = m.runAll ys)
    (size : PageSize α) (runs : List (TextRun α)) :
    drawn o size xs runs = drawn o size ys runs := by
  have hpainted : painted size xs = painted size ys := by rw [painted, hrun, painted]
  rw [drawn, hpainted, drawn]

theorem source_congr (hdown : (o.cancellable && raised) = false)
    (hrun : ∀ m : Machine α (Collector α), m.runAll xs = m.runAll ys)
    (size : Except (Failure α) (PageSize α)) (texts : Except (Failure α) (List (TextRun α))) :
    source o raised ⟨size, .ok xs, texts⟩ = source o raised ⟨size, .ok ys, texts⟩ := by
  cases size with
  | error failure => rfl
  | ok size =>
    cases texts with
    | error failure => rfl
    | ok runs =>
      show page o raised xs runs size = page o raised ys runs size
      rw [page_of_down (.inl hdown), page_of_down (.inl hdown), drawn_congr hrun]

/-- What is of no use can all be taken out of a list at once, and a form without a usable matrix can
be entered by a save: the import ends as it did. -/
theorem source_tidied (o : Options α) (raised : Bool) (hdown : (o.cancellable && raised) = false)
    (size : Except (Failure α) (PageSize α)) (texts : Except (Failure α) (List (TextRun α))) :
    (∀ entries : List (Entry α),
        source o raised ⟨size, .ok (tidied entries), texts⟩ =
          source o raised ⟨size, .ok entries, texts⟩) ∧
      ∀ (before : List (Entry α)) (e : Entry α) (after : List (Entry α)),
        e.entersPlainForm = true →
          source o raised ⟨size, .ok (before ++ e :: after), texts⟩ =
            source o raised ⟨size, .ok (before ++ .bare (.verb .save) :: after), texts⟩ := by
  refine ⟨fun entries => ?_, fun before e after hplain => ?_⟩
  · exact source_congr hdown (Machine.runAll_tidied · entries) size texts
  · refine source_congr hdown (fun m => ?_) size texts
    rw [Machine.runAll_append, Machine.runAll_append]
    show ((m.runAll before).step e).runAll after = _
    rw [Machine.step_entersPlainForm _ hplain]
    rfl

/-- A rectangle with something of no use of every kind around it, and a form whose matrix lacks a
number. -/
theorem source_tidied_rectangle :
    let scribble : List (Entry Rat) :=
      [.bare (.other "dependency" (by decide)), ⟨.verb .lineWidth, [.null]⟩,
        ⟨.verb .save, [.number 7]⟩,
        ⟨.verb .transform, [1, 0, 0, 1, 0, 0, 9].map .number⟩, .bare (.verb .clip),
        ⟨.verb .constructPath,
          [.array [.operator (.verb (.path .rectangle)), .null, .operator (.verb .save)],
            .array [.number 1, .number 2, .number 30, .number 40], .null]⟩,
        ⟨.verb .constructPath, [.array [.operator (.verb (.path .closePath))], .array [.null]]⟩,
        ⟨.verb (.color .fill .gray), [.number 1, .number 0]⟩,
        ⟨.verb (.color .fill .rgb), [.number 1, .null, .number 0]⟩, .bare (.verb (.paint .fill))]
    let neat : List (Entry Rat) :=
      [.bare (.verb .save), .batch [.verb (.path .rectangle)] [1, 2, 30, 40],
        .numbers (.verb (.color .fill .gray)) [1], .bare (.verb (.paint .fill))]
    let form : Entry Rat := ⟨.verb .formBegin, [.array ([2, 0, 0, 2, 0].map .number)]⟩
    tidied scribble = neat ∧ form.entersPlainForm = true ∧
      source .standard true ⟨.ok ⟨100, 100⟩, .ok neat, .ok []⟩ =
        source .standard true ⟨.ok ⟨100, 100⟩, .ok scribble, .ok []⟩ ∧
      source .standard true ⟨.ok ⟨100, 100⟩, .ok (form :: scribble), .ok []⟩ =
        source .standard true ⟨.ok ⟨100, 100⟩, .ok (.bare (.verb .save) :: scribble), .ok []⟩ := by
  intro scribble neat form
  have hplain : form.entersPlainForm = true := rfl
  obtain ⟨htidied, hform⟩ := source_tidied .standard true rfl
    (.ok (⟨100, 100⟩ : PageSize Rat)) (.ok [])
  exact ⟨rfl, hplain, htidied scribble, hform [] form scribble hplain⟩

end Import
end Artwork
