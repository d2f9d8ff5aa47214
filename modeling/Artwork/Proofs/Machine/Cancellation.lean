import Artwork.Import
import Artwork.Proofs.Machine.Meaning
import Artwork.Recorder
import Mathlib.Data.Nat.Find
import Mathlib.Tactic.IntervalCases

/-!
# Cancellation

A run looks at its flag before every entry, and at no other time.  A device can raise the flag in
the middle of an entry, during one of its calls; the run then ends behind this entry, with all that
the entries up to it have done and with nothing of the entries behind.

Which entries make a call depends on the whole list, since a paint without a path makes none.
`Machine.calls` lists the calls as a device that only writes them down would see them, and every
other device receives just these (`device_runAll`).
-/

namespace Artwork

structure Call (α : Type) where
  state : GraphicsState α
  style : PaintStyle
  path : List (Segment α)

/-- A device that writes its calls down, in order. -/
structure CallLog (α : Type) where
  calls : List (Call α)

namespace CallLog

variable {α : Type}

def empty : CallLog α := ⟨[]⟩

instance : PaintDevice α (CallLog α) where
  paint log s style path := ⟨log.calls ++ [⟨s, style, path⟩]⟩

end CallLog

namespace Call

variable {α δ : Type} [PaintDevice α δ]

def make (d : δ) (c : Call α) : δ := PaintDevice.paint d c.state c.style c.path

def makeAll (d : δ) (calls : List (Call α)) : δ := calls.foldl make d

theorem makeAll_append (d : δ) (first more : List (Call α)) :
    makeAll d (first ++ more) = makeAll (makeAll d first) more :=
  List.foldl_append

theorem calls_makeAll (log : CallLog α) (calls : List (Call α)) :
    (makeAll log calls).calls = log.calls ++ calls := by
  induction calls generalizing log with
  | nil => exact (List.append_nil log.calls).symm
  | cons c rest ih =>
    show (makeAll (make log c) rest).calls = _
    rw [ih]
    exact List.append_assoc log.calls [c] rest

end Call

/-- A device raises the flag during call `k` of some calls: the flag is down until then, and up
behind this call.  Call 0 stands for a flag that is up before any of them. -/
structure RaisedDuring {α δ : Type} [PaintDevice α δ] (stop : δ → Bool) (d : δ)
    (calls : List (Call α)) (k : Nat) : Prop where
  le : k ≤ calls.length
  down : ∀ j < k, stop (Call.makeAll d (calls.take j)) = false
  up : stop (Call.makeAll d (calls.take k)) = true

/-- How a run ends whose flag is up before some entries. -/
def Outcome.before {α : Type} : List (Entry α) → Outcome
  | [] => .finished
  | _ :: _ => .cancelled

theorem exists_raisedDuring {α δ : Type} [PaintDevice α δ] {stop : δ → Bool} {d : δ}
    {calls : List (Call α)} {j : Nat} (hj : j ≤ calls.length)
    (hup : stop (Call.makeAll d (calls.take j)) = true) :
    ∃ k, RaisedDuring stop d calls k := by
  have hsome : ∃ j, stop (Call.makeAll d (calls.take j)) = true := ⟨j, hup⟩
  refine ⟨Nat.find hsome, Nat.le_trans (Nat.find_min' hsome hup) hj, ?_,
    Nat.find_spec hsome⟩
  intro i hi
  simpa using Nat.find_min hsome hi

namespace Machine

variable {α δ ε : Type}

/-- The machine with another device. -/
def attach (m : Machine α δ) (d : ε) : Machine α ε := ⟨m.state, m.saved, m.path, m.height, d⟩

variable [Scalar α] [PaintDevice α δ] [PaintDevice α ε]

/-- The calls that a list makes of the device, whichever it is. -/
def calls (m : Machine α δ) (entries : List (Entry α)) : List (Call α) :=
  ((m.attach CallLog.empty).runAll entries).device.calls

/-- Runs a list whose flag others can raise and lower at any time: `look n` is what the flag shows
when it is looked at before the entry at position `n`. -/
def runWatching (look : Nat → δ → Bool) (m : Machine α δ) :
    List (Entry α) → Machine α δ × Outcome
  | [] => (m, .finished)
  | e :: rest =>
    if look 0 m.device then (m, .cancelled)
    else runWatching (fun n => look (n + 1)) (m.step e) rest

/-! ## Calls -/

/-- The call that a meaning makes. -/
def call? (m : Machine α δ) : Meaning α → Option (Call α)
  | .paint v =>
    let path := if v.closes then m.path.closeIfOpen else m.path
    if path.trail.isEmpty then none else some ⟨m.state, v.style, path.segments⟩
  | _ => none

/-- A device has no part in what becomes of the machine around it. -/
theorem perform_attach (m : Machine α δ) (d : ε) (a : Meaning α) :
    (m.attach d).perform a = (m.perform a).attach (Call.makeAll d (m.call? a).toList) := by
  cases a with
  | restore =>
    rcases m with ⟨state, _ | ⟨s, rest⟩, path, height, device⟩ <;> rfl
  | enterForm t => cases t <;> rfl
  | construct steps =>
    show steps.foldl addStep (m.attach d) = (steps.foldl addStep m).attach d
    induction steps generalizing m with
    | nil => rfl
    | cons s rest ih => exact ih (m.addStep s)
  | paint v =>
    simp only [perform, paint, paintPath_eq, call?, attach]
    by_cases hcloses : v.closes
    · simp only [hcloses, if_true]
      by_cases hempty : m.path.closeIfOpen.trail.isEmpty
      · simp [hempty, Call.makeAll]
      · simp [hempty, Call.makeAll, Call.make]
    · simp only [hcloses, if_false, Bool.false_eq_true]
      by_cases hempty : m.path.trail.isEmpty
      · simp [hempty, Call.makeAll]
      · simp [hempty, Call.makeAll, Call.make]
  | _ => rfl

theorem step_attach (m : Machine α δ) (d : ε) (e : Entry α) :
    (m.attach d).step e =
      (m.step e).attach (Call.makeAll d (m.call? e.meaning).toList) := by
  rw [step_eq_perform, step_eq_perform, perform_attach]

theorem runAll_append (m : Machine α δ) (front back : List (Entry α)) :
    m.runAll (front ++ back) = (m.runAll front).runAll back :=
  List.foldl_append

/-- A log that has been written to before goes on behind what it holds. -/
theorem calls_log (m : Machine α δ) (log : CallLog α) (entries : List (Entry α)) :
    ((m.attach log).runAll entries).device.calls = log.calls ++ m.calls entries := by
  induction entries generalizing m log with
  | nil => exact (List.append_nil log.calls).symm
  | cons e rest ih =>
    show (((m.attach log).step e).runAll rest).device.calls =
      log.calls ++ (((m.attach CallLog.empty).step e).runAll rest).device.calls
    rw [step_attach, step_attach, ih, ih, Call.calls_makeAll, Call.calls_makeAll,
      List.append_assoc]
    rfl

theorem calls_cons (m : Machine α δ) (e : Entry α) (rest : List (Entry α)) :
    m.calls (e :: rest) = (m.call? e.meaning).toList ++ (m.step e).calls rest := by
  show (((m.attach CallLog.empty).step e).runAll rest).device.calls = _
  rw [step_attach, calls_log, Call.calls_makeAll]
  rfl

theorem calls_append (m : Machine α δ) (front back : List (Entry α)) :
    m.calls (front ++ back) = m.calls front ++ (m.runAll front).calls back := by
  induction front generalizing m with
  | nil => rfl
  | cons e rest ih =>
    rw [List.cons_append, calls_cons, calls_cons, ih, List.append_assoc]
    rfl

/-- A device receives the calls of the list, in order, and nothing else. -/
theorem device_runAll (m : Machine α δ) (entries : List (Entry α)) :
    (m.runAll entries).device = Call.makeAll m.device (m.calls entries) := by
  induction entries generalizing m with
  | nil => rfl
  | cons e rest ih =>
    have hstep : (m.step e).device = Call.makeAll m.device (m.call? e.meaning).toList :=
      congrArg Machine.device (step_attach m m.device e)
    show ((m.step e).runAll rest).device = _
    rw [ih, hstep, calls_cons, Call.makeAll_append]

/-- The entry that makes call `k + 1`. -/
theorem exists_caller (m : Machine α δ) {entries : List (Entry α)} {k : Nat}
    (hk : k < (m.calls entries).length) :
    ∃ front e back, entries = front ++ e :: back ∧ (m.calls front).length = k ∧
      (m.calls (front ++ [e])).length = k + 1 := by
  induction entries generalizing m k with
  | nil => exact absurd hk (Nat.not_lt_zero k)
  | cons e rest ih =>
    rw [calls_cons, List.length_append] at hk
    -- An entry makes one call or none; only the first call of all is made by an entry at the front.
    cases hcall : m.call? e.meaning with
    | none =>
      rw [hcall] at hk
      obtain ⟨front, c, back, rfl, hfront, hlast⟩ := ih (m.step e) (by simpa using hk)
      exact ⟨e :: front, c, back, rfl, by simpa [calls_cons, hcall] using hfront,
        by simpa [calls_cons, hcall] using hlast⟩
    | some call =>
      cases k with
      | zero => exact ⟨[], e, rest, rfl, rfl, by simp [calls_cons, hcall]; rfl⟩
      | succ k =>
        rw [hcall] at hk
        have hlt : k < ((m.step e).calls rest).length := by
          simp only [Option.toList_some, List.length_singleton] at hk
          omega
        obtain ⟨front, c, back, rfl, hfront, hlast⟩ := ih (m.step e) hlt
        exact ⟨e :: front, c, back, rfl, by simp [calls_cons, hcall, hfront],
          by simp [calls_cons, hcall, hlast]⟩

/-! ## Runs with a flag -/

/-- As long as the flag is down before each of some entries, they all run. -/
theorem run_append_of_down {stop : δ → Bool} (m : Machine α δ) {front : List (Entry α)}
    (hdown : ∀ p e q, front = p ++ e :: q → stop (m.runAll p).device = false)
    (back : List (Entry α)) : m.run stop (front ++ back) = (m.runAll front).run stop back := by
  induction front generalizing m with
  | nil => rfl
  | cons e rest ih =>
    have hfirst : stop m.device = false := hdown [] e rest rfl
    rw [List.cons_append, run, if_neg (by simp [hfirst])]
    exact ih (m.step e) fun p c q hp => hdown (e :: p) c q (by rw [hp]; rfl)

theorem run_of_up {stop : δ → Bool} {m : Machine α δ} (hup : stop m.device = true)
    (entries : List (Entry α)) : m.run stop entries = (m, .before entries) := by
  cases entries with
  | nil => rfl
  | cons e rest => rw [run, if_pos hup]; rfl

/-- What a device has received behind the first entries of a list. -/
theorem device_runAll_front (m : Machine α δ) {entries front : List (Entry α)}
    (h : front <+: entries) :
    (m.runAll front).device =
      Call.makeAll m.device ((m.calls entries).take (m.calls front).length) := by
  obtain ⟨back, rfl⟩ := h
  rw [device_runAll, calls_append, List.take_left]

theorem length_calls_le (m : Machine α δ) {entries front : List (Entry α)}
    (h : front <+: entries) : (m.calls front).length ≤ (m.calls entries).length := by
  obtain ⟨back, rfl⟩ := h
  rw [calls_append, List.length_append]
  omega

theorem run_of_down {stop : δ → Bool} (m : Machine α δ) (entries : List (Entry α))
    (hdown : ∀ j ≤ (m.calls entries).length,
      stop (Call.makeAll m.device ((m.calls entries).take j)) = false) :
    m.run stop entries = (m.runAll entries, .finished) := by
  have hquiet : ∀ p e q, entries = p ++ e :: q → stop (m.runAll p).device = false := by
    intro p e q hp
    have hfront : p <+: entries := ⟨e :: q, hp.symm⟩
    rw [device_runAll_front m hfront]
    exact hdown _ (length_calls_le m hfront)
  have hrun := run_append_of_down m hquiet []
  rwa [List.append_nil] at hrun

/-- A flag that is raised during a call stops the run behind the entry that made the call. -/
theorem run_of_raised {stop : δ → Bool} (m : Machine α δ) (entries : List (Entry α)) {k : Nat}
    (h : RaisedDuring stop m.device (m.calls entries) (k + 1)) :
    ∃ front e back, entries = front ++ e :: back ∧
      m.calls front = (m.calls entries).take k ∧
      m.calls (front ++ [e]) = (m.calls entries).take (k + 1) ∧
      m.run stop entries = (m.runAll (front ++ [e]), .before back) := by
  obtain ⟨front, e, back, rfl, hfront, hlast⟩ := exists_caller m (Nat.lt_of_succ_le h.le)
  have hsplit : front ++ e :: back = front ++ [e] ++ back := by
    rw [List.append_assoc, List.singleton_append]
  refine ⟨front, e, back, rfl, ?_, ?_, ?_⟩
  · rw [calls_append, List.take_left' hfront]
  · rw [hsplit, calls_append m (front ++ [e]), List.take_left' hlast]
  · have hlastPrefix : front ++ [e] <+: front ++ e :: back := ⟨back, hsplit.symm⟩
    rw [hsplit, run_append_of_down m, run_of_up]
    · rw [device_runAll_front m hlastPrefix, hlast]
      exact h.up
    · -- The entries in front of the one that made the call have made `k` calls at most.
      intro p c q hp
      have hp' : p <+: front := by
        rcases List.prefix_concat_iff.mp ⟨c :: q, hp.symm⟩ with rfl | hp'
        · exact absurd (List.self_eq_append_right.mp hp) (List.cons_ne_nil c q)
        · exact hp'
      rw [device_runAll_front m (hp'.trans ⟨e :: back, rfl⟩)]
      exact h.down _ (Nat.lt_succ_of_le (hfront ▸ length_calls_le m hp'))

theorem runWatching_stop (stop : δ → Bool) (m : Machine α δ) (entries : List (Entry α)) :
    m.runWatching (fun _ => stop) entries = m.run stop entries := by
  induction entries generalizing m with
  | nil => rfl
  | cons e rest ih => rw [runWatching, run, ih]

/-- A flag that the device has no part in: the run is cancelled just when the flag is up at one of
the looks. -/
theorem runWatching_flag (flag : Nat → Bool) (m : Machine α δ) (entries : List (Entry α)) :
    (m.runWatching (fun n _ => flag n) entries).2 = .cancelled ∧
        (List.range entries.length).any flag = true ∨
      m.runWatching (fun n _ => flag n) entries = (m.runAll entries, .finished) ∧
        (List.range entries.length).any flag = false := by
  induction entries generalizing m flag with
  | nil => exact .inr ⟨rfl, rfl⟩
  | cons e rest ih =>
    rw [List.length_cons, List.range_succ_eq_map, List.any_cons, List.any_map, runWatching]
    cases hflag : flag 0 with
    | true => exact .inl ⟨rfl, rfl⟩
    | false => exact ih (fun n => flag (n + 1)) (m.step e)

end Machine

/-! ## Imports with a flag -/

namespace Import

variable {α : Type} [Scalar α]

/-- Imports the listings of a page while others raise and lower the cancel flag: `flag n` is what
it shows before the entry at position `n`. -/
def pageWatching (o : Options α) (flag : Nat → Bool) (entries : List (Entry α))
    (runs : List (TextRun α)) (size : PageSize α) : Except (Failure α) (Drawing α) :=
  match (Machine.start size.height Collector.empty).runWatching
      (fun n _ => o.cancellable && flag n) entries with
  | (_, .cancelled) => .error .cancelled
  | (m, .finished) => .ok (drawing o size m.device.shapes runs)

variable (o : Options α) (entries : List (Entry α)) (runs : List (TextRun α)) (size : PageSize α)

theorem pageWatching_steady (raised : Bool) :
    pageWatching o (fun _ => raised) entries runs size = page o raised entries runs size := by
  rw [pageWatching, Machine.runWatching_stop, page, draw]
  rcases (Machine.start size.height Collector.empty).run _ entries with ⟨m, _ | _⟩ <;> rfl

/-- A flag makes no difference to an import, except that it can end it without a drawing. -/
theorem pageWatching_eq (flag : Nat → Bool) :
    pageWatching o flag entries runs size =
      if (List.range entries.length).any (fun n => o.cancellable && flag n) then .error .cancelled
      else page { o with cancellable := false } false entries runs size := by
  have hpage : page { o with cancellable := false } false entries runs size =
      pageWatching { o with cancellable := false } (fun _ => false) entries runs size :=
    (pageWatching_steady _ entries runs size false).symm
  generalize hm : Machine.start size.height (Collector.empty (α := α)) = m at *
  rw [hpage, pageWatching, pageWatching, hm]
  have hnever : m.runWatching (fun _ _ => false && false) entries =
      (m.runAll entries, .finished) := by
    rw [Machine.runWatching_stop]
    exact Machine.run_never m entries
  rw [hnever]
  rcases Machine.runWatching_flag (fun n => o.cancellable && flag n) m entries with
    ⟨hrun, hany⟩ | ⟨hrun, hany⟩
  · rw [hany, if_pos rfl]
    generalize m.runWatching _ entries = r at hrun ⊢
    obtain ⟨m', outcome⟩ := r
    cases hrun
    rfl
  · rw [hany, if_neg Bool.false_ne_true, hrun]
    rfl

end Import

namespace Machine

variable {α δ : Type} [Scalar α] [PaintDevice α δ]

/-- A run stops behind the entry during whose call its flag was raised, and it has then done what
the entries up to there do without a flag.  An import that is stopped has no drawing at all. -/
theorem run_stops_behind_call (stop : δ → Bool) (m : Machine α δ) (entries : List (Entry α)) :
    (m.run (fun _ => false) entries).1.device = Call.makeAll m.device (m.calls entries) ∧
      (stop m.device = true → m.run stop entries = (m, .before entries)) ∧
      (∀ k, RaisedDuring stop m.device (m.calls entries) (k + 1) →
        ∃ front e back, entries = front ++ e :: back ∧
          m.calls front = (m.calls entries).take k ∧
          m.calls (front ++ [e]) = (m.calls entries).take (k + 1) ∧
          m.run stop entries = ((m.run (fun _ => false) (front ++ [e])).1, .before back)) ∧
      ((∀ k, ¬ RaisedDuring stop m.device (m.calls entries) k) →
        m.run stop entries = m.run (fun _ => false) entries) ∧
      (∀ more, m.run (fun _ => false) (entries ++ more) =
        (m.run (fun _ => false) entries).1.run (fun _ => false) more) ∧
      (∀ (o : Options α) (flag : Nat → Bool) (runs : List (TextRun α)) (size : PageSize α),
        Import.pageWatching o flag entries runs size =
          if (List.range entries.length).any (fun n => o.cancellable && flag n) then
            .error .cancelled
          else Import.page { o with cancellable := false } false entries runs size) ∧
      ∀ (o : Options α) (raised : Bool) (runs : List (TextRun α)) (size : PageSize α),
        Import.pageWatching o (fun _ => raised) entries runs size =
          Import.page o raised entries runs size := by
  refine ⟨?_, fun hup => run_of_up hup entries, ?_, ?_, ?_, ?_, ?_⟩
  · rw [run_never, device_runAll]
  · intro k h
    obtain ⟨front, e, back, hentries, hfront, hlast, hrun⟩ := run_of_raised m entries h
    exact ⟨front, e, back, hentries, hfront, hlast, by rw [hrun, run_never]⟩
  · intro h
    rw [run_never, run_of_down m entries]
    intro j hj
    by_contra hup
    obtain ⟨k, hk⟩ := exists_raisedDuring hj (by simpa using hup)
    exact h k hk
  · intro more
    simp only [run_never, runAll_append]
  · intro o flag runs size
    exact Import.pageWatching_eq o entries runs size flag
  · intro o raised runs size
    exact Import.pageWatching_steady o entries runs size raised

/-- Three paints, of which the second has no path and makes no call.  A recorder whose alarm is set
to its second call stops behind the third; one whose alarm is off already, or never, stops at once,
or not at all. -/
theorem run_stops_behind_second_call :
    let entries : List (Entry Rat) :=
      [.numbers (.verb (.path .rectangle)) [1, 2, 3, 4], .bare (.verb (.paint .fill)),
        .bare (.verb (.paint .closeStroke)), .numbers (.verb (.path .moveTo)) [5, 6],
        .bare (.verb (.paint .stroke)), .bare (.verb .save)]
    let ready : Option Nat → Machine Rat (Recorder Rat) := fun n => start 100 (.start n)
    let raised : Machine Rat (Recorder Rat) := start 100 (Recorder.start none).raise
    (∃ front e back, entries = front ++ e :: back ∧
        ((ready (some 2)).calls front).length = 1 ∧
        ((ready (some 2)).calls (front ++ [e])).length = 2 ∧
        (ready (some 2)).run Recorder.alarm entries =
          (((ready (some 2)).run (fun _ => false) (front ++ [e])).1, .before back)) ∧
      raised.run Recorder.alarm entries = (raised, .cancelled) ∧
      (ready none).run Recorder.alarm entries = (ready none).run (fun _ => false) entries := by
  intro entries ready raised
  have hraised : RaisedDuring Recorder.alarm (ready (some 2)).device
      ((ready (some 2)).calls entries) 2 := ⟨by decide, by decide, by decide⟩
  have hnever : ∀ k, ¬ RaisedDuring Recorder.alarm (ready none).device
      ((ready none).calls entries) k := by
    intro k h
    have hk : k ≤ 2 := h.le
    have hup := h.up
    interval_cases k <;> cases hup
  refine ⟨?_, ?_, ?_⟩
  · obtain ⟨front, e, back, hentries, hfront, hlast, hrun⟩ :=
      (run_stops_behind_call Recorder.alarm (ready (some 2)) entries).2.2.1 1 hraised
    exact ⟨front, e, back, hentries, by rw [hfront]; rfl, by rw [hlast]; rfl, hrun⟩
  · exact (run_stops_behind_call Recorder.alarm raised entries).2.1 rfl
  · exact (run_stops_behind_call Recorder.alarm (ready none) entries).2.2.2.1 hnever

end Machine
end Artwork
