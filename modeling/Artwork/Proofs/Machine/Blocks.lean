import Artwork.Proofs.Machine.Drawn
import Artwork.Shape

/-!
# Shapes of an operator list

An operator list is cut into blocks, behind every entry that paints a path or ends it.  A fresh
machine over a collector gives at most one shape for a block, and that shape can be told from the
block and the scope in which it starts out (`start_run_shapes`): no block sees the path of another,
nor does the matrix that a later entry sets move what is drawn already.
-/

namespace Artwork

variable {α : Type}

/-! ## Cutting -/

namespace Entry

def paintVerb? (e : Entry α) : Option PaintVerb :=
  match e.operator with
  | .verb (.paint v) => some v
  | _ => none

/-- Whether the entry ends the path, painted or not. -/
def ends (e : Entry α) : Bool := e.paintVerb?.isSome || e.operator = .verb .endPath

theorem paintVerb?_of_not_ends {e : Entry α} (h : e.ends = false) : e.paintVerb? = none := by
  rw [ends, Bool.or_eq_false_iff, Option.isSome_eq_false_iff, Option.isNone_iff_eq_none] at h
  exact h.1

end Entry

/-- The blocks of a list: it is cut behind every entry that ends a path. -/
def cut : List (Entry α) → List (List (Entry α))
  | [] => []
  | e :: rest =>
    if e.ends then [e] :: cut rest
    else
      match cut rest with
      | [] => [[e]]
      | block :: blocks => (e :: block) :: blocks

theorem flatten_cut (entries : List (Entry α)) : (cut entries).flatten = entries := by
  induction entries with
  | nil => rfl
  | cons e rest ih =>
    simp only [cut]
    split
    · rw [List.flatten_cons, ih, List.singleton_append]
    · split <;> simp_all

theorem cut_append {body : List (Entry α)} (hbody : ∀ e ∈ body, e.ends = false) {e : Entry α}
    (he : e.ends = true) (rest : List (Entry α)) :
    cut (body ++ e :: rest) = (body ++ [e]) :: cut rest := by
  induction body with
  | nil => simp [cut, he]
  | cons b body ih =>
    have hb : b.ends = false := hbody b (by simp)
    have ih := ih fun e he => hbody e (by simp [he])
    simp [cut, hb, ih]

theorem cut_tail {body : List (Entry α)} (hbody : ∀ e ∈ body, e.ends = false) (hne : body ≠ []) :
    cut body = [body] := by
  induction body with
  | nil => exact absurd rfl hne
  | cons b body ih =>
    have hb : b.ends = false := hbody b (by simp)
    cases body with
    | nil => simp [cut, hb]
    | cons c body =>
      have ih := ih (fun e he => hbody e (by simp [he])) (by simp)
      rw [cut, ih]
      simp [hb]

/-- Induction on a list, block by block from its front. -/
theorem cut_induction {motive : List (Entry α) → Prop}
    (tail : ∀ body, (∀ e ∈ body, e.ends = false) → motive body)
    (block : ∀ body e rest, (∀ e ∈ body, e.ends = false) → e.ends = true → motive rest →
      motive (body ++ e :: rest))
    (entries : List (Entry α)) : motive entries := by
  suffices h : ∀ body : List (Entry α), (∀ e ∈ body, e.ends = false) → motive (body ++ entries) from
    h [] (by simp)
  induction entries with
  | nil =>
    intro body hbody
    rw [List.append_nil]
    exact tail body hbody
  | cons e rest ih =>
    intro body hbody
    cases he : e.ends with
    | true => exact block body e rest hbody he (ih [] (by simp))
    | false =>
      have h := ih (body ++ [e]) fun c hc => by
        rcases List.mem_append.mp hc with hc | hc
        · exact hbody c hc
        · rw [List.mem_singleton.mp hc, he]
      rwa [List.append_assoc] at h

/-! ## What a block paints -/

variable [Scalar α]

/-- The shape that a verb makes of a path; none when the path has no box. -/
def PaintVerb.shape? (v : PaintVerb) (s : GraphicsState α) (path : List (Segment α)) :
    Option (Shape α) :=
  let path :=
    if v ∈ [closeStroke, closeFillStroke, closeEoFillStroke] then path ++ [.close] else path
  (Box.ofSegments? path).map fun box =>
    { segments := path
      fill := if v ∈ [stroke, closeStroke] then none else some (s.fill.getD .black)
      stroke := if v ∈ [fill, eoFill] then none else some (s.stroke.getD .black)
      strokeWidth := millimetres s.lineWidth
      box }

/-- Some entries, and the scope in which they start out. -/
structure Block (α : Type) where
  scope : Scope α
  entries : List (Entry α)

namespace Block

def path (height : α) (b : Block α) : List (Segment α) := drawn height b.scope [] b.entries

/-- The graphics state in force at the last entry. -/
def state (b : Block α) : GraphicsState α := (b.scope.run b.entries.dropLast).state

/-- The shape of a block that ends in a paint. -/
def shape? (height : α) (b : Block α) : Option (Shape α) :=
  (b.entries.getLast?.bind Entry.paintVerb?).bind fun v => v.shape? b.state (b.path height)

theorem shape?_of_not_ends {height : α} {g : Scope α} {entries : List (Entry α)}
    (h : ∀ e ∈ entries, e.ends = false) : shape? height ⟨g, entries⟩ = none := by
  unfold shape?
  cases hlast : entries.getLast? with
  | none => rfl
  | some e =>
    rw [Option.bind_some, Entry.paintVerb?_of_not_ends (h e (List.mem_of_getLast? hlast))]
    rfl

end Block

/-- Blocks that follow one another, the first one in the scope `g`. -/
def blocks (g : Scope α) : List (List (Entry α)) → List (Block α)
  | [] => []
  | b :: rest => ⟨g, b⟩ :: blocks (g.run b) rest

/-! ## Painting -/

omit [Scalar α] in
theorem Path.segments_of_trail_nil {q : Path α} (h : q.trail = []) : q.segments = [] := by
  rw [Path.segments, h, List.reverse_nil]

theorem Shape.ofPaint?_nil (s : GraphicsState α) (style : PaintStyle) :
    ofPaint? s style [] = none := rfl

theorem Shape.ofPaint?_lone_close (s : GraphicsState α) (style : PaintStyle) :
    ofPaint? s style [.close] = none := rfl

theorem PaintVerb.shape?_eq (v : PaintVerb) (s : GraphicsState α) (path : List (Segment α)) :
    v.shape? s path =
      Shape.ofPaint? s v.style (if v.closes then path ++ [.close] else path) := by
  cases v <;> rfl

namespace Machine

variable (m : Machine α (Collector α))

theorem shapes_paintPath (style : PaintStyle) :
    (m.paintPath style).device.shapes =
      m.device.shapes ++ (Shape.ofPaint? m.state style m.path.segments).toList := by
  rw [paintPath_eq]
  cases h : m.path.trail with
  | nil =>
    rw [Path.segments_of_trail_nil h, Shape.ofPaint?_nil, Option.toList_none, List.append_nil]
    rfl
  | cons s rest => exact Collector.shapes_paint m.device m.state style m.path.segments

theorem shapes_paint (v : PaintVerb) :
    (m.paint v).device.shapes =
      m.device.shapes ++ (v.shape? m.state m.path.segments).toList := by
  unfold paint
  rw [shapes_paintPath, PaintVerb.shape?_eq]
  cases v.closes with
  | false => rfl
  | true =>
    simp only [if_true]
    cases h : m.path.trail with
    | nil =>
      -- The verb closes nothing here, and a lone close has no box either.
      have hsegments := Path.segments_of_trail_nil h
      have hopen : m.path.closeIfOpen = m.path := by rw [Path.closeIfOpen, h]; rfl
      rw [hopen, hsegments, List.nil_append, Shape.ofPaint?_nil, Shape.ofPaint?_lone_close]
    | cons s rest =>
      have hclose : m.path.closeIfOpen = m.path.close := by rw [Path.closeIfOpen, h]; rfl
      rw [hclose, Path.segments_close]

end Machine

/-! ## Running -/

namespace Entry

theorem meaning_of_paintVerb? {e : Entry α} {v : PaintVerb} (h : e.paintVerb? = some v) :
    e.meaning = .paint v := by
  unfold paintVerb? at h
  unfold meaning
  split at h
  · next w hw => rw [hw, ← Option.some.inj h]; rfl
  · cases h

theorem meaning_endPath {e : Entry α} (h : e.operator = .verb .endPath) :
    e.meaning = .endPath := by
  unfold meaning
  rw [h]
  rfl

theorem meaning_of_not_ends {e : Entry α} (h : e.ends = false) :
    e.meaning ≠ .endPath ∧ ∀ v, e.meaning ≠ .paint v := by
  obtain ⟨o, operands⟩ := e
  cases o with
  | other name unlisted => simp [meaning]
  | verb w =>
    have hmeans := w.canMean_ofVerb operands
    simp only [meaning]
    generalize Meaning.ofVerb operands w = a at hmeans
    cases hmeans with
    | paint v => cases h
    | endPath => cases h
    | _ => exact ⟨nofun, nofun⟩

end Entry

namespace Machine

section Body

variable {δ : Type} [PaintDevice α δ] {m : Machine α δ}

theorem step_not_ends (h : m.path.Coherent) {e : Entry α} (he : e.ends = false) :
    (m.step e).device = m.device ∧
      (m.step e).path.segments =
        e.meaning.draw (m.scope.place m.height) m.path.segments := by
  obtain ⟨hend, hpaint⟩ := Entry.meaning_of_not_ends he
  rw [step_eq_perform]
  cases hm : e.meaning with
  | paint v => exact absurd hm (hpaint v)
  | endPath => exact absurd hm hend
  | restore =>
    simp only [perform, restore]
    split <;> exact ⟨rfl, rfl⟩
  | enterForm t => cases t <;> exact ⟨rfl, rfl⟩
  | construct steps => exact ⟨device_addSteps m steps, segments_addSteps h steps⟩
  | _ => exact ⟨rfl, rfl⟩

theorem runAll_body (h : m.path.Coherent) {body : List (Entry α)}
    (hbody : ∀ e ∈ body, e.ends = false) :
    (m.runAll body).device = m.device ∧
      (m.runAll body).path.segments = drawn m.height m.scope m.path.segments body := by
  induction body generalizing m with
  | nil => exact ⟨rfl, rfl⟩
  | cons e rest ih =>
    obtain ⟨hdevice, hsegments⟩ := step_not_ends h (hbody e (by simp))
    have ih := ih (coherent_step h e) fun e he => hbody e (by simp [he])
    rw [hdevice, hsegments, height_step, scope_step] at ih
    exact ih

end Body

theorem shapes_block {m : Machine α (Collector α)} (hpath : m.path = .empty)
    {body : List (Entry α)} (hbody : ∀ e ∈ body, e.ends = false) {e : Entry α}
    (he : e.ends = true) :
    (m.runAll (body ++ [e])).device.shapes =
        m.device.shapes ++ (Block.shape? m.height ⟨m.scope, body ++ [e]⟩).toList ∧
      (m.runAll (body ++ [e])).path = .empty := by
  have hcoherent : m.path.Coherent := hpath ▸ Path.Coherent.empty
  obtain ⟨hdevice, hsegments⟩ := runAll_body hcoherent hbody
  have hstate : (m.runAll body).state = (m.scope.run body).state :=
    congrArg Scope.state (scope_runAll m body)
  have hrun : m.runAll (body ++ [e]) = (m.runAll body).perform e.meaning := by
    rw [← step_eq_perform, runAll, List.foldl_append]
    rfl
  rw [hrun]
  cases hv : e.paintVerb? with
  | some v =>
    have hdrawn : drawn m.height m.scope [] (body ++ [e]) = (m.runAll body).path.segments := by
      rw [drawn_append, hsegments, hpath, Path.segments_empty, drawn, drawn,
        Entry.meaning_of_paintVerb? hv]
      rfl
    rw [Entry.meaning_of_paintVerb? hv]
    refine ⟨?_, path_paint _ v⟩
    show ((m.runAll body).paint v).device.shapes = _
    rw [shapes_paint, hdevice, hstate, ← hdrawn]
    simp [Block.shape?, Block.path, Block.state, hv]
  | none =>
    have hend : e.operator = .verb .endPath := by simpa [Entry.ends, hv] using he
    rw [Entry.meaning_endPath hend]
    refine ⟨?_, rfl⟩
    show (m.runAll body).device.shapes = _
    simp [Block.shape?, hdevice, hv]

/-- A machine without a path adds the shapes of the blocks that it runs. -/
theorem shapes_runAll {m : Machine α (Collector α)} (hpath : m.path = .empty)
    (entries : List (Entry α)) :
    (m.runAll entries).device.shapes =
      m.device.shapes ++ (blocks m.scope (cut entries)).filterMap (Block.shape? m.height) := by
  induction entries using cut_induction generalizing m with
  | tail body hbody =>
    rw [(runAll_body (hpath ▸ Path.Coherent.empty) hbody).1]
    by_cases hne : body = []
    · rw [hne, cut, blocks, List.filterMap_nil, List.append_nil]
    · simp [cut_tail hbody hne, blocks, Block.shape?_of_not_ends hbody]
  | block body e rest hbody he ih =>
    obtain ⟨hshapes, hempty⟩ := shapes_block hpath hbody he
    have hrun : m.runAll (body ++ e :: rest) = (m.runAll (body ++ [e])).runAll rest := by
      simp [runAll]
    rw [hrun, ih hempty, hshapes, scope_runAll, height_runAll, cut_append hbody he, blocks,
      List.filterMap_cons]
    cases Block.shape? m.height ⟨m.scope, body ++ [e]⟩ <;> simp

/-- Every shape that a machine collects is that of a path it has painted. -/
theorem exists_ofPaint?_of_mem {height : α} {entries : List (Entry α)} {s : Shape α}
    (hs : s ∈ ((Machine.start height Collector.empty).runAll entries).device.shapes) :
    ∃ state style path, Shape.ofPaint? state style path = some s := by
  rw [shapes_runAll rfl] at hs
  have hs : s ∈ (blocks .start (cut entries)).filterMap (Block.shape? height) := hs
  obtain ⟨b, -, hshape⟩ := List.mem_filterMap.mp hs
  obtain ⟨v, -, hpaint⟩ := Option.bind_eq_some_iff.mp hshape
  rw [PaintVerb.shape?_eq] at hpaint
  exact ⟨_, _, _, hpaint⟩

/-- The shapes of a list, whose blocks make up the whole of it: one for each block that ends in a
paint and has a box, in order. -/
theorem start_run_shapes (height : α) (entries : List (Entry α)) :
    (cut entries).flatten = entries ∧
      ∃ m, (Machine.start height (Collector.empty : Collector α)).run (fun _ => false) entries =
          (m, .finished) ∧
        m.device.shapes = (blocks .start (cut entries)).filterMap (Block.shape? height) :=
  ⟨flatten_cut entries, _, run_never _ _, shapes_runAll rfl entries⟩

end Machine
end Artwork
