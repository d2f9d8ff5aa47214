import Artwork.Machine

/-!
# Meanings of entries

An entry means one of a few things once its operands have been read: a change of the graphics state
or of its stack, some steps of path construction, a paint, the end of a path, or nothing.  What the
machine does with an entry depends on its meaning alone (`step_eq_perform`), so that a law of the
machine has one case for each meaning.

The graphics state and its stack make a `Scope`, which goes its own way: neither the path nor the
device ever affects it (`scope_step`).
-/

namespace Artwork

variable {α : Type}

inductive Meaning (α : Type)
  /-- A word that is not understood, or operands of no use. -/
  | idle
  | save
  | restore
  | transform (t : Matrix α)
  /-- The matrix of the form, if it has one. -/
  | enterForm (t : Option (Matrix α))
  | lineWidth (w : α)
  | color (ink : Ink) (c : Color α)
  | construct (steps : List (PathStep α))
  | paint (v : PaintVerb)
  | endPath

/-- The steps of a batch, up to the first word for which too few coordinates are left. -/
def batchSteps : List (Operand α) → List α → List (PathStep α)
  | [], _ => []
  | word :: words, coordinates =>
    match word.pathVerb? with
    | none => batchSteps words coordinates
    | some v =>
      match v.step? (coordinates.take v.arity) with
      | some s => s :: batchSteps words (coordinates.drop v.arity)
      | none => []

variable [Scalar α]

namespace Meaning

/-- The meaning of what could be read; nothing when there is none. -/
def ofOption : Option (Meaning α) → Meaning α := (·.getD .idle)

def ofVerb (operands : List (Operand α)) : Verb → Meaning α
  | .save => .save
  | .restore | .formEnd => .restore
  | .transform => ofOption (((operands.mapM Operand.number?).bind Matrix.ofList?).map .transform)
  | .formBegin => .enterForm ((operands.head?.bind Operand.numbers?).bind Matrix.ofList?)
  | .lineWidth =>
    match Operand.leading? 1 operands with
    | some [w] => .lineWidth w
    | _ => .idle
  | .color ink space =>
    ofOption (((Operand.leading? space.arity operands).bind space.color?).map (.color ink))
  | .constructPath =>
    match operands[0]?.bind Operand.array?, operands[1]?.bind Operand.numbers? with
    | some words, some coordinates => .construct (batchSteps words coordinates)
    | _, _ => .idle
  | .path v =>
    ofOption (((Operand.leading? v.arity operands).bind v.step?).map fun s => .construct [s])
  | .paint v => .paint v
  | .endPath => .endPath
  | .clip | .eoClip => .idle

end Meaning

/-- What an entry with this verb can mean, whatever its operands are. -/
inductive Verb.CanMean : Verb → Meaning α → Prop
  | save : CanMean .save .save
  | restore : CanMean .restore .restore
  | transform (t : Matrix α) : CanMean .transform (.transform t)
  | transformIdle : CanMean .transform .idle
  | formBegin (t : Matrix α) : CanMean .formBegin (.enterForm (some t))
  | formBeginPlain : CanMean .formBegin (.enterForm none)
  | formEnd : CanMean .formEnd .restore
  | lineWidth (w : α) : CanMean .lineWidth (.lineWidth w)
  | lineWidthIdle : CanMean .lineWidth .idle
  | color (ink : Ink) (space : ColorSpace) (c : Color α) :
    CanMean (.color ink space) (.color ink c)
  | colorIdle (ink : Ink) (space : ColorSpace) : CanMean (.color ink space) .idle
  | constructPath (steps : List (PathStep α)) : CanMean .constructPath (.construct steps)
  | constructPathIdle : CanMean .constructPath .idle
  | path (v : PathVerb) (s : PathStep α) : CanMean (.path v) (.construct [s])
  | pathIdle (v : PathVerb) : CanMean (.path v) .idle
  | paint (v : PaintVerb) : CanMean (.paint v) (.paint v)
  | endPath : CanMean .endPath .endPath
  | clip : CanMean .clip .idle
  | eoClip : CanMean .eoClip .idle

theorem Verb.canMean_ofVerb (operands : List (Operand α)) (v : Verb) :
    v.CanMean (Meaning.ofVerb operands v) := by
  cases v with
  | save => exact .save
  | restore => exact .restore
  | transform =>
    simp only [Meaning.ofVerb]
    cases (operands.mapM Operand.number?).bind Matrix.ofList? with
    | none => exact .transformIdle
    | some t => exact .transform t
  | formBegin =>
    simp only [Meaning.ofVerb]
    cases (operands.head?.bind Operand.numbers?).bind Matrix.ofList? with
    | none => exact .formBeginPlain
    | some t => exact .formBegin t
  | formEnd => exact .formEnd
  | lineWidth =>
    simp only [Meaning.ofVerb]
    split
    · exact .lineWidth _
    · exact .lineWidthIdle
  | color ink space =>
    simp only [Meaning.ofVerb]
    cases (Operand.leading? space.arity operands).bind space.color? with
    | none => exact .colorIdle ink space
    | some c => exact .color ink space c
  | constructPath =>
    simp only [Meaning.ofVerb]
    split
    · exact .constructPath _
    · exact .constructPathIdle
  | path v =>
    simp only [Meaning.ofVerb]
    cases (Operand.leading? v.arity operands).bind v.step? with
    | none => exact .pathIdle v
    | some s => exact .path v s
  | paint v => exact .paint v
  | endPath => exact .endPath
  | clip => exact .clip
  | eoClip => exact .eoClip

def Entry.meaning (e : Entry α) : Meaning α :=
  match e.operator with
  | .verb v => .ofVerb e.operands v
  | .other .. => .idle

/-- The graphics state in force, and the saved ones, newest first. -/
structure Scope (α : Type) where
  state : GraphicsState α
  saved : List (GraphicsState α)
deriving DecidableEq

namespace Scope

def start : Scope α := ⟨.initial, []⟩

def perform (g : Scope α) : Meaning α → Scope α
  | .save => ⟨g.state, g.state :: g.saved⟩
  | .restore =>
    match g.saved with
    | [] => g
    | s :: rest => ⟨s, rest⟩
  | .transform t => { g with state := g.state.transform t }
  | .enterForm none => ⟨g.state, g.state :: g.saved⟩
  | .enterForm (some t) => ⟨g.state.transform t, g.state :: g.saved⟩
  | .lineWidth w => { g with state := { g.state with lineWidth := w } }
  | .color ink c => { g with state := g.state.setColor ink c }
  | .idle | .construct _ | .paint _ | .endPath => g

def step (g : Scope α) (e : Entry α) : Scope α := g.perform e.meaning

/-- The scope behind some entries. -/
def run (g : Scope α) (entries : List (Entry α)) : Scope α := entries.foldl step g

/-- The canvas point of a point in user space. -/
def place (g : Scope α) (height : α) (p : Point α) : Point α :=
  (g.state.ctm.apply p).onCanvas height

end Scope

namespace Machine

variable {δ : Type}

def scope (m : Machine α δ) : Scope α := ⟨m.state, m.saved⟩

theorem place_eq (m : Machine α δ) : m.place = m.scope.place m.height := rfl

@[simp]
theorem scope_addStep (m : Machine α δ) (s : PathStep α) : (m.addStep s).scope = m.scope := rfl

@[simp]
theorem height_addStep (m : Machine α δ) (s : PathStep α) : (m.addStep s).height = m.height := rfl

theorem addBatch_eq (m : Machine α δ) (words : List (Operand α)) (coordinates : List α) :
    m.addBatch words coordinates = (batchSteps words coordinates).foldl addStep m := by
  induction words generalizing m coordinates with
  | nil => rfl
  | cons word words ih =>
    cases hword : word.pathVerb? with
    | none => simp only [addBatch, batchSteps, hword, ih]
    | some v =>
      cases hstep : v.step? (coordinates.take v.arity) with
      | none => simp only [addBatch, batchSteps, hword, hstep, List.foldl_nil]
      | some s => simp only [addBatch, batchSteps, hword, hstep, List.foldl_cons, ih]

@[simp]
theorem scope_addSteps (m : Machine α δ) (steps : List (PathStep α)) :
    (steps.foldl addStep m).scope = m.scope := by
  induction steps generalizing m with
  | nil => rfl
  | cons s rest ih => rw [List.foldl_cons, ih, scope_addStep]

@[simp]
theorem height_addSteps (m : Machine α δ) (steps : List (PathStep α)) :
    (steps.foldl addStep m).height = m.height := by
  induction steps generalizing m with
  | nil => rfl
  | cons s rest ih => rw [List.foldl_cons, ih, height_addStep]

@[simp]
theorem device_addSteps (m : Machine α δ) (steps : List (PathStep α)) :
    (steps.foldl addStep m).device = m.device := by
  induction steps generalizing m with
  | nil => rfl
  | cons s rest ih => rw [List.foldl_cons, ih]; rfl

variable [PaintDevice α δ]

def perform (m : Machine α δ) : Meaning α → Machine α δ
  | .idle => m
  | .save => m.save
  | .restore => m.restore
  | .transform t => m.transform t
  | .enterForm t => m.enterForm t
  | .lineWidth w => { m with state := { m.state with lineWidth := w } }
  | .color ink c => { m with state := m.state.setColor ink c }
  | .construct steps => steps.foldl addStep m
  | .paint v => m.paint v
  | .endPath => m.endPath

theorem act_eq_perform (m : Machine α δ) (v : Verb) (operands : List (Operand α)) :
    m.act v operands = m.perform (.ofVerb operands v) := by
  cases v with
  | transform =>
    simp only [act, Meaning.ofVerb]
    cases (operands.mapM Operand.number?).bind Matrix.ofList? <;> rfl
  | lineWidth =>
    simp only [act, Meaning.ofVerb]
    rcases Operand.leading? 1 operands with _ | _ | ⟨w, _ | _⟩ <;> rfl
  | color ink space =>
    simp only [act, Meaning.ofVerb]
    cases (Operand.leading? space.arity operands).bind space.color? <;> rfl
  | constructPath =>
    simp only [act, Meaning.ofVerb]
    cases operands[0]?.bind Operand.array? with
    | none => rfl
    | some words =>
      cases operands[1]?.bind Operand.numbers? with
      | none => rfl
      | some coordinates => exact addBatch_eq m words coordinates
  | path v =>
    simp only [act, Meaning.ofVerb]
    cases (Operand.leading? v.arity operands).bind v.step? <;> rfl
  | _ => rfl

theorem step_eq_perform (m : Machine α δ) (e : Entry α) : m.step e = m.perform e.meaning := by
  unfold step Entry.meaning
  cases e.operator with
  | verb v => exact act_eq_perform m v e.operands
  | other => rfl

/-! ## The scope and the height -/

omit [Scalar α] in
theorem paintPath_eq (m : Machine α δ) (style : PaintStyle) :
    m.paintPath style =
      { m with
        path := .empty
        device := if m.path.trail.isEmpty then m.device
          else PaintDevice.paint m.device m.state style m.path.segments } := by
  unfold paintPath
  split <;> rfl

omit [Scalar α] in
@[simp]
theorem scope_paint (m : Machine α δ) (v : PaintVerb) : (m.paint v).scope = m.scope := by
  simp only [paint, paintPath_eq]
  cases v.closes <;> rfl

omit [Scalar α] in
@[simp]
theorem height_paint (m : Machine α δ) (v : PaintVerb) : (m.paint v).height = m.height := by
  simp only [paint, paintPath_eq]
  cases v.closes <;> rfl

theorem scope_perform (m : Machine α δ) (a : Meaning α) :
    (m.perform a).scope = m.scope.perform a := by
  cases a with
  | restore =>
    simp only [perform, restore, Scope.perform, scope]
    split <;> simp_all
  | enterForm t => cases t <;> rfl
  | construct steps => exact scope_addSteps m steps
  | paint v => exact scope_paint m v
  | _ => rfl

theorem scope_step (m : Machine α δ) (e : Entry α) : (m.step e).scope = m.scope.step e := by
  rw [step_eq_perform, scope_perform, Scope.step]

theorem height_perform (m : Machine α δ) (a : Meaning α) : (m.perform a).height = m.height := by
  cases a with
  | restore =>
    simp only [perform, restore]
    split <;> rfl
  | enterForm t => cases t <;> rfl
  | construct steps => exact height_addSteps m steps
  | paint v => exact height_paint m v
  | _ => rfl

theorem scope_runAll (m : Machine α δ) (entries : List (Entry α)) :
    (m.runAll entries).scope = m.scope.run entries := by
  induction entries generalizing m with
  | nil => rfl
  | cons e rest ih =>
    show ((m.step e).runAll rest).scope = (m.scope.step e).run rest
    rw [ih, scope_step]

theorem height_step (m : Machine α δ) (e : Entry α) : (m.step e).height = m.height := by
  rw [step_eq_perform, height_perform]

theorem height_runAll (m : Machine α δ) (entries : List (Entry α)) :
    (m.runAll entries).height = m.height := by
  induction entries generalizing m with
  | nil => rfl
  | cons e rest ih =>
    show ((m.step e).runAll rest).height = m.height
    rw [ih, height_step]

end Machine
end Artwork
