import Artwork.Command.Run
import Artwork.Proofs.Command.Shelf
import Artwork.Proofs.Wire.Refusal

/-!
# What a run delivers

The inputs of a run before the first one that fails are due to be written out in full, in order and
with nothing behind them.  What reaches the output is always a beginning of that, and it is all of
it except in one case: the input that fails is not there, and some input was imported before it
(`run_delivers`).  The run then ends at once, and the buffer, which is never empty behind a
document, is lost.

An input may be the output file itself.  It can be read then, but never as a page document, since
it is empty or begins with a drawing; hence each input can be judged on the files as they are when
the output has been opened.
-/

namespace Artwork
namespace Command

/-! ## Inputs -/

/-- What becomes of an input. -/
inductive Fate
  | missing
  /-- The input cannot be read, or its import fails. -/
  | rejected (message : String)
  | imported (d : Drawing Float)

namespace Session

def fate (s : Session) (o : Options Float) (path : String) : Fate :=
  if s.shelf.has path then
    match s.importFile o path with
    | .error e => .rejected e.message
    | .ok d => .imported d
  else .missing

end Session

/-- The inputs before the first one that fails, and what is imported from them. -/
def leading (fate : String → Fate) : List String → List (String × Drawing Float)
  | [] => []
  | path :: rest =>
    match fate path with
    | .imported d => (path, d) :: leading fate rest
    | _ => []

/-- The first input that fails, and how. -/
def failing? (fate : String → Fate) : List String → Option (String × Fate)
  | [] => none
  | path :: rest =>
    match fate path with
    | .imported _ => failing? fate rest
    | f => some (path, f)

/-- The documents of some drawings, with a line break behind each. -/
def documents (sp : Spacing) : List (String × Drawing Float) → String
  | [] => ""
  | (_, d) :: rest => d.json.text sp ++ "\n" ++ documents sp rest

def summaries : List (String × Drawing Float) → String
  | [] => ""
  | (path, d) :: rest => String.join [path, ": ", d.summary] ++ "\n" ++ summaries rest

/-- The line about an input that fails. -/
def complaint : Option (String × Fate) → String
  | some (path, .missing) => String.join ["Error: File not found: ", path] ++ "\n"
  | some (path, .rejected message) =>
    String.join ["Error importing ", path, ": ", message] ++ "\n"
  | _ => ""

/-- The text that stands at a target after a run. -/
def Result.output (r : Result) : Target → String
  | .stdout => r.stdout
  | .file l =>
    match r.shelf.node? l with
    | some (.text content) => content
    | _ => ""

/-! ## Sessions -/

namespace Session

/-- The session after it has delivered one text, with another one in the buffer. -/
def having (s : Session) (delivered held errors : String) : Session :=
  match s.target with
  | .stdout => { s with stdout := delivered, buffer := held, stderr := errors }
  | .file l =>
    { s with shelf := s.shelf.put l (.text delivered), buffer := held, stderr := errors }

/-- Nothing has been written so far, and an output file is there and empty. -/
structure Opened (s : Session) : Prop where
  buffer : s.buffer = ""
  stdout : s.stdout = ""
  stderr : s.stderr = ""
  node : ∀ l, s.target = .file l → s.shelf.node? l = some (.text "")
  shelf : ∀ l, s.target = .file l → s.shelf.put l (.text "") = s.shelf

theorem having_empty {s : Session} (h : s.Opened) : s.having "" "" "" = s := by
  obtain ⟨shelf, target, buffer, stdout, stderr⟩ := s
  obtain ⟨hbuffer, hstdout, hstderr, -, hshelf⟩ := h
  cases target with
  | stdout => simp_all [having]
  | file l => simp_all [having]

variable (s : Session) (delivered held errors : String)

@[simp]
theorem buffer_having : (s.having delivered held errors).buffer = held := by
  unfold having
  split <;> rfl

@[simp]
theorem stderr_having : (s.having delivered held errors).stderr = errors := by
  unfold having
  split <;> rfl

@[simp]
theorem output_having (code : Nat) :
    ((s.having delivered held errors).exit code).output s.target = delivered := by
  unfold having
  cases s.target with
  | stdout => rfl
  | file l => simp [exit, Result.output, Shelf.node?_put]

theorem deliver_having (text : String) :
    (s.having delivered held errors).deliver text =
      s.having (delivered ++ text) held errors := by
  obtain ⟨shelf, target, buffer, stdout, stderr⟩ := s
  cases target with
  | stdout => rfl
  | file l => simp [having, deliver, Shelf.append_put]

theorem hold_having (more : String) :
    { s.having delivered held errors with buffer := more } = s.having delivered more errors := by
  unfold having
  split <;> rfl

theorem flush_having :
    (s.having delivered held errors).flush = s.having (delivered ++ held) "" errors := by
  rw [flush, buffer_having, deliver_having, hold_having]

theorem report_having (parts : List String) :
    (s.having delivered held errors).report parts =
      s.having delivered held (errors ++ String.join parts ++ "\n") := by
  unfold having report
  split <;> rfl

/-- Where a text goes that is written: behind the buffer, into the buffer once this has been
emptied, or past it. -/
theorem write_having (text : String) :
    (s.having delivered held errors).write text = s.having delivered (held ++ text) errors ∨
      (s.having delivered held errors).write text = s.having (delivered ++ held) text errors ∨
      capacity ≤ text.utf8ByteSize ∧
        (s.having delivered held errors).write text =
          s.having (delivered ++ held ++ text) "" errors := by
  unfold write
  simp only [buffer_having]
  by_cases hfits : text.utf8ByteSize < capacity - held.utf8ByteSize
  · left
    rw [if_pos hfits, hold_having]
  · rw [if_neg hfits]
    by_cases hover : capacity - held.utf8ByteSize < text.utf8ByteSize
    · rw [if_pos hover, flush_having]
      by_cases hlong : capacity ≤ text.utf8ByteSize
      · exact .inr (.inr ⟨hlong, by rw [if_pos hlong, deliver_having]⟩)
      · right
        left
        rw [if_neg hlong, buffer_having, String.empty_append, hold_having]
    · rw [if_neg hover]
      by_cases hlong : capacity ≤ text.utf8ByteSize
      · -- The text is as long as the whole buffer, which then is empty.
        have hsize : held.utf8ByteSize = 0 := by
          unfold capacity at *
          omega
        have hheld : held = "" := String.utf8ByteSize_eq_zero_iff.mp hsize
        exact .inr (.inr ⟨hlong, by rw [if_pos hlong, deliver_having, hheld, String.append_empty]⟩)
      · left
        rw [if_neg hlong, buffer_having, hold_having]

end Session

/-! ## Output as input -/

/-- What a run may have delivered at any time: nothing, or a drawing and more. -/
def IsOutput (sp : Spacing) (text : String) : Prop :=
  text = "" ∨ ∃ (d : Drawing Float) (rest : String), text = d.json.text sp ++ rest

namespace IsOutput

variable {sp : Spacing} {text : String}

theorem empty : IsOutput sp "" := .inl rfl

theorem document (d : Drawing Float) (rest : String) : IsOutput sp (d.json.text sp ++ rest) :=
  .inr ⟨d, rest, rfl⟩

theorem append_document (h : IsOutput sp text) (d : Drawing Float) (rest : String) :
    IsOutput sp (text ++ (d.json.text sp ++ rest)) := by
  rcases h with rfl | ⟨e, more, rfl⟩
  · rw [String.empty_append]
    exact document d rest
  · rw [String.append_assoc]
    exact document e _

theorem ofText_error (h : IsOutput sp text) :
    ∃ f, (PageDocument.ofText text.toList : Except (Failure Float) (PageDocument Float)) =
      .error (.document f) := by
  rcases h with rfl | ⟨d, rest, rfl⟩
  · exact PageDocument.ofText_nil
  · rw [String.toList_append, Json.text, String.toList_ofList]
    exact PageDocument.ofText_drawing d sp rest.toList

theorem import_error (h : IsOutput sp text) (o : Options Float) :
    ∃ f, Import.text o false text.toList = .error (.document f) := by
  obtain ⟨f, hf⟩ := h.ofText_error
  refine ⟨f, ?_⟩
  rw [Import.text, hf]
  rfl

end IsOutput

namespace Session

theorem fate_of_read {s t : Session} {path : String}
    (hhas : t.shelf.has path = s.shelf.has path) (hread : t.shelf.read path = s.shelf.read path)
    (o : Options Float) : t.fate o path = s.fate o path := by
  rw [fate, fate, hhas, importFile, importFile, hread]

theorem fate_of_output {s : Session} {sp : Spacing} {path text : String}
    (hhas : s.shelf.has path = true) (hread : s.shelf.read path = .ok text)
    (h : IsOutput sp text) (o : Options Float) :
    s.fate o path = .rejected "malformed page document" := by
  obtain ⟨f, hf⟩ := h.import_error o
  rw [fate, if_pos hhas, importFile, hread]
  show (match Import.text o false text.toList with
    | .error e => Fate.rejected e.message
    | .ok d => .imported d) = _
  rw [hf]
  rfl

theorem fate_having {s : Session} (h : s.Opened) {sp : Spacing} {delivered : String}
    (hdelivered : IsOutput sp delivered) (held errors : String) (o : Options Float)
    (path : String) : (s.having delivered held errors).fate o path = s.fate o path := by
  cases htarget : s.target with
  | stdout =>
    refine fate_of_read ?_ ?_ o <;> simp [having, htarget]
  | file l =>
    have hshelf : (s.having delivered held errors).shelf = s.shelf.put l (.text delivered) := by
      simp [having, htarget]
    have hnode := h.node l htarget
    have hhas := Shelf.has_put hnode delivered path
    rw [← hshelf] at hhas
    rcases Shelf.read_put hnode delivered path with ⟨hold, hnew⟩ | hsame
    · have hfound : s.shelf.has path = true := Shelf.has_of_read hold
      rw [fate_of_output (hhas.trans hfound) (hshelf ▸ hnew) hdelivered,
        fate_of_output hfound hold (IsOutput.empty : IsOutput sp "")]
    · exact fate_of_read hhas (hshelf ▸ hsame) o

/-! ## Runs -/

theorem write_document (s : Session) {sp : Spacing} {delivered held : String}
    (hdelivered : IsOutput sp delivered) (hwritten : IsOutput sp (delivered ++ held))
    (errors : String) (d : Drawing Float) :
    ∃ delivered' held',
      ((s.having delivered held errors).write (d.json.text sp)).write "\n" =
          s.having delivered' held' errors ∧
        delivered' ++ held' = delivered ++ held ++ (d.json.text sp ++ "\n") ∧
        held' ≠ "" ∧ IsOutput sp delivered' := by
  have hdocument : IsOutput sp (delivered ++ held ++ d.json.text sp) := by
    have h := hwritten.append_document d ""
    rwa [String.append_empty] at h
  -- The document alone: what is delivered then ends where some writing ended.
  obtain ⟨delivered₁, held₁, hwrite, htext, houtput⟩ : ∃ delivered₁ held₁,
      (s.having delivered held errors).write (d.json.text sp) = s.having delivered₁ held₁ errors ∧
        delivered₁ ++ held₁ = delivered ++ held ++ d.json.text sp ∧ IsOutput sp delivered₁ := by
    rcases write_having s delivered held errors (d.json.text sp) with h | h | ⟨-, h⟩
    · exact ⟨_, _, h, (String.append_assoc ..).symm, hdelivered⟩
    · exact ⟨_, _, h, rfl, hwritten⟩
    · exact ⟨_, _, h, String.append_empty, hdocument⟩
  rw [hwrite]
  rcases write_having s delivered₁ held₁ errors "\n" with h | h | ⟨hlong, -⟩
  · refine ⟨_, _, h, ?_, by simp, houtput⟩
    rw [← String.append_assoc, htext, String.append_assoc]
  · refine ⟨_, _, h, ?_, by decide, ?_⟩
    · rw [htext, String.append_assoc]
    · rw [htext]
      exact hdocument
  · exact absurd hlong (by decide)

theorem importFiles_cons (o : Options Float) (sp : Spacing) (s : Session) (path : String)
    (rest : List String) :
    s.importFiles o sp (path :: rest) =
      match s.fate o path with
      | .missing => (s.report ["Error: File not found: ", path]).exit 1
      | .rejected message => (s.flush.report ["Error importing ", path, ": ", message]).exit 1
      | .imported d =>
        (((s.write (d.json.text sp)).write "\n").report [path, ": ", d.summary]).importFiles
          o sp rest := by
  rw [importFiles, fate]
  by_cases h : s.shelf.has path
  · rw [if_pos h, if_pos h]
    cases s.importFile o path <;> rfl
  · rw [if_neg h, if_neg h]

/-- From any point of a run on: `lost` is what stays in the buffer. -/
theorem importFiles_having {s : Session} (h : s.Opened) (o : Options Float) {sp : Spacing}
    (files : List String) {delivered held : String} (errors : String)
    (hdelivered : IsOutput sp delivered) (hwritten : IsOutput sp (delivered ++ held))
    (hheld : delivered ++ held = "" ∨ held ≠ "") :
    ∃ lost, (((s.having delivered held errors).importFiles o sp files).code =
        if (failing? (s.fate o) files).isSome then 1 else 0) ∧
      ((s.having delivered held errors).importFiles o sp files).stderr =
        errors ++ (summaries (leading (s.fate o) files) ++ complaint (failing? (s.fate o) files)) ∧
      ((s.having delivered held errors).importFiles o sp files).output s.target ++ lost =
        delivered ++ held ++ documents sp (leading (s.fate o) files) ∧
      (lost = "" ↔ delivered ++ held ++ documents sp (leading (s.fate o) files) = "" ∨
        ∀ path, failing? (s.fate o) files ≠ some (path, .missing)) := by
  induction files generalizing delivered held errors with
  | nil =>
    refine ⟨"", rfl, ?_, ?_, ?_⟩
    · rw [importFiles, flush_having]
      simp [exit, leading, failing?, summaries, complaint]
    · rw [importFiles, flush_having, output_having]
      rfl
    · simp [failing?]
  | cons path rest ih =>
    have hfate := fate_having h hdelivered held errors o path
    rw [importFiles_cons, hfate]
    cases hcase : s.fate o path with
    | missing =>
      refine ⟨held, ?_, ?_, ?_, ?_⟩
      · simp [failing?, hcase, exit]
      · simp [failing?, leading, hcase, exit, report_having, summaries, complaint,
          String.append_assoc]
      · simp [leading, hcase, report_having, documents]
      · have hfailing : ¬ ∀ p, failing? (s.fate o) (path :: rest) ≠ some (p, .missing) := by
          simp [failing?, hcase]
        rw [or_iff_left hfailing, leading, hcase, documents, String.append_empty]
        constructor
        · intro hnil
          exact hheld.resolve_right (not_not_intro hnil)
        · intro hnil
          exact (String.append_eq_empty_iff.mp hnil).2
    | rejected message =>
      refine ⟨"", ?_, ?_, ?_, ?_⟩
      · simp [failing?, hcase, exit]
      · simp [failing?, leading, hcase, exit, flush_having, report_having, summaries, complaint,
          String.append_assoc]
      · simp [leading, hcase, flush_having, report_having, documents]
      · simp [failing?, hcase]
    | imported d =>
      obtain ⟨delivered', held', hwrite, htext, hheld', hdelivered'⟩ :=
        write_document s hdelivered hwritten errors d
      have hwritten' : IsOutput sp (delivered' ++ held') := by
        rw [htext]
        exact hwritten.append_document d "\n"
      obtain ⟨lost, hcode, hstderr, houtput, hlost⟩ := ih
        (errors ++ String.join [path, ": ", d.summary] ++ "\n") hdelivered' hwritten' (.inr hheld')
      rw [htext] at houtput hlost
      simp only [hwrite, report_having, failing?, leading, hcase, documents, summaries]
      refine ⟨lost, hcode, ?_, ?_, ?_⟩
      · rw [hstderr]
        simp only [String.append_assoc]
      · rw [houtput]
        simp only [String.append_assoc]
      · rw [hlost]
        simp only [String.append_assoc]

end Session

theorem openOutput_opened {a : Arguments} {shelf : Shelf} {s : Session}
    (h : openOutput a shelf = .ok s) : s.Opened := by
  unfold openOutput at h
  split at h
  · cases h
    constructor <;> simp
  · cases h
    constructor <;> simp
  · next path _ _ =>
    cases hcreate : shelf.create path with
    | error e =>
      rw [hcreate] at h
      cases h
    | ok created =>
      obtain ⟨l, t⟩ := created
      have ht := Shelf.create_eq hcreate
      rw [hcreate] at h
      cases h
      constructor
      all_goals simp [ht, Shelf.node?_put, Shelf.put_put]

def spacing (a : Arguments) : Spacing := if a.has .pretty then .indented else .compact

theorem documents_eq_empty_iff (sp : Spacing) (imported : List (String × Drawing Float)) :
    documents sp imported = "" ↔ imported = [] := by
  cases imported with
  | nil => simp [documents]
  | cons p rest => simp [documents, String.append_eq_empty_iff]

/-- What a run writes, reports and answers.  The documents of the inputs before the first one that
fails arrive in full unless there are some and the failing input is not there; in that case only a
beginning of them arrives. -/
theorem run_delivers {words : List String} {shelf : Shelf} {a : Arguments} {o : Options Float}
    {s : Session} (hwords : Arguments.ofWords? words = some a) (hoptions : options a = .ok o)
    (hopen : openOutput a shelf = .ok s) :
    let imported := leading (s.fate o) a.files
    let failure := failing? (s.fate o) a.files
    let r := run words shelf
    r.code = (if failure.isSome then 1 else 0) ∧
      r.stderr = summaries imported ++ complaint failure ∧
      (∃ lost, documents (spacing a) imported = r.output s.target ++ lost) ∧
      (r.output s.target = documents (spacing a) imported ↔
        imported = [] ∨ ∀ path, failure ≠ some (path, .missing)) := by
  intro imported failure r
  have hopened := openOutput_opened hopen
  obtain ⟨lost, hcode, hstderr, houtput, hlost⟩ :=
    @Session.importFiles_having s hopened o (spacing a) a.files "" "" "" .empty .empty (.inl rfl)
  have hrun : r = s.importFiles o (spacing a) a.files := by
    show run words shelf = _
    rw [run, hwords]
    simp only [hoptions, hopen]
    rfl
  rw [Session.having_empty hopened, ← hrun] at hcode hstderr houtput
  simp only [String.empty_append] at hstderr houtput hlost
  refine ⟨hcode, hstderr, ⟨lost, houtput.symm⟩, ?_⟩
  rw [← documents_eq_empty_iff (spacing a), ← hlost, ← houtput]
  constructor
  · intro hall
    have hlength := congrArg (fun t => t.toList.length) hall
    simp only [String.toList_append, List.length_append] at hlength
    have hnil : lost.toList = [] := List.eq_nil_of_length_eq_zero (by omega)
    exact String.toList_eq_nil_iff.mp hnil
  · intro hnil
    rw [hnil, String.append_empty]

/-! ## One page and two more inputs -/

def blankPage : String :=
  "\x7b\"width\":72,\"height\":72,\"operators\":[],\"textItems\":[]\x7d"

/-- A good page, and a text that is no page. -/
def desk : Shelf := (Shelf.empty.stock "a.json" (.text blankPage)).stock "b.json" (.text "[]")

def deskSession : Session := ⟨desk, .stdout, "", "", ""⟩

theorem run_delivers_before_rejected :
    (run ["a.json", "b.json"] desk).code = 1 ∧
      (run ["a.json", "b.json"] desk).output .stdout =
        documents .compact (leading (deskSession.fate .standard) ["a.json", "b.json"]) := by
  have hrun := @run_delivers ["a.json", "b.json"] desk ⟨["a.json", "b.json"], [], none, none⟩
    .standard deskSession rfl rfl rfl
  obtain ⟨hcode, -, -, houtput⟩ := hrun
  refine ⟨hcode.trans (by decide +kernel), houtput.mpr (.inr fun path hfailing => ?_)⟩
  -- The input that fails is there.
  have hthere : (failing? (deskSession.fate .standard) ["a.json", "b.json"]).map
      (fun f => f.2 matches .missing) = some false := by decide +kernel
  rw [hfailing] at hthere
  cases hthere

/-- The document of the first input does not arrive when the second one is not there. -/
theorem missing_input_loses_documents :
    ¬ ∀ (words : List String) (shelf : Shelf) (a : Arguments) (o : Options Float) (s : Session),
      Arguments.ofWords? words = some a → options a = .ok o → openOutput a shelf = .ok s →
        (run words shelf).output s.target =
          documents (spacing a) (leading (s.fate o) a.files) := by
  intro h
  have hall := h ["a.json", "c.json"] desk ⟨["a.json", "c.json"], [], none, none⟩ .standard
    deskSession rfl rfl rfl
  revert hall
  decide +kernel

end Command
end Artwork
