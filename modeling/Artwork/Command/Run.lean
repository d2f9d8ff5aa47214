import Artwork.Command.Arguments
import Artwork.Command.Shelf
import Artwork.Json.Writer
import Artwork.Wire.Drawing

/-!
# Runs of the command

Every file is imported in turn.  Its drawing is written to the output and its summary to the error
stream; the first file that fails ends the run.  The output goes through a buffer, which is emptied
at the end and before an import failure is reported.  A file that is not there ends the run at
once, and what the buffer holds is lost then.

Two things are left out.  With `-d`, or with a log filter in the environment, log lines go to the
error stream among the lines that are reported here; they change neither output nor exit code, so
the switch is only parsed.  And `-h`, `--help`, `-V` and `--version` print a help or version text
and end a run with code 0 before anything is opened; here they are options that are not known, and
end it with the usage.
-/

namespace Artwork
namespace Command

inductive Target
  | stdout
  | file (l : Location)
deriving DecidableEq

structure Session where
  shelf : Shelf
  target : Target
  /-- Output that has not been delivered. -/
  buffer : String
  stdout : String
  stderr : String

namespace Session

/-- How many bytes the buffer holds. -/
def capacity : Nat := 8192

def deliver (s : Session) (text : String) : Session :=
  match s.target with
  | .stdout => { s with stdout := s.stdout ++ text }
  | .file l => { s with shelf := s.shelf.append l text }

def flush (s : Session) : Session := { s.deliver s.buffer with buffer := "" }

/-- Writes to the output.  Text that does not fit empties the buffer first, and text as long as the
buffer passes it by. -/
def write (s : Session) (text : String) : Session :=
  let spare := capacity - s.buffer.utf8ByteSize
  if text.utf8ByteSize < spare then { s with buffer := s.buffer ++ text }
  else
    let s := if spare < text.utf8ByteSize then s.flush else s
    if capacity ≤ text.utf8ByteSize then s.deliver text
    else { s with buffer := s.buffer ++ text }

def report (s : Session) (parts : List String) : Session :=
  { s with stderr := s.stderr ++ String.join parts ++ "\n" }

end Session

structure Result where
  code : Nat
  stdout : String
  stderr : String
  shelf : Shelf

namespace Session

def exit (s : Session) (code : Nat) : Result := ⟨code, s.stdout, s.stderr, s.shelf⟩

def importFile (s : Session) (o : Options Float) (path : String) :
    Except (Failure Float) (Drawing Float) := do
  let content ← (s.shelf.read path).mapError fun e => .io e.reason
  Import.text o false content.toList

/-- Imports files until one fails. -/
def importFiles (o : Options Float) (sp : Spacing) (s : Session) : List String → Result
  | [] => s.flush.exit 0
  | path :: rest =>
    if s.shelf.has path then
      match s.importFile o path with
      | .error e => (s.flush.report ["Error importing ", path, ": ", e.message]).exit 1
      | .ok d =>
        let s := (s.write (d.json.text sp)).write "\n"
        importFiles o sp (s.report [path, ": ", d.summary]) rest
    else (s.report ["Error: File not found: ", path]).exit 1

end Session

/-- A character of a quoted message. -/
def quoteChar (c : Char) : List Char :=
  match c with
  | '"' => ['\\', '"']
  | '\\' => ['\\', '\\']
  | '\n' => ['\\', 'n']
  | '\r' => ['\\', 'r']
  | '\t' => ['\\', 't']
  | '\x00' => ['\\', '0']
  | c =>
    if c.toNat < 0x20 ∨ (0x7F ≤ c.toNat ∧ c.toNat < 0xA0) then
      ['\\', 'u', '\x7b'] ++ Nat.toDigits 16 c.toNat ++ ['\x7d']
    else [c]

def quote (message : String) : String :=
  String.ofList ('"' :: message.toList.flatMap quoteChar ++ ['"'])

def usage : String :=
  "Usage: inkport [--gap X] [--no-grouping] [--no-text] [-o F] [--pretty] [-d] FILE...\n"

/-- The import options that the arguments ask for; the gap is looked at only when it is used. -/
def options (a : Arguments) : Except Float (Options Float) :=
  let o : Options Float := Options.standard
  let o := if a.has .noText then o.withoutText else o
  if a.has .noGrouping then .ok o.withoutGrouping
  else
    match a.gap with
    | none => .ok o
    | some gap =>
      match o.withGap? gap with
      | some o => .ok o
      | none => .error gap

/-- Opens the output: a single dash is standard output. -/
def openOutput (a : Arguments) (shelf : Shelf) : Except String Session :=
  match a.outfile with
  | none | some "-" => .ok ⟨shelf, .stdout, "", "", ""⟩
  | some path =>
    match shelf.create path with
    | .ok (l, shelf) => .ok ⟨shelf, .file l, "", "", ""⟩
    | .error e => .error (String.join ["Failed to create output file ", path, ": ", e.reason])

/-- Runs the command on the words of its command line.  The usage stands for everything that is
printed about arguments that cannot be used. -/
def run (words : List String) (shelf : Shelf) : Result :=
  match Arguments.ofWords? words with
  | none => ⟨2, "", usage, shelf⟩
  | some a =>
    match options a with
    | .error gap =>
      let message := String.join
        ["Invalid gap ", Numeral.plainText gap, ": expected a non-negative number of millimetres\n"]
      ⟨1, "", message, shelf⟩
    | .ok o =>
      match openOutput a shelf with
      | .error message => ⟨1, "", String.join ["Error: ", quote message, "\n"], shelf⟩
      | .ok s =>
        s.importFiles o (if a.has .pretty then .indented else .compact) a.files

end Command
end Artwork
