import Artwork.Command.Run

/-!
# The command

The command gathers the files that its arguments name, runs on them, and writes out the result; what
the result is, `Command.run` has settled.
-/

namespace Artwork
namespace Command

/-- What stands under a path of the file system, if anything does.

Bytes that are no UTF-8 text are taken for a text that no reader accepts, since a shelf holds texts.
A reader of bytes fails on them too, with one exception: it passes over the members that it does not
know without looking into their strings, so that a page is imported although such a string is
ill-formed. -/
def look (path : String) : IO (Option Node) := do
  try
    let bytes ← IO.FS.readBinFile path
    return some (.text ((String.fromUTF8? bytes).getD "\uFFFD"))
  catch e =>
    match e with
    | .noFileOrDirectory .. => return none
    | _ => return some .directory

/-- Puts what stands under a path of the file system on a shelf. -/
def gather (s : Shelf) (path : String) : IO Shelf := do
  match ← look path with
  | some n => return s.stock path n
  | none => return s

/-- Opens the output file, so that it is known whether it can be written. -/
def gatherOutput (s : Shelf) (path : String) : IO Shelf := do
  try
    let _ ← IO.FS.Handle.mk path .append
    gather s path
  catch _ => gather s path

/-- The files that a run with these arguments looks at. -/
def gatherAll (a : Arguments) : IO Shelf := do
  match options a with
  | .error _ => return .empty
  | .ok _ =>
    let s ← a.files.foldlM gather .empty
    match a.outfile with
    | none | some "-" => return s
    | some path => gatherOutput s path

/-- Writes out what a run leaves behind. -/
def deliver (outfile : Option String) (r : Result) : IO Unit := do
  if let some path := outfile then
    if path != "-" then
      if let .ok content := r.shelf.read path then IO.FS.writeFile path content
  (← IO.getStdout).putStr r.stdout
  (← IO.getStderr).putStr r.stderr

/-- Runs the command on the file system; answers its exit code. -/
def runOnFiles (words : List String) : IO UInt32 := do
  let a? := Arguments.ofWords? words
  let shelf ← match a? with
    | some a => gatherAll a
    | none => pure .empty
  let result := run words shelf
  deliver (a?.bind (·.outfile)) result
  return result.code.toUInt32

end Command
end Artwork

def main (words : List String) : IO UInt32 := Artwork.Command.runOnFiles words
