/-!
# Files of a run

A file is known by its location: the names that lead to it from the working directory.  A path may
take detours, which a walk along it removes; each name on the way has to lead to a directory.
-/

namespace Artwork
namespace Command

inductive FileError
  | missing
  | notDirectory
  | isDirectory
  /-- A directory opens for reading and then has no content. -/
  | noContent
deriving DecidableEq, Repr

namespace FileError

def reason : FileError → String
  | missing => "No such file or directory (os error 2)"
  | notDirectory => "Not a directory (os error 20)"
  | isDirectory => "Is a directory (os error 21)"
  | noContent => "No such device (os error 19)"

end FileError

/-- The names that lead to a file.  A location outside the working directory begins with `/` or
`..`. -/
abbrev Location : Type := List String

namespace Location

def step (l : Location) (name : String) : Location :=
  if name = "" ∨ name = "." then l
  else if name = ".." then
    if l = ["/"] then l
    else if l.getLastD ".." = ".." then l ++ [".."]
    else l.dropLast
  else l ++ [name]

/-- Whether a location is a directory whatever else is known: the working directory, those above it,
and the root. -/
def isTop (l : Location) : Bool := l == ["/"] || l.all (· == "..")

/-- Splits a path at its slashes. -/
def splitPath : List Char → List Char × List (List Char)
  | [] => ([], [])
  | c :: rest =>
    let (first, others) := splitPath rest
    if c = '/' then ([], first :: others) else (c :: first, others)

def names (path : String) : List String :=
  let (first, others) := splitPath path.toList
  (first :: others).map String.ofList

def start (path : String) : Location := if path.toList.head? = some '/' then ["/"] else []

/-- The locations along a path, the last of which is where it leads. -/
def along (path : String) : List Location :=
  (names path).foldl (fun ls name => ls ++ [step (ls.getLastD (start path)) name]) []

end Location

inductive Node
  | text (content : String)
  | directory
deriving DecidableEq, Repr

structure Shelf where
  nodes : List (Location × Node)
deriving DecidableEq, Repr

namespace Shelf

def empty : Shelf := ⟨[]⟩

def node? (s : Shelf) (l : Location) : Option Node :=
  match s.nodes.find? (·.1 == l) with
  | some (_, n) => some n
  | none => if l.isTop then some .directory else none

def put (s : Shelf) (l : Location) (n : Node) : Shelf := ⟨(l, n) :: s.nodes.filter (·.1 != l)⟩

/-- Puts a file or a directory under a path, and the directories that lead to it. -/
def stock (s : Shelf) (path : String) (n : Node) : Shelf :=
  let ls := Location.along path
  (ls.dropLast.foldl (fun s l => s.put l .directory) s).put (ls.getLastD []) n

def enter (s : Shelf) (l : Location) : Except FileError Unit :=
  match s.node? l with
  | none => .error .missing
  | some (.text _) => .error .notDirectory
  | some .directory => .ok ()

/-- Goes along a path; what the last name leads to need not be there. -/
def walk (s : Shelf) (l : Location) : List String → Except FileError Location
  | [] => .ok l
  | name :: rest => do
    s.enter l
    s.walk (l.step name) rest

def find (s : Shelf) (path : String) : Except FileError (Location × Node) :=
  if path.isEmpty then .error .missing
  else do
    let l ← s.walk (Location.start path) (Location.names path)
    match s.node? l with
    | some n => .ok (l, n)
    | none => .error .missing

def has (s : Shelf) (path : String) : Bool :=
  match s.find path with
  | .ok _ => true
  | .error _ => false

def read (s : Shelf) (path : String) : Except FileError String :=
  match s.find path with
  | .ok (_, .text content) => .ok content
  | .ok (_, .directory) => .error .noContent
  | .error e => .error e

/-- Makes a file, or empties the one that is there; answers its location. -/
def create (s : Shelf) (path : String) : Except FileError (Location × Shelf) :=
  if path.isEmpty then .error .missing
  else do
    let names := Location.names path
    let parent ← s.walk (Location.start path) names.dropLast
    s.enter parent
    let name := names.getLastD ""
    if name = "" ∨ name = "." ∨ name = ".." then .error .isDirectory
    else
      let l := parent.step name
      match s.node? l with
      | some .directory => .error .isDirectory
      | _ => .ok (l, s.put l (.text ""))

/-- Adds text at the end of a file. -/
def append (s : Shelf) (l : Location) (more : String) : Shelf :=
  match s.node? l with
  | some (.text content) => s.put l (.text (content ++ more))
  | _ => s.put l (.text more)

end Shelf
end Command
end Artwork
