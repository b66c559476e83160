import ClonePrint.Path
import ClonePrint.Text.Lower

/-!
# Files to be parsed

A workspace is a directory with everything below it. Paths are followed from
there, one component after the other, and whatever they name must exist. Below a
path all files are found except those that look like tests, build products or
documentation.
-/
namespace ClonePrint

/-- A file with its place below the directory. -/
structure StoredFile where
  place : List Text
  content : List UInt8
deriving Repr, DecidableEq

structure Workspace where
  files : List StoredFile := []
deriving Repr, DecidableEq

namespace Workspace

def file? (place : List Text) (w : Workspace) : Option StoredFile :=
  w.files.find? (·.place == place)

def isDirectory (place : List Text) (w : Workspace) : Bool :=
  place.isEmpty || w.files.any fun f => place.isPrefixOf f.place && f.place != place

/-- Follow one piece of a path. What is not a directory leads nowhere. -/
def follow? (w : Workspace) (place : List Text) (piece : Text) : Option (List Text) :=
  if !w.isDirectory place then none
  else if piece.isEmpty || piece = ['.'] then some place
  else if piece = ['.', '.'] then if place.isEmpty then none else some place.dropLast
  else
    let inside := place ++ [piece]
    if (w.file? inside).isSome || w.isDirectory inside then some inside else none

/-- The place that a path names. A path that starts with a slash leads away. -/
def locate? (path : String) (w : Workspace) : Option (List Text) :=
  match path.toList with
  | '/' :: _ => none
  | path => (Path.pieces path).foldlM w.follow? []

def readText? (path : String) (w : Workspace) : Option Text := do
  let file ← w.file? (← w.locate? path)
  (String.fromUTF8? ⟨file.content.toArray⟩).map String.toList

/-- Names that hold one of these, in any case, are passed over. -/
def excluded : List String :=
  [".git", "test", "tests", "build", "dist", "demo", "docs", "node_modules", "generated",
   "backup", "examples", ".min.", "-min."]

def occurs (word : Text) (t : Text) : Bool :=
  match t with
  | [] => word.isEmpty
  | c :: more => word.isPrefixOf (c :: more) || occurs word more

def isExcluded (name : Text) : Bool :=
  excluded.any fun word => occurs word.toList (Text.lower name)

/-- A file that was found, with the name it is reported under. -/
structure FoundFile where
  name : String
  content : List UInt8
deriving Repr, DecidableEq

/-- The files that a path leads to. A file is found under the path itself, the
files below a directory under their paths from there. The directory itself may
have any name. -/
def filesUnder (path : String) (w : Workspace) : List FoundFile :=
  match w.locate? path with
  | none => []
  | some place =>
      match w.file? place with
      | some file => [⟨path, file.content⟩]
      | none =>
          w.files.filterMap fun file =>
            if place.isPrefixOf file.place then
              let below := file.place.drop place.length
              if below.any isExcluded then none
              else some ⟨String.ofList (['/'].intercalate below), file.content⟩
            else none

end Workspace

end ClonePrint
