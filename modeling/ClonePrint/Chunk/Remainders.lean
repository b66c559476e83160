import ClonePrint.Chunk

/-!
# The buffer of remainders

Parts of files that could not be parsed yet wait here for their neighbours. As
soon as two waiting chunks of a file are adjacent they are joined and leave the
buffer together. At the end of a run whatever still waits is settled, which
forces it to be parsed on its own.
-/
namespace ClonePrint

/-- The waiting chunks of every file that has any. -/
structure Remainders where
  files : List (String × List Chunk) := []
deriving Repr, DecidableEq

namespace Remainders

def pending (file : String) (r : Remainders) : List Chunk :=
  ((r.files.find? fun entry => entry.1 == file).map Prod.snd).getD []

/-- Replace the waiting chunks of one file; a file without any is forgotten. -/
def setPending (file : String) (chunks : List Chunk) (r : Remainders) : Remainders :=
  let others := r.files.filter fun entry => entry.1 != file
  ⟨if chunks.isEmpty then others else others ++ [(file, chunks)]⟩

def inOrder (c d : Chunk) : Bool :=
  c.id < d.id || (c.id == d.id && c.byteOffset ≤ d.byteOffset)

/-- Group neighbours that follow each other without a gap. -/
def runs : List Chunk → List (List Chunk)
  | [] => []
  | c :: more =>
      match runs more with
      | (d :: run) :: others =>
          if c.precedes d then (c :: d :: run) :: others else [c] :: (d :: run) :: others
      | others => [c] :: others

def joinRun : List Chunk → Except Error (List Chunk)
  | [] => .ok []
  | c :: more => (more.foldlM Chunk.join c).map ([·])

/-- Add a chunk. The answer lists the chunks that were completed by joining and
have left the buffer. -/
def insert (c : Chunk) (r : Remainders) : Except Error (List Chunk × Remainders) :=
  let waiting := r.pending c.file ++ [c]
  if waiting.length < 2 then .ok ([], r.setPending c.file waiting)
  else
    let groups := runs (waiting.mergeSort inOrder)
    let alone := (groups.filter (·.length < 2)).flatten
    ((groups.filter (2 ≤ ·.length)).mapM joinRun).map fun joined =>
      (joined.flatten, r.setPending c.file alone)

/-- The order in which leftovers are parsed. -/
def byFile (c d : Chunk) : Bool :=
  c.file < d.file || (c.file == d.file && c.id ≤ d.id)

/-- Everything that still waits, settled, by file and position. -/
def leftovers (r : Remainders) : List Chunk :=
  ((r.files.flatMap Prod.snd).map Chunk.settled).mergeSort byFile

def size (r : Remainders) : Nat := (r.files.flatMap Prod.snd).length

def isEmpty (r : Remainders) : Bool := r.files.isEmpty

end Remainders

end ClonePrint
