import ClonePrint.Chunk.Split
import ClonePrint.Pool.Schedule

/-!
# Files of one language that wait to be parsed

A backlog collects files and parses them all at once, either one after the other
in batches or through a worker pool. Parsing empties it.
-/
namespace ClonePrint

variable {σ : Type}

structure SourceFile where
  name : String
  text : Text
deriving Repr, DecidableEq

def SourceFile.chunk (f : SourceFile) : Chunk := .whole f.name f.text

/-- The files of one language, with the parser for it. -/
structure Backlog (σ : Type) where
  parser : Parser σ
  memory : σ
  files : List SourceFile := []

namespace Backlog

def add (file : SourceFile) (b : Backlog σ) : Backlog σ :=
  { b with files := b.files ++ [file] }

def size (b : Backlog σ) : Nat := b.files.length

def isEmpty (b : Backlog σ) : Bool := b.files.isEmpty

/-- The files are gone; the parser remembers what it learned. -/
def emptied (memory : σ) (b : Backlog σ) : Backlog σ := { b with memory, files := [] }

/-- Mark the last file of every batch. `left` files are missing in the batch
that is being filled. -/
def markBatches (batch : Nat) : Nat → List SourceFile → List (SourceFile × Bool)
  | _, [] => []
  | left, file :: more =>
      if left ≤ 1 || more.isEmpty then (file, true) :: markBatches batch batch more
      else (file, false) :: markBatches batch (left - 1) more

/-- Parse one file after the other. A file that cannot be parsed costs a warning.
The caches of the parser are dropped with every marked file. -/
def parseEach (p : Parser σ) (memory : σ) :
    List (SourceFile × Bool) → Answer σ (Except Failure (List Fingerprint))
  | [] => ⟨.ok [], memory, []⟩
  | (file, clear) :: more =>
      let first := p.parseFile file.name file.text clear memory
      match first.value with
      | .error (.crash crash) => { first with value := .error (.crash crash) }
      | .error (.error cause) =>
          let rest := parseEach p first.memory more
          { rest with
            notices :=
              first.notices ++ .warning (skippingFile file.name cause) :: rest.notices }
      | .ok found =>
          let rest := parseEach p first.memory more
          { value := rest.value.map (found ++ ·)
            memory := rest.memory
            notices := first.notices ++ rest.notices }

def parse (batch : Nat) (b : Backlog σ) :
    Answer (Backlog σ) (Except Failure (List Fingerprint)) :=
  let answer := parseEach b.parser b.memory (markBatches (max batch 1) (max batch 1) b.files)
  ⟨answer.value, b.emptied answer.memory, answer.notices⟩

/-- The chunks of a file: a large one is split between its items, if the parser
can put it together again and knows where its items start. -/
def chunksOf (p : Parser σ) (splitter : Splitter) (file : SourceFile) (memory : σ) :
    Answer σ (Except Crash (List Chunk)) :=
  if p.splits && splitter.needsSplit file.text then
    (p.itemStarts file.text memory).map fun
      | none => .ok [file.chunk]
      | some starts =>
          match splitter.splitAtItems file.name file.text starts with
          | none => .error ⟨"item start inside a character"⟩
          | some chunks => .ok chunks
  else ⟨.ok [file.chunk], memory, []⟩

def allChunks (p : Parser σ) (splitter : Splitter) :
    List SourceFile → σ → Answer σ (Except Crash (List Chunk))
  | [], memory => ⟨.ok [], memory, []⟩
  | file :: more, memory =>
      let first := chunksOf p splitter file memory
      match first.value with
      | .error crash => { first with value := .error crash }
      | .ok chunks =>
          let rest := allChunks p splitter more first.memory
          { value := rest.value.map (chunks ++ ·)
            memory := rest.memory
            notices := first.notices ++ rest.notices }

/-- Parse chunks with a pool that accepts nothing else. -/
def parseChunks (crew : Crew σ) (workers : Nat) (chunks : List Chunk) (memory : σ)
    (counter : JobCounter := {}) : Answer σ (Except Error (List Fingerprint)) :=
  let pool := chunks.foldl (fun p c => p.add c) (Pool.ofWorkers workers memory counter)
  (pool.close.process crew none).1

/-- Parse the files through a pool with at most `threads` workers, and no more
workers than files. -/
def parseParallel (threads batch limit : Nat) (b : Backlog σ) (counter : JobCounter := {}) :
    Answer (Backlog σ) (Except Failure (List Fingerprint)) :=
  if b.isEmpty then ⟨.ok [], b, []⟩
  else
    let cut := allChunks b.parser (.ofLimit limit) b.files b.memory
    match cut.value with
    | .error crash => ⟨.error (.crash crash), b.emptied cut.memory, cut.notices⟩
    | .ok chunks =>
        let answer := parseChunks ⟨b.parser, batch⟩ (min threads b.size) chunks cut.memory counter
        ⟨answer.value.mapError .error, b.emptied answer.memory, cut.notices ++ answer.notices⟩

end Backlog

end ClonePrint
