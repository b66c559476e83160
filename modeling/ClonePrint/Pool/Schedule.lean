import ClonePrint.Pool

/-!
# Running a pool

A run needs somebody who chooses the moves. Here the surroundings act as soon as
they can, then the dispatcher empties its channels, then the workers report, and
only then a worker takes up something new. The surroundings follow a script: the
moves they are going to make, in order.
-/
namespace ClonePrint

variable {σ : Type}

/-- Chunks that arrive while the pool is running, in a paced feed only when input is wanted. -/
structure Feed where
  chunks : List Chunk
  paced : Bool := false
deriving Repr, DecidableEq

/-- The moves of the surroundings: the chunks one by one, then the end of the
input. Without a feed they leave at once. -/
def Feed.script : Option Feed → List Move
  | none => [.leave]
  | some feed =>
      (feed.chunks.flatMap fun c =>
        (if feed.paced then [Move.seeWanted] else []) ++ [.ask (.submit c)]) ++
      [.ask .close, .leave]

namespace Pool

/-- The moves of the pool itself, the most urgent first. -/
def candidates (p : Pool σ) : List Move :=
  let workers := List.range p.seats.length
  [.takeRequest, .noticeLeft, .takeReport] ++ workers.map .report ++ workers.map .work

def advance? (crew : Crew σ) (p : Pool σ) : Option (Pool σ) :=
  p.candidates.findSome? (p.move? crew)

/-- Make at most `fuel` moves, of the script when that is possible. -/
def run (crew : Crew σ) : Nat → List Move → Pool σ → Pool σ
  | 0, _, p => p
  | fuel + 1, script, p =>
      if p.isOver then p
      else
        match script.head?.bind (p.move? crew) with
        | some p => run crew fuel script.tail p
        | none =>
            match p.advance? crew with
            | some p => run crew fuel script p
            | none => p

/-- How many moves a run may take: each chunk is parsed at most twice, and every
job and every idle worker costs a bounded number of moves. -/
def allowance (p : Pool σ) (script : List Move) : Nat :=
  32 * (p.dispatcher.queue.size + script.length + p.seats.length)

/-- Start the pool and run it to its end. The state at the end comes with the
answer. A run that outlasts its allowance counts as one whose workers are lost. -/
def process (crew : Crew σ) (feed : Option Feed) (p : Pool σ) :
    Answer σ (Except Error (List Fingerprint)) × Pool σ :=
  let script := Feed.script feed
  let last := run crew (p.allowance script) script p.start
  ({ value := last.outcome?.getD
       (.error (.pool "workers disconnected before the pool finished"))
     memory := last.memory
     notices := last.notices },
   last)

end Pool

end ClonePrint
