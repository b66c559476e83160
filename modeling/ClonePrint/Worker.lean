import ClonePrint.Message
import ClonePrint.Parser
import ClonePrint.Wire

/-!
# Workers

A worker runs one job after the other and turns what the parser says into
replies. A file that cannot be parsed costs a warning and counts as empty. The
same replies go over a channel inside one process or over lines between two.
-/
namespace ClonePrint

variable {σ : Type}

/-- Whether the parser's caches are dropped after a job: once every `batch` jobs. The numbers of
jobs are words of 64 bits. -/
def clearsCache (batch job : Nat) : Bool :=
  batch != 0 && (UInt64.ofNat job + 1).toNat % batch == 0

def skippingFile (file : String) (cause : Error) : String :=
  "Error while parsing file " ++ file ++ ", skipping: " ++ cause.message

namespace Worker

/-- The replies to a job that ran to its end. -/
def replies (file : String) (outcome : Outcome) : List Reply :=
  outcome.warnings.map .warning ++ (outcome.remainder.map Reply.remainder).toList ++
    [.result file outcome.found]

def runJob (p : Parser σ) (batch : Nat) (job : Job Chunk) (memory : σ) :
    Answer σ (Except Crash (List Reply)) :=
  let chunk := job.payload
  (p.parseChunk chunk (clearsCache batch job.id) memory).map fun
    | .ok outcome => .ok (replies chunk.file outcome)
    | .error (.error cause) =>
        .ok [.warning (skippingFile chunk.file cause), .result chunk.file []]
    | .error (.crash crash) => .error crash

/-- What serving a row of lines came to, after so many jobs. -/
structure Served (σ : Type) where
  jobs : Nat := 0
  output : List Text := []
  failure : Option Failure := none
  memory : σ
  notices : List Notice := []

/-- Serve dispatches that arrive as lines, until one of them says to stop or the
lines end. A line that is not text or not a dispatch ends the service with an
error; blank lines mean nothing. -/
def serve (p : Parser σ) (batch : Nat) (memory : σ) : List (Option Text) → Served σ
  | [] => { memory }
  | none :: _ =>
      { memory, failure := some (.error (.io "stream did not contain valid UTF-8")) }
  | some line :: lines =>
      if Text.isAllBlank line then serve p batch memory lines
      else
        match Wire.decodeLine? (α := Dispatch) line with
        | none => { memory, failure := some (.error (.protocol "invalid message")) }
        | some .close => { memory }
        | some .noJob =>
            let rest := serve p batch memory lines
            { rest with output := Wire.encodeLine Reply.idle :: rest.output }
        | some (.job job) =>
            let answer := runJob p batch job memory
            match answer.value with
            | .error crash =>
                { memory := answer.memory, notices := answer.notices, jobs := 1
                  failure := some (.crash crash) }
            | .ok sent =>
                let rest := serve p batch answer.memory lines
                { rest with
                  jobs := rest.jobs + 1
                  output := sent.map Wire.encodeLine ++ rest.output
                  notices := answer.notices ++ rest.notices }

/-- Divide a text behind each of its line breaks; the breaks are left out. -/
def linesOf : List UInt8 → List (List UInt8)
  | [] => []
  | b :: bytes =>
      if b = 10 then [] :: linesOf bytes
      else
        match linesOf bytes with
        | [] => [[b]]
        | line :: lines => (b :: line) :: lines

/-- The lines of an input, where a line that is not UTF-8 is missing. -/
def decodeLines (input : List UInt8) : List (Option Text) :=
  (linesOf input).map fun line => (String.fromUTF8? ⟨line.toArray⟩).map String.toList

end Worker

end ClonePrint
