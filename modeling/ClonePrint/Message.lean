import ClonePrint.Chunk
import ClonePrint.Fingerprint
import ClonePrint.JobQueue

/-!
# Messages

The pool sends a worker one dispatch at a time. A worker answers a job with any
number of log lines, at most one remainder and exactly one result; it answers a
dispatch without a job by saying that it is idle.
-/
namespace ClonePrint

inductive LogLevel where
  | debug
  | info
  | warn
  | error
deriving Repr, DecidableEq

/-- What a worker says to the pool. -/
inductive Reply where
  | result (file : String) (found : List Fingerprint)
  | remainder (chunk : Chunk)
  | log (level : LogLevel) (line : String)
  | idle
deriving Repr, DecidableEq

def Reply.warning (line : String) : Reply := .log .warn line

/-- What the pool says to a worker. -/
inductive Dispatch where
  | job (job : Job Chunk)
  | noJob
  | close
deriving Repr, DecidableEq

end ClonePrint
