import ClonePrint.Chunk.Remainders
import ClonePrint.Message

/-!
# The dispatcher of a worker pool

The dispatcher owns the queue, the files in flight and the buffer of remainders.
It reacts to one reply or request at a time and writes down what the workers
are to be told. When nothing is queued or in flight it settles the leftovers,
and once these are gone too and no more input is accepted, it sends the idle
workers home.
-/
namespace ClonePrint

/-- How far a pool has come. While it drains no more chunks are accepted and the accepted ones are
parsed; when it is done every worker was sent home. -/
inductive Phase where
  | running
  | draining
  | done
deriving Repr, DecidableEq

def Phase.acceptsInput : Phase → Bool
  | running => true
  | _ => false

/-- The bookkeeping of a pool. A job is in flight from the order that hands it out to its result.
The idle workers are listed with the last one first, the orders as they are to be carried out. -/
structure Dispatcher where
  workers : Nat
  queue : JobQueue Chunk := {}
  counter : JobCounter := {}
  inFlight : List String := []
  remainders : Remainders := {}
  found : List Fingerprint := []
  phase : Phase := .running
  idle : List Nat := []
  closed : Nat := 0
  inputWanted : Bool := false
  orders : List (Nat × Dispatch) := []
deriving Repr, DecidableEq

namespace Dispatcher

def enqueue (c : Chunk) (d : Dispatcher) : Dispatcher :=
  let (queue, counter) := d.queue.enqueue c d.counter
  { d with queue, counter }

def enqueueAll (cs : List Chunk) (d : Dispatcher) : Dispatcher :=
  cs.foldl (fun d c => d.enqueue c) d

def tell (worker : Nat) (what : Dispatch) (d : Dispatcher) : Dispatcher :=
  { d with orders := d.orders ++ [(worker, what)] }

/-- Give a worker the oldest job, or tell it that there is none. -/
def dispatchNext (worker : Nat) (d : Dispatcher) : Dispatcher :=
  match d.queue.dequeue? with
  | none => d.tell worker .noJob
  | some (job, queue) =>
      { d with queue, inFlight := job.payload.file :: d.inFlight }.tell worker (.job job)

/-- Hand jobs to the given workers while there are any. The workers that are
left over stay idle. -/
def wake : List Nat → Dispatcher → Dispatcher
  | [], d => { d with idle := [] }
  | worker :: more, d =>
      if d.queue.isEmpty then { d with idle := worker :: more }
      else wake more (d.dispatchNext worker)

def wakeIdle (d : Dispatcher) : Dispatcher := wake d.idle d

/-- Send all idle workers home. The last one ends the run. -/
def closeIdle (d : Dispatcher) : Dispatcher :=
  let told := d.idle.foldr (fun worker d => d.tell worker .close) d
  let closed := d.closed + d.idle.length
  { told with
    idle := []
    closed
    phase := if closed = d.workers then .done else d.phase }

/-- Nothing is queued and no result is awaited. -/
def isQuiet (d : Dispatcher) : Bool := d.queue.isEmpty && d.inFlight.isEmpty

/-- Once all is quiet, parse the leftovers; without leftovers, finish if no more
input is accepted. -/
def settle (d : Dispatcher) : Dispatcher :=
  if !d.isQuiet then d
  else if !d.remainders.isEmpty then
    ({ d with remainders := {} }.enqueueAll d.remainders.leftovers).wakeIdle
  else if d.phase = .draining then d.closeIdle
  else d

def close (d : Dispatcher) : Dispatcher :=
  { d with phase := if d.phase = .running then .draining else d.phase }

/-- Give every worker its first job, or none. -/
def start (d : Dispatcher) : Dispatcher :=
  (List.range d.workers).foldl (fun d worker => d.dispatchNext worker) d

/-- A worker could not decide a part of a file. -/
def onRemainder (c : Chunk) (d : Dispatcher) : Except Error Dispatcher :=
  (d.remainders.insert c).map fun (joined, remainders) =>
    ({ d with remainders }.enqueueAll joined).wakeIdle

def onResult (worker : Nat) (file : String) (found : List Fingerprint) (d : Dispatcher) :
    Dispatcher :=
  { d with found := d.found ++ found, inFlight := d.inFlight.erase file }.dispatchNext worker

def onIdle (worker : Nat) (d : Dispatcher) : Dispatcher :=
  let asks := d.queue.isEmpty && d.phase.acceptsInput
  { d with idle := worker :: d.idle, inputWanted := d.inputWanted || asks }.wakeIdle.settle

/-- A worker said something. Log lines do not change the bookkeeping. -/
def onReply (worker : Nat) (reply : Reply) (d : Dispatcher) : Except Error Dispatcher :=
  match reply with
  | .log .. => .ok d
  | .remainder c => d.onRemainder c
  | .result file found => .ok (d.onResult worker file found)
  | .idle => .ok (d.onIdle worker)

/-- A chunk arrives from outside. It is dropped when no more input is accepted. -/
def onSubmit (c : Chunk) (d : Dispatcher) : Dispatcher :=
  if d.phase.acceptsInput then (d.enqueue c).wakeIdle else d

def onClose (d : Dispatcher) : Dispatcher := d.close.settle

end Dispatcher

end ClonePrint
