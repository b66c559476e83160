/-!
# Queued jobs

Jobs leave a queue in the order in which they entered it. Every job carries a
number from a counter that all queues share, so no number is given out twice.
-/
namespace ClonePrint

structure Job (α : Type) where
  payload : α
  id : Nat
deriving Repr, DecidableEq

/-- The source of job numbers, of which a pool takes up where the pools before it left off. -/
structure JobCounter where
  next : Nat := 0
deriving Repr, DecidableEq

def JobCounter.take (counter : JobCounter) : Nat × JobCounter :=
  (counter.next, ⟨counter.next + 1⟩)

structure JobQueue (α : Type) where
  jobs : List (Job α) := []
deriving Repr, DecidableEq

namespace JobQueue

variable {α : Type}

def enqueue (payload : α) (counter : JobCounter) (q : JobQueue α) :
    JobQueue α × JobCounter :=
  (⟨q.jobs ++ [⟨payload, counter.take.1⟩]⟩, counter.take.2)

def enqueueAll (payloads : List α) (counter : JobCounter) (q : JobQueue α) :
    JobQueue α × JobCounter :=
  payloads.foldl (fun (q, counter) payload => q.enqueue payload counter) (q, counter)

def dequeue? (q : JobQueue α) : Option (Job α × JobQueue α) :=
  match q.jobs with
  | [] => none
  | job :: more => some (job, ⟨more⟩)

def size (q : JobQueue α) : Nat := q.jobs.length

def isEmpty (q : JobQueue α) : Bool := q.jobs.isEmpty

end JobQueue

end ClonePrint
