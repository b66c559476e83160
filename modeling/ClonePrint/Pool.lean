import ClonePrint.Pool.Dispatcher
import ClonePrint.Worker

/-!
# Worker pools

A pool is a dispatcher, a row of workers and the channels between them and the
outside. It runs by single moves: a worker carries out what it was told, a
worker reports, the dispatcher takes up a report or a request, or somebody
outside acts. Any order of moves that are possible is a run of the pool.
-/
namespace ClonePrint

variable {σ : Type}

inductive Report where
  | said (reply : Reply)
  | crashed (message : String)
deriving Repr, DecidableEq

/-- What all workers of a pool have in common. Every `batch` jobs the caches of the parser are
dropped. -/
structure Crew (σ : Type) where
  parser : Parser σ
  batch : Nat

/-- A worker, seen from the pool: what it was told and has not taken up yet, and what it is going
to report, in this order. -/
structure Seat where
  inbox : Option Dispatch := none
  outbox : List Report := []
  present : Bool := true
deriving Repr, DecidableEq

namespace Crew

/-- What a worker does when it is told something: what it reports, and whether
it stays. -/
def carryOut (crew : Crew σ) (what : Dispatch) (memory : σ) : Answer σ (List Report × Bool) :=
  match what with
  | .job job =>
      (Worker.runJob crew.parser crew.batch job memory).map fun
        | .ok replies => (replies.map .said, true)
        | .error crash =>
            ([.crashed ("panicked on " ++ job.payload.file ++ ": " ++ crash.reason)], false)
  | .noJob => ⟨([.said .idle], true), memory, []⟩
  | .close => ⟨([], false), memory, []⟩

end Crew

/-- What somebody outside asks of a running pool. -/
inductive Request where
  | submit (chunk : Chunk)
  | close
deriving Repr, DecidableEq

/-- Why a pool cannot go on. A pool is blocked if a worker is told something before it took up
what it was told before. -/
inductive Halt where
  | failed (cause : Error)
  | blocked (worker : Nat)
deriving Repr, DecidableEq

/-- The state of a pool. Reports and requests are on their way to the dispatcher, and it listens
until it has noticed that nobody outside is left. -/
structure Pool (σ : Type) where
  dispatcher : Dispatcher
  memory : σ
  seats : List Seat
  reports : List (Nat × Report) := []
  requests : List Request := []
  handlesOpen : Bool := true
  listening : Bool := true
  halt : Option Halt := none
  notices : List Notice := []

/-- One step of a pool or of its surroundings. A worker takes up what it was told or sends its
next report, the dispatcher takes up what is on its way, and somebody outside asks, sees that
input is wanted, or leaves. -/
inductive Move where
  | work (worker : Nat)
  | report (worker : Nat)
  | takeReport
  | takeRequest
  | noticeLeft
  | ask (request : Request)
  | seeWanted
  | leave
deriving Repr, DecidableEq

namespace Pool

/-- A pool that has not started, with at least one worker. The job numbers go on from the pools
before it. -/
def ofWorkers (workers : Nat) (memory : σ) (counter : JobCounter := {}) : Pool σ :=
  { dispatcher := { workers := max workers 1, counter }
    memory
    seats := List.replicate (max workers 1) {} }

def update (f : Dispatcher → Dispatcher) (p : Pool σ) : Pool σ :=
  { p with dispatcher := f p.dispatcher }

def add (c : Chunk) (p : Pool σ) : Pool σ := p.update (·.enqueue c)

def close (p : Pool σ) : Pool σ := p.update Dispatcher.close

def isOver (p : Pool σ) : Bool := p.dispatcher.phase = .done || p.halt.isSome

def stop (halt : Halt) (p : Pool σ) : Pool σ := { p with halt := some halt }

/-- Every worker has gone and nothing that one of them reported is left. -/
def isDeserted (p : Pool σ) : Bool :=
  p.reports.isEmpty && p.seats.all fun seat => !seat.present && seat.outbox.isEmpty

/-- Put what the workers are to be told into their inboxes. A worker that has
gone or has not emptied its inbox ends the run. -/
def deliver : List (Nat × Dispatch) → List Seat → Except Halt (List Seat)
  | [], seats => .ok seats
  | (worker, what) :: more, seats =>
      match seats[worker]? with
      | none => .error (.failed (.pool ("worker " ++ toString worker ++ " hung up")))
      | some seat =>
          if !seat.present then
            .error (.failed (.pool ("worker " ++ toString worker ++ " hung up")))
          else if seat.inbox.isSome then .error (.blocked worker)
          else deliver more (seats.set worker { seat with inbox := some what })

/-- Continue with a changed bookkeeping and carry out its orders. -/
def proceed (d : Dispatcher) (p : Pool σ) : Pool σ :=
  match deliver d.orders p.seats with
  | .error halt => p.stop halt
  | .ok seats => { p with dispatcher := { d with orders := [] }, seats }

def start (p : Pool σ) : Pool σ := p.proceed p.dispatcher.start

/-- The message of a report that the user is to see. -/
def noticesOf : Reply → List Notice
  | .log .warn line => [.warning line]
  | _ => []

def receive (worker : Nat) (report : Report) (p : Pool σ) : Pool σ :=
  match report with
  | .crashed message => p.stop (.failed (.workerCrashed worker message))
  | .said reply =>
      match p.dispatcher.onReply worker reply with
      | .error cause => p.stop (.failed cause)
      | .ok d => { p with notices := p.notices ++ noticesOf reply }.proceed d

def handle (request : Request) (p : Pool σ) : Pool σ :=
  match request with
  | .submit c => p.proceed (p.dispatcher.onSubmit c)
  | .close => p.proceed p.dispatcher.onClose

/-- Send a request from outside. Nobody listens to it once the pool is over. -/
def ask (request : Request) (p : Pool σ) : Except Error (Pool σ) :=
  if p.isOver then
    .error (.pool (match request with
      | .submit _ => "pool no longer accepts jobs"
      | .close => "pool already finished"))
  else .ok { p with requests := p.requests ++ [request] }

def move? (crew : Crew σ) (p : Pool σ) : Move → Option (Pool σ)
  | .work worker => do
      let seat ← p.seats[worker]?
      let what ← if seat.present then seat.inbox else none
      let answer := crew.carryOut what p.memory
      let seat :=
        { inbox := none, outbox := seat.outbox ++ answer.value.1, present := answer.value.2 }
      return { p with
        memory := answer.memory
        notices := p.notices ++ answer.notices
        seats := p.seats.set worker seat }
  | .report worker => do
      let seat ← p.seats[worker]?
      match seat.outbox with
      | [] => none
      | report :: outbox =>
          return { p with
            seats := p.seats.set worker { seat with outbox }
            reports := p.reports ++ [(worker, report)] }
  | .takeReport =>
      if p.isOver then none
      else
        match p.reports with
        | (worker, report) :: reports => some ({ p with reports }.receive worker report)
        | [] =>
            if p.isDeserted then
              some (p.stop (.failed (.pool "workers disconnected before the pool finished")))
            else none
  | .takeRequest =>
      if p.isOver then none
      else
        match p.requests with
        | [] => none
        | request :: requests => some ({ p with requests }.handle request)
  | .noticeLeft =>
      if p.isOver || p.handlesOpen || !p.listening || !p.requests.isEmpty then none
      else some ({ p with listening := false }.proceed p.dispatcher.onClose)
  | .ask request => if p.handlesOpen then (p.ask request).toOption else none
  | .seeWanted =>
      if p.handlesOpen && p.dispatcher.inputWanted then
        some (p.update ({ · with inputWanted := false }))
      else none
  | .leave => if p.handlesOpen then some { p with handlesOpen := false } else none

def replay? (crew : Crew σ) (p : Pool σ) : List Move → Option (Pool σ)
  | [] => some p
  | m :: moves => (p.move? crew m).bind (replay? crew · moves)

/-- What the run came to, once it is over. -/
def outcome? (p : Pool σ) : Option (Except Error (List Fingerprint)) :=
  match p.halt with
  | some (.failed cause) => some (.error cause)
  | some (.blocked _) => none
  | none => if p.dispatcher.phase = .done then some (.ok p.dispatcher.found) else none

end Pool

end ClonePrint
