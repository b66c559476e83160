import ClonePrint.Pool.Schedule
import ClonePrint.Proofs.Dispatching

/-!
# The journal of a run

A pool forgets what it has done. A journal keeps it: which chunks entered the
queue and why, which jobs went to which worker, what the workers replied. It is
written beside the moves of a run and never read by them. Every property of
whole runs is proved by one induction, over what a single move can do to the
pool and to its journal.
-/
namespace ClonePrint

variable {σ : Type}

def Reply.found : Reply → List Fingerprint
  | result _ found => found
  | _ => []

def Reply.remainder? : Reply → Option Chunk
  | remainder c => some c
  | _ => none

def Reply.line? : Reply → Option String
  | log .warn line => some line
  | _ => none

/-- Why a chunk entered the queue of a running pool: it arrived from outside, adjacent remainders
were joined, or it was left over in the buffer of a quiet pool. -/
inductive Origin where
  | submitted
  | joined
  | leftover
deriving Repr, DecidableEq

/-- What has happened in a run, each kind of event in its order: the chunks that entered the
queue, the jobs that went out and that a worker took up, what the workers replied, the jobs that
one of them did not survive, and what was asked for and heard. -/
structure Journal where
  entered : List (Origin × Chunk) := []
  handed : List (Nat × Job Chunk) := []
  taken : List (Nat × Job Chunk) := []
  replies : List Reply := []
  lost : List (Job Chunk) := []
  asked : List Request := []
  heard : List Request := []

namespace Journal

def append (a b : Journal) : Journal where
  entered := a.entered ++ b.entered
  handed := a.handed ++ b.handed
  taken := a.taken ++ b.taken
  replies := a.replies ++ b.replies
  lost := a.lost ++ b.lost
  asked := a.asked ++ b.asked
  heard := a.heard ++ b.heard

instance : Append Journal := ⟨append⟩

section
variable (a b c : Journal)

@[simp] theorem append_entered : (a ++ b).entered = a.entered ++ b.entered := rfl
@[simp] theorem append_handed : (a ++ b).handed = a.handed ++ b.handed := rfl
@[simp] theorem append_taken : (a ++ b).taken = a.taken ++ b.taken := rfl
@[simp] theorem append_replies : (a ++ b).replies = a.replies ++ b.replies := rfl
@[simp] theorem append_lost : (a ++ b).lost = a.lost ++ b.lost := rfl
@[simp] theorem append_asked : (a ++ b).asked = a.asked ++ b.asked := rfl
@[simp] theorem append_heard : (a ++ b).heard = a.heard ++ b.heard := rfl

theorem append_empty : a ++ {} = a := by
  change append a {} = a
  simp only [append, List.append_nil]

theorem append_assoc : a ++ b ++ c = a ++ (b ++ c) := by
  change append (append a b) c = append a (append b c)
  simp only [append, List.append_assoc]

end

def chunksFrom (origin : Origin) (j : Journal) : List Chunk :=
  (j.entered.filter (·.1 = origin)).map Prod.snd

theorem chunksFrom_append (origin : Origin) (a b : Journal) :
    (a ++ b).chunksFrom origin = a.chunksFrom origin ++ b.chunksFrom origin := by
  simp [chunksFrom]

def ofWork (crew : Crew σ) (worker : Nat) (memory : σ) : Dispatch → Journal
  | .job job =>
      match (Worker.runJob crew.parser crew.batch job memory).value with
      | .ok replies => { taken := [(worker, job)], replies }
      | .error _ => { taken := [(worker, job)], lost := [job] }
  | _ => {}

theorem ofWork_eq (crew : Crew σ) (worker : Nat) (memory : σ) (what : Dispatch) :
    ∃ replies lost, ofWork crew worker memory what =
      { taken := ((what.job?).map (worker, ·)).toList, replies, lost } := by
  cases what with
  | job job =>
      rw [ofWork]
      split
      · exact ⟨_, _, rfl⟩
      · exact ⟨_, _, rfl⟩
  | noJob | close => exact ⟨[], [], rfl⟩

section
variable (crew : Crew σ) (worker : Nat) (memory : σ) (what : Dispatch)

@[simp] theorem ofWork_entered : (ofWork crew worker memory what).entered = [] := by
  obtain ⟨replies, lost, h⟩ := ofWork_eq crew worker memory what
  rw [h]

@[simp] theorem ofWork_handed : (ofWork crew worker memory what).handed = [] := by
  obtain ⟨replies, lost, h⟩ := ofWork_eq crew worker memory what
  rw [h]

@[simp] theorem ofWork_taken :
    (ofWork crew worker memory what).taken = ((what.job?).map (worker, ·)).toList := by
  obtain ⟨replies, lost, h⟩ := ofWork_eq crew worker memory what
  rw [h]

@[simp] theorem ofWork_asked : (ofWork crew worker memory what).asked = [] := by
  obtain ⟨replies, lost, h⟩ := ofWork_eq crew worker memory what
  rw [h]

@[simp] theorem ofWork_heard : (ofWork crew worker memory what).heard = [] := by
  obtain ⟨replies, lost, h⟩ := ofWork_eq crew worker memory what
  rw [h]

end

end Journal

/-- The chunks that a reply brings into the queue. -/
def Dispatcher.enteredOn (d : Dispatcher) : Reply → List (Origin × Chunk)
  | .remainder c =>
      match d.remainders.insert c with
      | .ok (joined, _) => joined.map (.joined, ·)
      | .error _ => []
  | .idle => d.flushed.map (.leftover, ·)
  | _ => []

def Dispatcher.enteredOnRequest (d : Dispatcher) : Request → List (Origin × Chunk)
  | .submit c => if d.phase.acceptsInput then [(.submitted, c)] else []
  | .close => d.flushed.map (.leftover, ·)

def Dispatcher.onRequest (d : Dispatcher) : Request → Dispatcher
  | .submit c => d.onSubmit c
  | .close => d.onClose

namespace Dispatcher

/-- The bookkeeping with a result written down, before anything else happens. -/
def noting (d : Dispatcher) : Reply → Dispatcher
  | .result file found => { d with found := d.found ++ found, inFlight := d.inFlight.erase file }
  | _ => d

theorem noting_found (d : Dispatcher) (reply : Reply) :
    (d.noting reply).found = d.found ++ reply.found := by
  cases reply <;> simp [noting, Reply.found]

theorem onReply_serves {worker : Nat} {reply : Reply} {d d' : Dispatcher}
    (h : d.onReply worker reply = .ok d') :
    Serves ((d.enteredOn reply).map Prod.snd) (d.noting reply) d' ∧
      d'.found = d.found ++ reply.found := by
  cases reply with
  | result file found =>
      simp only [onReply, Except.ok.injEq] at h
      subst h
      have hs := onResult_handsOut worker file found d
      exact ⟨hs.serves, hs.found⟩
  | remainder c =>
      obtain ⟨joined, remainders, hinsert, hserves, -, hfound, -⟩ := onRemainder_serves h
      simp only [enteredOn, hinsert, List.map_map, Function.comp_def, List.map_id',
        noting, Reply.found, List.append_nil]
      exact ⟨hserves, hfound⟩
  | log level line =>
      simp only [onReply, Except.ok.injEq] at h
      subst h
      exact ⟨(HandsOut.refl d).serves, (List.append_nil _).symm⟩
  | idle =>
      simp only [onReply, Except.ok.injEq] at h
      subst h
      have hs := onIdle_settles worker d
      simp only [enteredOn, List.map_map, Function.comp_def, List.map_id', noting, Reply.found,
        List.append_nil]
      exact ⟨hs.serves, hs.found⟩

theorem onReply_phase {worker : Nat} {reply : Reply} {d d' : Dispatcher}
    (h : d.onReply worker reply = .ok d') :
    d'.phase = d.phase ∨ (d.phase = .draining ∧ d'.phase = .done ∧ d'.Finished) := by
  cases reply with
  | result file found =>
      simp only [onReply, Except.ok.injEq] at h
      subst h
      exact .inl (onResult_handsOut worker file found d).phase
  | remainder c =>
      obtain ⟨-, -, -, -, -, -, hphase⟩ := onRemainder_serves h
      exact .inl hphase
  | log level line =>
      simp only [onReply, Except.ok.injEq] at h
      subst h
      exact .inl rfl
  | idle =>
      simp only [onReply, Except.ok.injEq] at h
      subst h
      exact (onIdle_settles worker d).phase

theorem onClose_serves (d : Dispatcher) :
    Serves d.flushed d d.onClose ∧ d.onClose.found = d.found :=
  ⟨⟨(onClose_settles d).serves.stream, (onClose_settles d).serves.inFlight,
    (onClose_settles d).serves.counter⟩, (onClose_settles d).found⟩

theorem onClose_phase_ne_running (d : Dispatcher) : d.onClose.phase ≠ .running := by
  rcases (onClose_settles d).phase with hs | ⟨-, hs, -⟩
  · rw [hs]
    exact d.close_phase
  · simp [hs]

/-- A dispatcher is done only when nothing is left. -/
theorem onClose_phase (d : Dispatcher) (h : d.onClose.phase = .done) :
    d.phase = .done ∨ d.onClose.Finished := by
  rcases (onClose_settles d).phase with hs | ⟨-, -, hfinished⟩
  · rw [h] at hs
    cases hphase : d.phase with
    | done => exact .inl rfl
    | running | draining => simp [close, hphase] at hs
  · exact .inr hfinished

theorem onRequest_phase (request : Request) (d : Dispatcher)
    (h : (d.onRequest request).phase = .done) :
    d.phase = .done ∨ (d.onRequest request).Finished := by
  cases request with
  | submit c => exact .inl ((onSubmit_serves c d).2.2.2.symm.trans h)
  | close => exact d.onClose_phase h

theorem onRequest_serves (request : Request) (d : Dispatcher) :
    Serves ((d.enteredOnRequest request).map Prod.snd) d (d.onRequest request) ∧
      (d.onRequest request).found = d.found := by
  cases request with
  | submit c =>
      obtain ⟨hserves, -, hfound, -⟩ := onSubmit_serves c d
      refine ⟨?_, hfound⟩
      rw [enteredOnRequest]
      cases hd : d.phase.acceptsInput <;> simpa [hd, onRequest] using hserves
  | close =>
      simp only [enteredOnRequest, List.map_map, Function.comp_def, List.map_id']
      exact onClose_serves d

end Dispatcher

namespace Journal

def ofReply (worker : Nat) (reply : Reply) (d : Dispatcher) : Journal :=
  match d.onReply worker reply with
  | .ok after => { entered := d.enteredOn reply, handed := jobsTold after.orders }
  | .error _ => {}

def ofRequest (request : Request) (d : Dispatcher) : Journal :=
  { entered := d.enteredOnRequest request
    handed := jobsTold (d.onRequest request).orders
    heard := [request] }

def ofLeaving (d : Dispatcher) : Journal :=
  { entered := d.flushed.map (.leftover, ·), handed := jobsTold d.onClose.orders }

end Journal

namespace Pool

/-- What the journal says about one move. -/
def observe (crew : Crew σ) (p : Pool σ) : Move → Journal
  | .work worker =>
      match p.seats[worker]? with
      | some ⟨some what, _, _⟩ => .ofWork crew worker p.memory what
      | _ => {}
  | .takeReport =>
      match p.reports with
      | (worker, .said reply) :: _ => .ofReply worker reply p.dispatcher
      | _ => {}
  | .takeRequest =>
      match p.requests with
      | request :: _ => .ofRequest request p.dispatcher
      | [] => {}
  | .noticeLeft => .ofLeaving p.dispatcher
  | .ask request => { asked := [request] }
  | _ => {}

def record (crew : Crew σ) (p : Pool σ) : List Move → Journal
  | [] => {}
  | m :: moves =>
      p.observe crew m ++ ((p.move? crew m).map (record crew · moves)).getD {}

/-- The journal of a run from the start of the pool. -/
def journal (crew : Crew σ) (p : Pool σ) (moves : List Move) : Journal :=
  { handed := jobsTold p.dispatcher.start.orders } ++ p.start.record crew moves

def asks (moves : List Move) : List Request :=
  moves.filterMap fun
    | .ask request => some request
    | _ => none

theorem observe_asked (crew : Crew σ) (p : Pool σ) (m : Move) :
    (p.observe crew m).asked = asks [m] := by
  cases m with
  | work worker =>
      simp only [observe]
      split
      · exact Journal.ofWork_asked ..
      · rfl
  | takeReport =>
      simp only [observe]
      split
      · rw [Journal.ofReply]
        split <;> rfl
      · rfl
  | takeRequest =>
      simp only [observe]
      split <;> rfl
  | report | noticeLeft | ask | seeWanted | leave => rfl

theorem journal_asked {crew : Crew σ} {p q : Pool σ} {moves : List Move}
    (h : p.start.replay? crew moves = some q) : (p.journal crew moves).asked = asks moves := by
  have hrecord : ∀ (moves : List Move) (p : Pool σ), p.replay? crew moves = some q →
      (p.record crew moves).asked = asks moves := by
    intro moves
    induction moves with
    | nil => intros; rfl
    | cons m moves ih =>
        intro p hp
        simp only [replay?, Option.bind_eq_some_iff] at hp
        obtain ⟨r, hm, hr⟩ := hp
        have hsplit : asks (m :: moves) = asks [m] ++ asks moves := by
          rw [asks, asks, asks, ← List.filterMap_append, List.singleton_append]
        rw [record, hm, Journal.append_asked, observe_asked, hsplit]
        exact congrArg (_ ++ ·) (ih r hr)
  rw [journal, Journal.append_asked, hrecord moves p.start h]
  rfl

/-- What holds at the start of a pool and survives every move holds after every
run. -/
theorem replay_induction {crew : Crew σ} {p q : Pool σ} {moves : List Move}
    (holds : Journal → Pool σ → Prop)
    (start : holds { handed := jobsTold p.dispatcher.start.orders } p.start)
    (step : ∀ j p m q, holds j p → p.move? crew m = some q → holds (j ++ p.observe crew m) q)
    (h : p.start.replay? crew moves = some q) : holds (p.journal crew moves) q := by
  have run : ∀ (moves : List Move) (j : Journal) (p : Pool σ), holds j p →
      p.replay? crew moves = some q → holds (j ++ p.record crew moves) q := by
    intro moves
    induction moves with
    | nil =>
        intro j p hj hp
        simp only [replay?, Option.some.injEq] at hp
        rw [record, Journal.append_empty, ← hp]
        exact hj
    | cons m moves ih =>
        intro j p hj hp
        simp only [replay?, Option.bind_eq_some_iff] at hp
        obtain ⟨r, hm, hr⟩ := hp
        have hnext := ih _ r (step j p m r hj hm) hr
        rw [Journal.append_assoc] at hnext
        rw [record, hm]
        exact hnext
  exact run moves _ p.start start h

def afterWork (crew : Crew σ) (worker : Nat) (seat : Seat) (what : Dispatch) (p : Pool σ) :
    Pool σ :=
  { p with
    memory := (crew.carryOut what p.memory).memory
    notices := p.notices ++ (crew.carryOut what p.memory).notices
    seats := p.seats.set worker
      { inbox := none
        outbox := seat.outbox ++ (crew.carryOut what p.memory).value.1
        present := (crew.carryOut what p.memory).value.2 } }

@[simp] theorem afterWork_dispatcher (crew : Crew σ) (worker : Nat) (seat : Seat)
    (what : Dispatch) (p : Pool σ) : (p.afterWork crew worker seat what).dispatcher =
      p.dispatcher := rfl

def afterReport (worker : Nat) (seat : Seat) (r : Report) (more : List Report) (p : Pool σ) :
    Pool σ :=
  { p with
    seats := p.seats.set worker { seat with outbox := more }
    reports := p.reports ++ [(worker, r)] }

/-- A worker was told something and carries it out. -/
theorem exists_afterWork {crew : Crew σ} {p q : Pool σ} {worker : Nat}
    (h : p.move? crew (.work worker) = some q) :
    ∃ outbox what, p.seats[worker]? = some ⟨some what, outbox, true⟩ ∧
      q = p.afterWork crew worker ⟨some what, outbox, true⟩ what := by
  simp only [move?, Option.bind_eq_bind, Option.bind_eq_some_iff] at h
  obtain ⟨⟨inbox, outbox, present⟩, seated, h⟩ := h
  cases present with
  | false => simp at h
  | true =>
      cases inbox with
      | none => simp at h
      | some what =>
          simp only [↓reduceIte, Option.bind_some, pure, Option.some.injEq] at h
          exact ⟨outbox, what, seated, h.symm⟩

/-- A worker has something to report and sends it. -/
theorem exists_afterReport {crew : Crew σ} {p q : Pool σ} {worker : Nat}
    (h : p.move? crew (.report worker) = some q) :
    ∃ seat report more, p.seats[worker]? = some seat ∧ seat.outbox = report :: more ∧
      q = p.afterReport worker seat report more := by
  simp only [move?, Option.bind_eq_bind, Option.bind_eq_some_iff] at h
  obtain ⟨seat, seated, h⟩ := h
  split at h
  · cases h
  · rename_i report more speaks
    simp only [pure, Option.some.injEq] at h
    exact ⟨seat, report, more, seated, speaks, h.symm⟩

/-- What a move can do to a pool that goes on afterwards, and what the journal
says about it. -/
inductive Passes (crew : Crew σ) (p : Pool σ) : Journal → Pool σ → Prop
  | work {worker : Nat} {seat : Seat} {what : Dispatch}
      (seated : p.seats[worker]? = some seat) (told : seat.inbox = some what) :
      Passes crew p (.ofWork crew worker p.memory what) (p.afterWork crew worker seat what)
  | report {worker : Nat} {seat : Seat} {r : Report} {more : List Report}
      (seated : p.seats[worker]? = some seat) (speaks : seat.outbox = r :: more) :
      Passes crew p {} (p.afterReport worker seat r more)
  | reply {worker : Nat} {reply : Reply} {reports : List (Nat × Report)} {d : Dispatcher}
      {seats : List Seat} (going : p.isOver = false)
      (arrived : p.reports = (worker, .said reply) :: reports)
      (reacts : p.dispatcher.onReply worker reply = .ok d)
      (delivers : deliver d.orders p.seats = .ok seats) :
      Passes crew p (.ofReply worker reply p.dispatcher)
        { p with
          reports
          notices := p.notices ++ noticesOf reply
          dispatcher := { d with orders := [] }
          seats }
  | request {request : Request} {requests : List Request} {seats : List Seat}
      (going : p.isOver = false) (arrived : p.requests = request :: requests)
      (delivers : deliver (p.dispatcher.onRequest request).orders p.seats = .ok seats) :
      Passes crew p (.ofRequest request p.dispatcher)
        { p with
          requests
          dispatcher := { p.dispatcher.onRequest request with orders := [] }
          seats }
  | noticeLeft {seats : List Seat} (going : p.isOver = false) (left : p.handlesOpen = false)
      (silent : p.requests = []) (delivers : deliver p.dispatcher.onClose.orders p.seats = .ok seats) :
      Passes crew p (.ofLeaving p.dispatcher)
        { p with
          listening := false
          dispatcher := { p.dispatcher.onClose with orders := [] }
          seats }
  | ask (request : Request) (here : p.handlesOpen = true) :
      Passes crew p { asked := [request] } { p with requests := p.requests ++ [request] }
  | seeWanted : Passes crew p {} (p.update ({ · with inputWanted := false }))
  | leave : Passes crew p {} { p with handlesOpen := false }

/-- Carrying out orders goes on only if all of them can be delivered. -/
theorem proceed_goes_on {d : Dispatcher} {p : Pool σ} (h : (p.proceed d).halt = none) :
    ∃ seats, deliver d.orders p.seats = .ok seats ∧ p.halt = none ∧
      p.proceed d = { p with dispatcher := { d with orders := [] }, seats } := by
  cases hd : deliver d.orders p.seats with
  | error halt => simp [proceed, hd, stop] at h
  | ok seats =>
      simp only [proceed, hd] at h
      exact ⟨seats, rfl, h, by simp only [proceed, hd]⟩

section
variable {crew : Crew σ} {p q : Pool σ}

/-- A report after which the pool goes on is a reply, and the orders that follow from it are
delivered. -/
theorem exists_of_takeReport (h : p.move? crew .takeReport = some q) (hq : q.halt = none) :
    ∃ worker reply reports d seats, p.isOver = false ∧ p.halt = none ∧
      p.reports = (worker, .said reply) :: reports ∧
      p.dispatcher.onReply worker reply = .ok d ∧ deliver d.orders p.seats = .ok seats ∧
      q = { p with
        reports
        notices := p.notices ++ noticesOf reply
        dispatcher := { d with orders := [] }
        seats } := by
  simp only [move?] at h
  split at h
  · cases h
  · rename_i going
    have going : p.isOver = false := by simpa using going
    split at h
    · rename_i worker report reports arrived
      simp only [Option.some.injEq] at h
      subst h
      cases report with
      | crashed message => simp [receive, stop] at hq
      | said reply =>
          cases hreact : p.dispatcher.onReply worker reply with
          | error cause => simp [receive, hreact, stop] at hq
          | ok d =>
              simp only [receive, hreact] at hq ⊢
              obtain ⟨seats, delivers, hhalt, heq⟩ := proceed_goes_on hq
              exact ⟨worker, reply, reports, d, seats, going, hhalt, arrived, hreact, delivers, heq⟩
    · split at h
      · simp only [Option.some.injEq] at h
        subst h
        simp [stop] at hq
      · cases h

/-- A request is taken up, and the orders that follow from it are delivered. -/
theorem exists_of_takeRequest (h : p.move? crew .takeRequest = some q) (hq : q.halt = none) :
    ∃ request requests seats, p.isOver = false ∧ p.halt = none ∧
      p.requests = request :: requests ∧
      deliver (p.dispatcher.onRequest request).orders p.seats = .ok seats ∧
      q = { p with
        requests
        dispatcher := { p.dispatcher.onRequest request with orders := [] }
        seats } := by
  simp only [move?] at h
  split at h
  · cases h
  · rename_i going
    have going : p.isOver = false := by simpa using going
    split at h
    · cases h
    · rename_i request requests arrived
      have hhandle : ({ p with requests }.handle request) =
          { p with requests }.proceed (p.dispatcher.onRequest request) := by
        cases request <;> rfl
      simp only [Option.some.injEq, hhandle] at h
      subst h
      obtain ⟨seats, delivers, hhalt, heq⟩ := proceed_goes_on hq
      exact ⟨request, requests, seats, going, hhalt, arrived, delivers, heq⟩

/-- The dispatcher finds that nobody outside is left and closes the input. -/
theorem exists_of_noticeLeft (h : p.move? crew .noticeLeft = some q) (hq : q.halt = none) :
    ∃ seats, p.isOver = false ∧ p.halt = none ∧ p.handlesOpen = false ∧ p.requests = [] ∧
      deliver p.dispatcher.onClose.orders p.seats = .ok seats ∧
      q = { p with
        listening := false
        dispatcher := { p.dispatcher.onClose with orders := [] }
        seats } := by
  simp only [move?] at h
  split at h
  · cases h
  · rename_i hcond
    simp only [Bool.or_eq_true, Bool.not_eq_true', not_or, Bool.not_eq_true,
      Bool.not_eq_false, List.isEmpty_iff] at hcond
    obtain ⟨⟨⟨going, left⟩, -⟩, silent⟩ := hcond
    simp only [Option.some.injEq] at h
    subst h
    obtain ⟨seats, delivers, hhalt, heq⟩ := proceed_goes_on hq
    exact ⟨seats, going, hhalt, left, silent, delivers, heq⟩

theorem eq_of_ask {request : Request} (h : p.move? crew (.ask request) = some q) :
    p.handlesOpen = true ∧ q = { p with requests := p.requests ++ [request] } := by
  simp only [move?, Pool.ask] at h
  split at h
  · rename_i here
    split at h
    · cases h
    · exact ⟨here, (Option.some.inj h).symm⟩
  · cases h

theorem eq_of_seeWanted (h : p.move? crew .seeWanted = some q) :
    q = p.update ({ · with inputWanted := false }) := by
  simp only [move?] at h
  split at h
  · exact (Option.some.inj h).symm
  · cases h

theorem eq_of_leave (h : p.move? crew .leave = some q) : q = { p with handlesOpen := false } := by
  simp only [move?] at h
  split at h
  · exact (Option.some.inj h).symm
  · cases h

theorem passes_of_takeReport (h : p.move? crew .takeReport = some q) (hq : q.halt = none) :
    p.halt = none ∧ Passes crew p (p.observe crew .takeReport) q := by
  obtain ⟨worker, reply, reports, d, seats, going, hhalt, arrived, reacts, delivers, rfl⟩ :=
    exists_of_takeReport h hq
  rw [observe, arrived]
  exact ⟨hhalt, .reply going arrived reacts delivers⟩

theorem passes_of_takeRequest (h : p.move? crew .takeRequest = some q) (hq : q.halt = none) :
    p.halt = none ∧ Passes crew p (p.observe crew .takeRequest) q := by
  obtain ⟨request, requests, seats, going, hhalt, arrived, delivers, rfl⟩ :=
    exists_of_takeRequest h hq
  rw [observe, arrived]
  exact ⟨hhalt, .request going arrived delivers⟩

theorem passes_of_noticeLeft (h : p.move? crew .noticeLeft = some q) (hq : q.halt = none) :
    p.halt = none ∧ Passes crew p (p.observe crew .noticeLeft) q := by
  obtain ⟨seats, going, hhalt, left, silent, delivers, rfl⟩ := exists_of_noticeLeft h hq
  exact ⟨hhalt, .noticeLeft going left silent delivers⟩

end

/-- A pool that goes on after a move did so before it, and the move is one of the
above. -/
theorem passes_of_move {crew : Crew σ} {p q : Pool σ} {m : Move}
    (h : p.move? crew m = some q) (hq : q.halt = none) :
    p.halt = none ∧ Passes crew p (p.observe crew m) q := by
  cases m with
  | work worker =>
      obtain ⟨outbox, what, seated, rfl⟩ := exists_afterWork h
      have hobserve : p.observe crew (.work worker) = .ofWork crew worker p.memory what := by
        simp only [observe, seated]
      rw [hobserve]
      exact ⟨hq, .work seated rfl⟩
  | report worker =>
      obtain ⟨seat, r, more, seated, speaks, rfl⟩ := exists_afterReport h
      exact ⟨hq, .report seated speaks⟩
  | takeReport => exact passes_of_takeReport h hq
  | takeRequest => exact passes_of_takeRequest h hq
  | noticeLeft => exact passes_of_noticeLeft h hq
  | ask request =>
      obtain ⟨here, rfl⟩ := eq_of_ask h
      exact ⟨hq, .ask request here⟩
  | seeWanted =>
      obtain rfl := eq_of_seeWanted h
      exact ⟨hq, .seeWanted⟩
  | leave =>
      obtain rfl := eq_of_leave h
      exact ⟨hq, .leave⟩

/-- What holds of a pool that has started and survives everything that can pass
holds after every run that goes on. -/
theorem run_induction {crew : Crew σ} {p q : Pool σ} {moves : List Move}
    (holds : Journal → Pool σ → Prop)
    (start : p.start.halt = none →
      holds { handed := jobsTold p.dispatcher.start.orders } p.start)
    (step : ∀ j k p q, holds j p → Passes crew p k q → holds (j ++ k) q)
    (h : p.start.replay? crew moves = some q) (hq : q.halt = none) :
    holds (p.journal crew moves) q := by
  have hall := replay_induction (fun j p => p.halt = none → holds j p) start ?_ h
  · exact hall hq
  · intro j p m q hp hm hhalt
    obtain ⟨hbefore, hpasses⟩ := passes_of_move hm hhalt
    exact step j _ p q (hp hbefore) hpasses

/-- A run that ends well was never stopped and has sent every worker home. -/
theorem outcome_eq_ok_iff {p : Pool σ} {found : List Fingerprint} :
    p.outcome? = some (.ok found) ↔
      p.halt = none ∧ p.dispatcher.phase = .done ∧ p.dispatcher.found = found := by
  unfold outcome?
  split <;> simp [*]

theorem exists_outcome_eq_ok {end? : Option (Pool σ)} {found : List Fingerprint}
    (h : end?.map (fun q => (q.halt, q.dispatcher.phase, q.dispatcher.found)) =
      some (none, .done, found)) : ∃ q, end? = some q ∧ q.outcome? = some (.ok found) := by
  obtain ⟨q, hq, hend⟩ := Option.map_eq_some_iff.1 h
  simp only [Prod.mk.injEq] at hend
  exact ⟨q, hq, outcome_eq_ok_iff.2 hend⟩

theorem replay?_append (crew : Crew σ) (p : Pool σ) (moves more : List Move) :
    p.replay? crew (moves ++ more) = (p.replay? crew moves).bind (replay? crew · more) := by
  induction moves generalizing p with
  | nil => rfl
  | cons m moves ih =>
      simp only [List.cons_append, replay?, Option.bind_assoc]
      exact congrArg _ (funext ih)

theorem replay?_concat {crew : Crew σ} {p q next : Pool σ} {moves : List Move} {m : Move}
    (h : p.replay? crew moves = some q) (hm : q.move? crew m = some next) :
    p.replay? crew (moves ++ [m]) = some next := by
  rw [replay?_append, h, Option.bind_some, replay?, hm, Option.bind_some, replay?]

/-- The pool after a remainder was taken up, with what is left in the channel, what the
remainder completes and what stays in the buffer. -/
def afterRemainder (reports : List (Nat × Report)) (joined : List Chunk) (rest : Remainders)
    (p : Pool σ) : Pool σ :=
  { p with reports }.proceed ({ p.dispatcher with remainders := rest }.enqueueAll joined).wakeIdle

section

variable {crew : Crew σ} {p q : Pool σ} {front : List Move} {worker : Nat} {c : Chunk}
variable {reports : List (Nat × Report)} {joined : List Chunk} {rest : Remainders}

theorem move?_of_insert (hgoing : p.isOver = false)
    (hreports : p.reports = (worker, .said (.remainder c)) :: reports)
    (hinsert : p.dispatcher.remainders.insert c = .ok (joined, rest)) :
    p.move? crew .takeReport = some (p.afterRemainder reports joined rest) := by
  simp [move?, hgoing, hreports, receive, Dispatcher.onReply, Dispatcher.onRemainder, hinsert,
    noticesOf, Except.map, afterRemainder]

theorem replay?_of_insert (hfront : p.replay? crew front = some q) (hgoing : q.isOver = false)
    (hreports : q.reports = (worker, .said (.remainder c)) :: reports)
    (hinsert : q.dispatcher.remainders.insert c = .ok (joined, rest)) (back : List Move) :
    p.replay? crew (front ++ .takeReport :: back) =
      (q.afterRemainder reports joined rest).replay? crew back := by
  rw [replay?_append, hfront, Option.bind_some, replay?, move?_of_insert hgoing hreports hinsert,
    Option.bind_some]

theorem record_append (hfront : p.replay? crew front = some q) (back : List Move) :
    p.record crew (front ++ back) = p.record crew front ++ q.record crew back := by
  induction front generalizing p with
  | nil =>
      obtain rfl : p = q := Option.some.inj hfront
      rfl
  | cons m front ih =>
      rw [replay?] at hfront
      obtain ⟨next, hnext, hmore⟩ := Option.bind_eq_some_iff.1 hfront
      simp only [List.cons_append, record, hnext, Option.map_some, Option.getD_some]
      rw [ih hmore, Journal.append_assoc]

/-- What a remainder completes is not left over. -/
theorem leftover_of_insert (hfront : p.start.replay? crew front = some q)
    (hgoing : q.isOver = false) (hreports : q.reports = (worker, .said (.remainder c)) :: reports)
    (hinsert : q.dispatcher.remainders.insert c = .ok (joined, rest)) (back : List Move) :
    (p.journal crew (front ++ .takeReport :: back)).chunksFrom .leftover =
      (p.journal crew front).chunksFrom .leftover ++
        ((q.afterRemainder reports joined rest).record crew back).chunksFrom .leftover := by
  have hobserve : (q.observe crew .takeReport).chunksFrom .leftover = [] := by
    simp [observe, hreports, Journal.ofReply, Dispatcher.onReply, Dispatcher.onRemainder, hinsert,
      Except.map, Dispatcher.enteredOn, Journal.chunksFrom]
  rw [journal, journal, record_append hfront, record, move?_of_insert hgoing hreports hinsert]
  simp only [Journal.chunksFrom_append, hobserve, Option.map_some, Option.getD_some,
    List.nil_append, List.append_assoc]

end

/-- What the schedule does is one of the runs. -/
theorem exists_replay_run (crew : Crew σ) (fuel : Nat) (script : List Move) (p : Pool σ) :
    ∃ moves, p.replay? crew moves = some (p.run crew fuel script) := by
  induction fuel generalizing script p with
  | zero => exact ⟨[], rfl⟩
  | succ fuel ih =>
      rw [run]
      split
      · exact ⟨[], rfl⟩
      · split
        · rename_i q hmove
          obtain ⟨m, -, hmove⟩ := Option.bind_eq_some_iff.1 hmove
          obtain ⟨moves, hmoves⟩ := ih script.tail q
          exact ⟨m :: moves, by rw [replay?, hmove, Option.bind_some, hmoves]⟩
        · split
          · rename_i q hmove
            obtain ⟨m, -, hmove⟩ := List.exists_of_findSome?_eq_some hmove
            obtain ⟨moves, hmoves⟩ := ih script q
            exact ⟨m :: moves, by rw [replay?, hmove, Option.bind_some, hmoves]⟩
          · exact ⟨[], rfl⟩

end Pool

end ClonePrint
