import ClonePrint.Pool.Schedule
import ClonePrint.Proofs.Channels
import ClonePrint.Proofs.Joining

/-!
# Every job is done exactly once

The jobs that went out, followed by those that wait, are at any time the chunks
that entered the queue, in their order and under consecutive numbers. Each job
that went out lies in an inbox or was taken up, and each file in flight has a job
in an inbox or a result that is on its way. A run ends only when nothing is
queued, in flight or held back, so at its end every job has been taken up and
every result has arrived.
-/
namespace ClonePrint

variable {σ : Type}

/-- The chunks among the requests in front of the first one to close. -/
def Request.accepted : List Request → List Chunk
  | [] => []
  | submit c :: more => c :: accepted more
  | close :: _ => []

theorem Request.accepted_append_of_mem {a : List Request} (h : close ∈ a) (b : List Request) :
    accepted (a ++ b) = accepted a := by
  induction a with
  | nil => cases h
  | cons request a ih =>
      cases request with
      | submit c =>
          have htail : close ∈ a := by simpa using h
          rw [List.cons_append, accepted, accepted, ih htail]
      | close => rfl

theorem Request.accepted_append_of_not_mem {a : List Request} (h : close ∉ a)
    (b : List Request) : accepted (a ++ b) = accepted a ++ accepted b := by
  induction a with
  | nil => rfl
  | cons request a ih =>
      obtain ⟨hhead, htail⟩ := not_or.1 (mt List.mem_cons.2 h)
      cases request with
      | submit c => rw [List.cons_append, accepted, accepted, ih htail, List.cons_append]
      | close => exact absurd rfl hhead

namespace Pool

open Dispatcher (Serves)

/-- A pool with queued chunks that has not started. It may be closed already. -/
def prepared (workers : Nat) (memory : σ) (queued : List Chunk) (closed : Bool)
    (counter : JobCounter := {}) : Pool σ :=
  let p := queued.foldl (fun p c => p.add c) (ofWorkers workers memory counter)
  if closed then p.close else p

theorem add_all_eq (queued : List Chunk) (p : Pool σ) :
    queued.foldl (fun p c => p.add c) p = { p with dispatcher := p.dispatcher.enqueueAll queued } := by
  induction queued generalizing p with
  | nil => rfl
  | cons c queued ih => exact ih (p.add c)

theorem prepared_eq (workers : Nat) (memory : σ) (queued : List Chunk) (closed : Bool)
    (counter : JobCounter) :
    prepared workers memory queued closed counter =
      { ofWorkers workers memory counter with
        dispatcher :=
          { workers := max workers 1
            queue := ⟨Job.numbered counter.next queued⟩
            counter := ⟨counter.next + queued.length⟩
            phase := if closed then .draining else .running } } := by
  rw [prepared, add_all_eq, Dispatcher.enqueueAll_eq]
  cases closed <;> simp [ofWorkers, Pool.close, update, Dispatcher.close]

/-- What a run has done so far, and what is on its way, add up. A job that went out was taken up
or lies in an inbox, and one without a result lies in an inbox, has its result on the way, or is
lost. -/
structure Accounted (counter : JobCounter) (queued : List Chunk) (j : Journal) (p : Pool σ) :
    Prop where
  orders : p.dispatcher.orders = []
  stream : j.handed.map Prod.snd ++ p.dispatcher.queue.jobs =
    Job.numbered counter.next (queued ++ j.entered.map Prod.snd)
  next : p.dispatcher.counter.next = counter.next + queued.length + j.entered.length
  handed : j.handed.Perm (j.taken ++ inboxJobs p.seats)
  inFlight : p.dispatcher.inFlight.Perm ((inboxJobs p.seats).map fileOfJob ++
    ((resultsIn p.pending).map Prod.fst ++ j.lost.map (·.payload.file)))
  found : (j.replies.flatMap Reply.found).Perm
    (p.dispatcher.found ++ (resultsIn p.pending).flatMap Prod.snd)
  finished : p.dispatcher.phase = .done → p.dispatcher.Finished

/-- Chunks enter the queue, jobs go out and the orders are delivered. -/
theorem Accounted.serve {counter : JobCounter} {queued : List Chunk} {j : Journal} {p : Pool σ}
    {d : Dispatcher} {entered : List (Origin × Chunk)} {seats : List Seat}
    (h : Accounted counter queued j p)
    (heard : List Request) (hserves : Serves (entered.map Prod.snd) p.dispatcher d)
    (hfound : d.found = p.dispatcher.found) (hdone : d.phase = .done → d.Finished)
    (hdeliver : deliver d.orders p.seats = .ok seats) :
    Accounted counter queued (j ++ { entered, handed := jobsTold d.orders, heard })
      { p with dispatcher := { d with orders := [] }, seats } := by
  have hinbox := (inboxJobs_deliver hdeliver).1
  have hpending : ({ p with dispatcher := { d with orders := [] }, seats } : Pool σ).pending =
      p.pending := pending_deliver hdeliver rfl
  have hstream := hserves.stream
  have hflight := hserves.inFlight ((inboxJobs p.seats).map fileOfJob ++
    ((resultsIn p.pending).map Prod.fst ++ j.lost.map (·.payload.file)))
    (by rw [h.orders]; exact h.inFlight)
  simp only [Dispatcher.stream, h.orders, jobsTold_nil, List.map_nil, List.nil_append] at hstream
  constructor
  · rfl
  · simp only [Journal.append_handed, Journal.append_entered, List.map_append, List.append_assoc]
    rw [hstream, ← List.append_assoc, h.stream, ← List.append_assoc queued,
      Job.numbered_append _ (queued ++ _), h.next, List.length_append, List.length_map,
      ← Nat.add_assoc]
  · simp only [Journal.append_entered, List.length_append]
    rw [hserves.counter, h.next, List.length_map]
    omega
  · rw [List.perm_iff_count]
    intro given
    have hbefore := h.handed.count_eq given
    have hafter := hinbox.count_eq given
    simp only [Journal.append_handed, Journal.append_taken, List.append_nil,
      List.count_append] at hbefore hafter ⊢
    omega
  · rw [List.perm_iff_count]
    intro file
    have hafter := (hinbox.map fileOfJob).count_eq file
    have hall := hflight.count_eq file
    rw [hpending]
    simp only [Journal.append_lost, List.append_nil, List.map_append,
      List.count_append] at hafter hall ⊢
    omega
  · rw [hpending]
    simp only [Journal.append_replies, List.append_nil]
    rw [hfound]
    exact h.found
  · exact fun hd => ⟨(hdone hd).queue, (hdone hd).inFlight, (hdone hd).remainders⟩

theorem resultsIn_said_cons (reply : Reply) (reports : List Report) :
    (resultsIn (.said reply :: reports)).flatMap Prod.snd =
      reply.found ++ (resultsIn reports).flatMap Prod.snd := by
  cases reply <;> rfl

/-- A reply is taken off the reports and its result is written down. -/
theorem Accounted.note {counter : JobCounter} {queued : List Chunk} {j : Journal} {p : Pool σ}
    {worker : Nat} {reply : Reply} {reports : List (Nat × Report)}
    (h : Accounted counter queued j p)
    (hgoing : p.dispatcher.phase ≠ .done) (harrived : p.reports = (worker, .said reply) :: reports) :
    Accounted counter queued j { p with reports, dispatcher := p.dispatcher.noting reply } := by
  have hpending : p.pending = .said reply ::
      ({ p with reports, dispatcher := p.dispatcher.noting reply } : Pool σ).pending := by
    simp only [pending, harrived, List.map_cons, List.cons_append]
  have hfound := h.found
  have hflight := h.inFlight
  rw [hpending] at hfound hflight
  rw [resultsIn_said_cons, ← List.append_assoc, ← Dispatcher.noting_found] at hfound
  cases reply with
  | result file found =>
      refine ⟨h.orders, h.stream, h.next, h.handed, ?_, hfound, fun hd => absurd hd hgoing⟩
      have herased := hflight.erase file
      refine herased.trans (List.Perm.trans (List.perm_middle.erase file) ?_)
      rw [List.erase_cons_head]
      rfl
  | remainder _ | log _ _ | idle =>
      exact ⟨h.orders, h.stream, h.next, h.handed, hflight, hfound,
        fun hd => absurd hd hgoing⟩

/-- A worker takes up what it was told. -/
theorem Accounted.work {crew : Crew σ} {counter : JobCounter} {queued : List Chunk} {j : Journal}
    {p : Pool σ} {worker : Nat} {seat : Seat} {what : Dispatch} (h : Accounted counter queued j p)
    (seated : p.seats[worker]? = some seat) (told : seat.inbox = some what) :
    Accounted counter queued (j ++ .ofWork crew worker p.memory what)
      (p.afterWork crew worker seat what) := by
  have hinbox := inboxJobs_afterWork crew seated told
  have hresults := (pending_afterWork crew what seated).filterMap Report.result?
  rw [List.filterMap_append] at hresults
  constructor
  · exact h.orders
  · rw [Journal.append_handed, Journal.append_entered, Journal.ofWork_handed,
      Journal.ofWork_entered, List.append_nil, List.append_nil]
    exact h.stream
  · rw [Journal.append_entered, Journal.ofWork_entered, List.append_nil]
    exact h.next
  · rw [List.perm_iff_count]
    intro given
    have hbefore := h.handed.count_eq given
    have hmoved := hinbox.count_eq given
    rw [Journal.append_handed, Journal.append_taken, Journal.ofWork_handed, Journal.ofWork_taken,
      List.append_nil]
    simp only [List.count_append] at hbefore hmoved ⊢
    omega
  · rw [List.perm_iff_count]
    intro file
    have hbefore := h.inFlight.count_eq file
    have hmoved := (hinbox.map fileOfJob).count_eq file
    have hsent := (hresults.map Prod.fst).count_eq file
    have hfiles := congrArg (List.count file) (carryOut_files crew worker p.memory what)
    simp only [resultsIn, afterWork_dispatcher, Journal.append_lost, List.map_append,
      List.count_append] at hbefore hmoved hsent hfiles ⊢
    omega
  · rw [List.perm_iff_count]
    intro found
    have hbefore := h.found.count_eq found
    have hsent := (hresults.flatMap_right Prod.snd).count_eq found
    have hfound := congrArg (List.count found) (carryOut_found crew worker p.memory what)
    simp only [resultsIn, afterWork_dispatcher, Journal.append_replies, List.flatMap_append,
      List.count_append] at hbefore hsent hfound ⊢
    omega
  · exact h.finished

/-- A worker sends its next report. -/
theorem Accounted.report {counter : JobCounter} {queued : List Chunk} {j : Journal} {p : Pool σ}
    {worker : Nat} {seat : Seat} {r : Report} {more : List Report}
    (h : Accounted counter queued j p)
    (seated : p.seats[worker]? = some seat) (speaks : seat.outbox = r :: more) :
    Accounted counter queued j (p.afterReport worker seat r more) := by
  have hinbox : (inboxJobs (p.afterReport worker seat r more).seats).Perm (inboxJobs p.seats) :=
    inboxJobs_afterReport seated
  have hresults := (pending_afterReport seated speaks).filterMap Report.result?
  exact
    { h with
      handed := h.handed.trans (hinbox.symm.append_left _)
      inFlight := h.inFlight.trans ((hinbox.symm.map fileOfJob).append
        ((hresults.symm.map Prod.fst).append_right _))
      found := h.found.trans ((hresults.symm.flatMap_right Prod.snd).append_left _) }

theorem phase_ne_done {p : Pool σ} (h : p.isOver = false) : p.dispatcher.phase ≠ .done := by
  intro hd
  simp [isOver, hd] at h

/-- What a run has done and what is on its way add up after every move. -/
theorem Accounted.passes {crew : Crew σ} {counter : JobCounter} {queued : List Chunk}
    {j k : Journal} {p q : Pool σ} (h : Accounted counter queued j p) (hp : Passes crew p k q) :
    Accounted counter queued (j ++ k) q := by
  cases hp with
  | work seated told => exact h.work seated told
  | report seated speaks =>
      rw [Journal.append_empty]
      exact h.report seated speaks
  | @reply worker reply reports d seats going arrived reacts delivers =>
      obtain ⟨hserves, hfound⟩ := Dispatcher.onReply_serves reacts
      have hnoted := h.note (phase_ne_done going) arrived
      have hserved := hnoted.serve [] hserves
        (hfound.trans (Dispatcher.noting_found _ _).symm)
        (fun hdone => by
          rcases Dispatcher.onReply_phase reacts with hphase | ⟨-, -, hfinished⟩
          · exact absurd (hphase.symm.trans hdone) (phase_ne_done going)
          · exact hfinished) delivers
      have hk : Journal.ofReply worker reply p.dispatcher =
          { entered := p.dispatcher.enteredOn reply, handed := jobsTold d.orders } := by
        rw [Journal.ofReply, reacts]
      rw [hk]
      exact { hserved with }
  | @request request requests seats going arrived delivers =>
      obtain ⟨hserves, hfound⟩ := p.dispatcher.onRequest_serves request
      have hserved := h.serve [request] hserves hfound
        (fun hdone => (p.dispatcher.onRequest_phase request hdone).resolve_left
          (phase_ne_done going)) delivers
      exact { hserved with }
  | noticeLeft going left silent delivers =>
      obtain ⟨hserves, hfound⟩ := p.dispatcher.onClose_serves
      have hentered : ((p.dispatcher.flushed.map (Origin.leftover, ·)).map Prod.snd) =
          p.dispatcher.flushed := by simp [Function.comp_def]
      rw [← hentered] at hserves
      have hserved := h.serve [] hserves hfound
        (fun hdone => (p.dispatcher.onClose_phase hdone).resolve_left (phase_ne_done going))
        delivers
      exact { hserved with }
  | ask request here =>
      exact
        { h with
          stream := by simpa using h.stream
          next := by simpa using h.next
          handed := by simpa using h.handed
          inFlight := by
            rw [Journal.append_lost, List.append_nil]
            exact h.inFlight
          found := by
            rw [Journal.append_replies, List.append_nil]
            exact h.found }
  | seeWanted =>
      rw [Journal.append_empty]
      exact
        { h with
          finished := fun hd =>
            ⟨(h.finished hd).queue, (h.finished hd).inFlight, (h.finished hd).remainders⟩ }
  | leave =>
      rw [Journal.append_empty]
      exact { h with }

/-- A pool that starts accounts for what was queued. -/
theorem Accounted.start {workers : Nat} {memory : σ} {queued : List Chunk} {closed : Bool}
    {counter : JobCounter} (h : (prepared workers memory queued closed counter).start.halt = none) :
    Accounted counter queued
      { handed := jobsTold (prepared workers memory queued closed counter).dispatcher.start.orders }
      (prepared workers memory queued closed counter).start := by
  have hfresh : Accounted counter queued {} (prepared workers memory queued closed counter) := by
    rw [prepared_eq]
    have hseats : (List.replicate (max workers 1) ({} : Seat)).flatMap Seat.outbox = [] := by simp
    have hjobs := inboxJobs_replicate (max workers 1)
    refine ⟨rfl, by simp, rfl, ?_, ?_, ?_, fun hd => ?_⟩
    · simp [ofWorkers, hjobs]
    · simp [ofWorkers, pending, hjobs, hseats, resultsIn]
    · simp [ofWorkers, pending, hseats, resultsIn]
    · cases closed <;> simp at hd
  obtain ⟨seats, hdeliver, -, heq⟩ := proceed_goes_on h
  have hs := (prepared workers memory queued closed counter).dispatcher.start_handsOut
  have hserves : Serves (([] : List (Origin × Chunk)).map Prod.snd) _ _ := hs.serves
  have hserved := hfresh.serve [] hserves hs.found
    (fun hd => by
      rw [hs.phase, prepared_eq] at hd
      cases closed <;> simp at hd) hdeliver
  rw [Pool.start, heq]
  exact hserved

theorem chunksFrom_submitted_enteredOn (d : Dispatcher) (reply : Reply)
    (handed : List (Nat × Job Chunk)) :
    ({ entered := d.enteredOn reply, handed } : Journal).chunksFrom .submitted = [] := by
  cases reply with
  | remainder c =>
      cases hinsert : d.remainders.insert c <;>
        simp [Journal.chunksFrom, Dispatcher.enteredOn, hinsert]
  | idle => simp [Journal.chunksFrom, Dispatcher.enteredOn]
  | result _ _ | log _ _ => rfl

/-- The chunks from outside that entered the queue are those that were asked for
before the input was closed. -/
structure Heeds (closed : Bool) (j : Journal) (p : Pool σ) : Prop where
  asked : j.asked = j.heard ++ p.requests
  submitted : j.chunksFrom .submitted = if closed then [] else Request.accepted j.heard
  running : p.dispatcher.phase = .running → closed = false ∧ .close ∉ j.heard
  stopped : p.dispatcher.phase ≠ .running →
    closed = true ∨ .close ∈ j.heard ∨ (p.handlesOpen = false ∧ p.requests = [])

/-- Moves without requests leave the input as it is. -/
theorem Heeds.unasked {closed : Bool} {j k : Journal} {p q : Pool σ} (h : Heeds closed j p)
    (hasked : k.asked = []) (hheard : k.heard = []) (hnone : k.chunksFrom .submitted = [])
    (hrequests : q.requests = p.requests) (hopen : q.handlesOpen = true → p.handlesOpen = true)
    (hphase : q.dispatcher.phase = .running ↔ p.dispatcher.phase = .running) :
    Heeds closed (j ++ k) q := by
  constructor
  · rw [Journal.append_asked, Journal.append_heard, hasked, hheard, hrequests, List.append_nil,
      List.append_nil]
    exact h.asked
  · rw [Journal.chunksFrom_append, Journal.append_heard, hnone, hheard, List.append_nil,
      List.append_nil]
    exact h.submitted
  · rw [hphase, Journal.append_heard, hheard, List.append_nil]
    exact h.running
  · rw [Ne, hphase, Journal.append_heard, hheard, List.append_nil, hrequests]
    intro hstopped
    rcases h.stopped hstopped with hc | hc | ⟨hclosed, hc⟩
    · exact .inl hc
    · exact .inr (.inl hc)
    · refine .inr (.inr ⟨?_, hc⟩)
      cases hq : q.handlesOpen with
      | false => rfl
      | true => rw [hopen hq] at hclosed; exact hclosed

/-- The dispatcher takes up a request. -/
theorem Heeds.request {closed : Bool} {j : Journal} {p : Pool σ} {request : Request}
    {requests : List Request} {seats : List Seat} (h : Heeds closed j p)
    (arrived : p.requests = request :: requests) :
    Heeds closed (j ++ .ofRequest request p.dispatcher)
      { p with
        requests
        dispatcher := { p.dispatcher.onRequest request with orders := [] }
        seats } := by
  have hstopped (hphase : p.dispatcher.phase ≠ .running) : closed = true ∨ .close ∈ j.heard := by
    rcases h.stopped hphase with hc | hc | ⟨-, hc⟩
    · exact .inl hc
    · exact .inr hc
    · simp [arrived] at hc
  have hasked : (j ++ .ofRequest request p.dispatcher).asked =
      (j ++ .ofRequest request p.dispatcher).heard ++ requests := by
    simp [Journal.ofRequest, h.asked, arrived]
  cases request with
  | submit c =>
      have hphase := (Dispatcher.onSubmit_serves c p.dispatcher).2.2.2
      refine ⟨hasked, ?_, fun hrun => ?_, fun hstop => ?_⟩
      · rw [Journal.chunksFrom_append, h.submitted]
        by_cases hrun : p.dispatcher.phase = .running
        · obtain ⟨hopen, hnone⟩ := h.running hrun
          simp [Journal.ofRequest, Journal.chunksFrom, Dispatcher.enteredOnRequest, hrun,
            Phase.acceptsInput, hopen, Request.accepted_append_of_not_mem hnone, Request.accepted]
        · have hclosed : p.dispatcher.phase.acceptsInput = false := by
            cases hp : p.dispatcher.phase <;> simp_all [Phase.acceptsInput]
          rcases hstopped hrun with hc | hc
          · simp [Journal.ofRequest, Journal.chunksFrom, Dispatcher.enteredOnRequest, hclosed, hc]
          · simp [Journal.ofRequest, Journal.chunksFrom, Dispatcher.enteredOnRequest, hclosed,
              Request.accepted_append_of_mem hc]
      · obtain ⟨hopen, hnone⟩ := h.running (hphase.symm.trans hrun)
        refine ⟨hopen, ?_⟩
        simpa [Journal.ofRequest] using hnone
      · rcases hstopped (fun hrun => hstop (hphase.trans hrun)) with hc | hc
        · exact .inl hc
        · exact .inr (.inl (by simp [hc]))
  | close =>
      refine ⟨hasked, ?_, fun hrun => ?_, fun _ => .inr (.inl ?_)⟩
      · have hnone : (Journal.ofRequest .close p.dispatcher).chunksFrom .submitted = [] := by
          simp [Journal.ofRequest, Journal.chunksFrom, Dispatcher.enteredOnRequest]
        have haccepted : Request.accepted (j.heard ++ [.close]) = Request.accepted j.heard := by
          by_cases hc : .close ∈ j.heard
          · exact Request.accepted_append_of_mem hc _
          · rw [Request.accepted_append_of_not_mem hc, Request.accepted, List.append_nil]
        rw [Journal.chunksFrom_append, hnone, List.append_nil, h.submitted]
        simp [Journal.ofRequest, haccepted]
      · exact absurd hrun p.dispatcher.onClose_phase_ne_running
      · simp [Journal.ofRequest]

theorem Heeds.passes {crew : Crew σ} {closed : Bool} {j k : Journal} {p q : Pool σ}
    (h : Heeds closed j p) (hp : Passes crew p k q) : Heeds closed (j ++ k) q := by
  cases hp with
  | work seated told =>
      exact h.unasked (Journal.ofWork_asked ..) (Journal.ofWork_heard ..)
        (by simp [Journal.chunksFrom, Journal.ofWork_entered]) rfl id .rfl
  | report seated speaks => exact h.unasked rfl rfl rfl rfl id .rfl
  | @reply worker reply reports d seats going arrived reacts delivers =>
      have hk : Journal.ofReply worker reply p.dispatcher =
          { entered := p.dispatcher.enteredOn reply, handed := jobsTold d.orders } := by
        rw [Journal.ofReply, reacts]
      rw [hk]
      refine h.unasked rfl rfl (chunksFrom_submitted_enteredOn ..) rfl id ?_
      rcases Dispatcher.onReply_phase reacts with hphase | ⟨hbefore, hafter, -⟩
      · rw [hphase]
      · simp [hbefore, hafter]
  | request going arrived delivers => exact h.request arrived
  | noticeLeft going left silent delivers =>
      have hnone : (Journal.ofLeaving p.dispatcher).chunksFrom .submitted = [] := by
        simp [Journal.ofLeaving, Journal.chunksFrom]
      constructor
      · simpa [Journal.ofLeaving] using h.asked
      · rw [Journal.chunksFrom_append, hnone, List.append_nil]
        simpa [Journal.ofLeaving] using h.submitted
      · exact fun hrun => absurd hrun p.dispatcher.onClose_phase_ne_running
      · exact fun _ => .inr (.inr ⟨left, silent⟩)
  | ask request here =>
      refine ⟨?_, ?_, ?_, fun hstop => ?_⟩
      · simp [h.asked]
      · simpa [Journal.chunksFrom] using h.submitted
      · simpa using h.running
      · rcases h.stopped hstop with hc | hc | ⟨hc, -⟩
        · exact .inl hc
        · exact .inr (.inl (by simpa using hc))
        · simp [here] at hc
  | seeWanted => exact h.unasked rfl rfl rfl rfl id .rfl
  | leave => exact h.unasked rfl rfl rfl rfl (fun hopen => absurd hopen Bool.false_ne_true) .rfl

theorem Heeds.start {workers : Nat} {memory : σ} {queued : List Chunk} {closed : Bool}
    {counter : JobCounter} (h : (prepared workers memory queued closed counter).start.halt = none) :
    Heeds closed
      { handed := jobsTold (prepared workers memory queued closed counter).dispatcher.start.orders }
      (prepared workers memory queued closed counter).start := by
  obtain ⟨seats, -, -, heq⟩ := proceed_goes_on h
  have hphase := (prepared workers memory queued closed counter).dispatcher.start_handsOut.phase
  rw [Pool.start, heq]
  refine ⟨?_, ?_, fun hrun => ?_, fun hstop => ?_⟩
  · simp [prepared_eq, ofWorkers]
  · cases closed <;> rfl
  · replace hrun := hphase.symm.trans hrun
    rw [prepared_eq] at hrun
    cases closed <;> simp at hrun ⊢
  · replace hstop := mt hphase.trans hstop
    rw [prepared_eq] at hstop
    cases closed <;> simp at hstop ⊢

/-- When a run has ended, everything that was to be accepted has been. -/
theorem Heeds.submitted_of_done {closed : Bool} {j : Journal} {p : Pool σ}
    (h : Heeds closed j p) (hdone : p.dispatcher.phase = .done) :
    j.chunksFrom .submitted = if closed then [] else Request.accepted j.asked := by
  rw [h.submitted]
  cases closed with
  | true => rfl
  | false =>
      have hstop : p.dispatcher.phase ≠ .running := by simp [hdone]
      rw [if_neg Bool.false_ne_true, if_neg Bool.false_ne_true, h.asked]
      rcases h.stopped hstop with hc | hc | ⟨-, hc⟩
      · cases hc
      · exact (Request.accepted_append_of_mem hc _).symm
      · rw [hc, List.append_nil]

/-- In every run the chunks from outside are those that are asked for. -/
theorem submitted_of_replay {crew : Crew σ} {workers : Nat} {memory : σ} {queued : List Chunk}
    {closed : Bool} {counter : JobCounter} {moves : List Move} {q : Pool σ}
    (hrun : (prepared workers memory queued closed counter).start.replay? crew moves = some q)
    (hhalt : q.halt = none) (hdone : q.dispatcher.phase = .done) :
    ((prepared workers memory queued closed counter).journal crew moves).chunksFrom .submitted =
      if closed then [] else Request.accepted (asks moves) := by
  have hheeds := run_induction (Heeds closed) Heeds.start (fun _ _ _ _ h hp => h.passes hp)
    hrun hhalt
  rw [hheeds.submitted_of_done hdone, journal_asked hrun]

/-- Every job was done exactly once, and nothing is left. The chunks that were queued before the
start or entered the queue later went out in this order and under different numbers, and the
result is what the replies to them report. -/
structure ExactlyOnce (counter : JobCounter) (queued submitted : List Chunk) (j : Journal)
    (q : Pool σ) (found : List Fingerprint) : Prop where
  handed : j.handed.map Prod.snd = Job.numbered counter.next (queued ++ j.entered.map Prod.snd)
  taken : j.handed.Perm j.taken
  submitted : j.chunksFrom .submitted = submitted
  found : found.Perm (j.replies.flatMap Reply.found)
  queue : q.dispatcher.queue.jobs = []
  inFlight : q.dispatcher.inFlight = []
  remainders : q.dispatcher.remainders.files = []

/-- A run that ends well has done every job exactly once, whatever the parser
does and in whatever order the moves are made. -/
theorem exactly_once {crew : Crew σ} {workers : Nat} {memory : σ} {queued : List Chunk}
    {closed : Bool} {counter : JobCounter} {moves : List Move} {q : Pool σ}
    {found : List Fingerprint}
    (hrun : (prepared workers memory queued closed counter).start.replay? crew moves = some q)
    (hok : q.outcome? = some (.ok found)) :
    ExactlyOnce counter queued (if closed then [] else Request.accepted (asks moves))
      ((prepared workers memory queued closed counter).journal crew moves) q found := by
  obtain ⟨hhalt, hdone, rfl⟩ := outcome_eq_ok_iff.1 hok
  have hacc := run_induction (Accounted counter queued) Accounted.start
    (fun _ _ _ _ h hp => h.passes hp) hrun hhalt
  obtain ⟨hqueue, hflight, hremainders⟩ := hacc.finished hdone
  -- Nothing is in flight, so no job and no result is on its way.
  have hidle := hacc.inFlight
  rw [hflight] at hidle
  have hidle := List.nil_perm.1 hidle
  simp only [List.append_eq_nil_iff, List.map_eq_nil_iff] at hidle
  obtain ⟨hinbox, hresults, -⟩ := hidle
  refine ⟨?_, ?_, ?_, ?_, hqueue, hflight, hremainders⟩
  · have hstream := hacc.stream
    rwa [hqueue, List.append_nil] at hstream
  · have hhanded := hacc.handed
    rwa [hinbox, List.append_nil] at hhanded
  · rw [submitted_of_replay hrun hhalt hdone]
  · have hfound := hacc.found
    rw [hresults, List.flatMap_nil, List.append_nil] at hfound
    exact hfound.symm

/-- A parser that finds nothing and hands back every chunk with an open edge. -/
def deferring : Parser Unit where
  language := .python
  splits := true
  parseFile _ _ _ _ := ⟨.ok [], (), []⟩
  parseChunk c _ _ := ⟨.ok (if c.isClosed then .resolved [] else .deferred c), (), []⟩
  itemStarts _ _ := ⟨none, (), []⟩
  clear := id

/-- Two halves of a file, one queued and one submitted, are handed back, joined
and parsed. -/
theorem exactly_once_for_two_halves :
    let queued : List Chunk := [⟨"f", ['a'], 0, 0, 0, false, true, true⟩]
    let half : Chunk := ⟨"f", ['b'], 1, 1, 0, true, false, true⟩
    let moves : List Move :=
      [.work 0, .report 0, .takeReport, .ask (.submit half), .ask .close, .takeRequest, .report 0,
        .takeReport, .work 0, .report 0, .takeReport, .report 0, .takeReport, .takeRequest,
        .work 0, .report 0, .takeReport, .work 0, .report 0, .takeReport]
    let p := prepared 1 () queued false
    let crew : Crew Unit := ⟨deferring, 0⟩
    ∃ q, p.start.replay? crew moves = some q ∧ q.outcome? = some (.ok []) ∧
      ExactlyOnce {} queued [half] (p.journal crew moves) q [] := by
  intro queued half moves p crew
  -- A sort is not evaluated by the kernel, so the move that joins the halves is made apart.
  let before := (p.start.replay? crew (moves.take 10)).get (by decide +kernel)
  have hbefore : p.start.replay? crew (moves.take 10) = some before := (Option.some_get _).symm
  have hreports : before.reports = [(0, .said (.remainder half))] := by decide +kernel
  have hremainders : before.dispatcher.remainders = ⟨[("f", queued)]⟩ := by decide +kernel
  have hinsert : before.dispatcher.remainders.insert half =
      .ok ([⟨"f", ['a', 'b'], 0, 0, 0, false, false, true⟩], {}) := by
    rw [hremainders]
    exact (Remainders.insert_of_mergeSort_eq (List.mergeSort_of_pairwise (by decide))).trans rfl
  have hrun := replay?_of_insert hbefore (by decide +kernel) hreports hinsert (moves.drop 11)
  have hend : (p.start.replay? crew moves).map
      (fun q => (q.halt, q.dispatcher.phase, q.dispatcher.found)) = some (none, .done, []) := by
    refine (congrArg _ hrun).trans ?_
    decide +kernel
  obtain ⟨q, hq, hok⟩ := exists_outcome_eq_ok hend
  exact ⟨q, hq, hok, exactly_once hq hok⟩

end Pool

end ClonePrint
