import ClonePrint.Proofs.ExactlyOnce
import ClonePrint.Proofs.Joining

/-!
# How chunks flow through a pool

A chunk in a running pool awaits a worker, or it was handed back and is held
until its neighbours arrive. Every move does one of five things to these two
collections: nothing, a worker parses a chunk that awaited it, remainders are
joined, the buffer of a quiet pool is flushed, or a chunk arrives from outside.
In a quiet pool everything that is held lies in the buffer, because a worker
speaks of a job before it reports the result.
-/
namespace ClonePrint

variable {σ : Type}

namespace Pool

/-- The chunks that are going to be parsed. -/
def awaiting (p : Pool σ) : List Chunk :=
  p.dispatcher.queue.jobs.map Job.payload ++ (inboxJobs p.seats).map (·.2.payload)

/-- The chunks that were handed back and have not reached the dispatcher yet. -/
def returned (p : Pool σ) : List Chunk := p.pending.filterMap Report.remainder?

/-- The chunks that wait for their neighbours, or are on their way to do so. -/
def held (p : Pool σ) : List Chunk := p.returned ++ p.dispatcher.remainders.chunks

def unseen (p : Pool σ) : List String := p.pending.filterMap Report.line?

/-- The journal tells of no work. -/
structure Unworked (k : Journal) : Prop where
  taken : k.taken = []
  replies : k.replies = []
  lost : k.lost = []

/-- What a move does to the chunks in a pool. A worker parses one and may hand a part of it back,
a remainder reaches the buffer and what is complete leaves it, the buffer of a quiet pool is
flushed, or a chunk arrives from outside. -/
inductive Shift (crew : Crew σ) (p : Pool σ) (k : Journal) (q : Pool σ) : Prop
  | still (unworked : Unworked k) (entered : k.entered = [])
      (awaiting : q.awaiting.Perm p.awaiting) (held : q.held.Perm p.held)
      (remainders : q.dispatcher.remainders = p.dispatcher.remainders)
  | parse (worker : Nat) (job : Job Chunk)
      (work : k = .ofWork crew worker p.memory (.job job))
      (awaiting : p.awaiting.Perm (job.payload :: q.awaiting))
      (held : q.held.Perm (k.replies.filterMap Reply.remainder? ++ p.held))
      (remainders : q.dispatcher.remainders = p.dispatcher.remainders)
  | join (c : Chunk) (joined merged alone : List Chunk) (unworked : Unworked k)
      (entered : k.entered = joined.map (.joined, ·))
      (inserts : Remainders.Inserts c p.dispatcher.remainders joined q.dispatcher.remainders
        merged alone)
      (awaiting : q.awaiting.Perm (joined ++ p.awaiting))
      (held : p.held.Perm (merged ++ q.held))
      (waiting : (c :: p.dispatcher.remainders.pending c.file).Subperm p.held)
  | flush (unworked : Unworked k) (quiet : p.dispatcher.isQuiet = true)
      (entered : k.entered = p.dispatcher.remainders.leftovers.map (.leftover, ·))
      (awaiting : q.awaiting.Perm (p.dispatcher.remainders.leftovers ++ p.awaiting))
      (held : p.held.Perm (p.dispatcher.remainders.chunks ++ q.held))
      (remainders : q.dispatcher.remainders = {})
  | submit (c : Chunk) (unworked : Unworked k) (entered : k.entered = [(.submitted, c)])
      (awaiting : q.awaiting.Perm (c :: p.awaiting)) (held : q.held.Perm p.held)
      (remainders : q.dispatcher.remainders = p.dispatcher.remainders)

/-- What enters the queue awaits a worker, in the queue or already in an inbox. -/
theorem awaiting_of_serves {p q : Pool σ} {before d : Dispatcher} {cs : List Chunk}
    (horders : before.orders = []) (hqueue : before.queue = p.dispatcher.queue)
    (hserves : Dispatcher.Serves cs before d) (hdeliver : deliver d.orders p.seats = .ok q.seats)
    (hq : q.dispatcher.queue = d.queue) : q.awaiting.Perm (cs ++ p.awaiting) := by
  have hstream := congrArg (List.map Job.payload) hserves.stream
  have hinbox := ((inboxJobs_deliver hdeliver).1.map Prod.snd).map Job.payload
  simp only [Dispatcher.stream, horders, jobsTold_nil, List.map_nil, List.nil_append, hqueue,
    List.map_append, Job.map_payload_numbered] at hstream
  have hinbox' : ((inboxJobs q.seats).map (·.2.payload)).Perm
      (((jobsTold d.orders).map Prod.snd).map Job.payload ++
        (inboxJobs p.seats).map (·.2.payload)) := by
    simpa [Function.comp_def] using hinbox
  rw [awaiting, awaiting, hq]
  rw [List.perm_iff_count]
  intro c
  have hcount := congrArg (List.count c) hstream
  have hmoved := hinbox'.count_eq c
  simp only [List.count_append] at hcount hmoved ⊢
  omega

theorem pending_reply {p q : Pool σ} {orders : List (Nat × Dispatch)} {worker : Nat}
    {reply : Reply} (harrived : p.reports = (worker, .said reply) :: q.reports)
    (hdeliver : deliver orders p.seats = .ok q.seats) :
    p.pending = .said reply :: q.pending := by
  simp only [pending, harrived, List.map_cons, List.cons_append, List.flatMap_def,
    (inboxJobs_deliver hdeliver).2]

theorem returned_reply {p q : Pool σ} {orders : List (Nat × Dispatch)} {worker : Nat}
    {reply : Reply} (harrived : p.reports = (worker, .said reply) :: q.reports)
    (hdeliver : deliver orders p.seats = .ok q.seats) :
    p.returned = reply.remainder?.toList ++ q.returned := by
  rw [returned, pending_reply harrived hdeliver, returned]
  cases reply <;> rfl

theorem returned_deliver {p q : Pool σ} {orders : List (Nat × Dispatch)}
    (h : deliver orders p.seats = .ok q.seats) (hreports : q.reports = p.reports) :
    q.returned = p.returned := by
  rw [returned, pending_deliver h hreports, returned]

/-- Settling flushes the buffer of a quiet pool and does nothing otherwise. -/
theorem shift_of_settles {crew : Crew σ} {p q : Pool σ} {k : Journal} {d d' : Dispatcher}
    (hs : Dispatcher.Settles d d') (horders : d.orders = [])
    (hqueue : d.queue = p.dispatcher.queue) (hflight : d.inFlight = p.dispatcher.inFlight)
    (hremainders : d.remainders = p.dispatcher.remainders)
    (hdeliver : deliver d'.orders p.seats = .ok q.seats)
    (hq : q.dispatcher = { d' with orders := [] }) (hreturned : q.returned = p.returned)
    (unworked : Unworked k) (entered : k.entered = p.dispatcher.flushed.map (.leftover, ·)) :
    Shift crew p k q := by
  have hquiet : d.isQuiet = p.dispatcher.isQuiet := by
    simp only [Dispatcher.isQuiet, hqueue, hflight]
  have hflushed : d.flushed = p.dispatcher.flushed := by
    simp only [Dispatcher.flushed, hquiet, hremainders]
  have hserves := hs.serves
  have hafter := hs.remainders
  rw [hflushed] at hserves
  rw [hquiet, hremainders] at hafter
  have hawaiting := awaiting_of_serves horders hqueue hserves hdeliver (by rw [hq])
  have hkept : q.dispatcher.remainders = d'.remainders := by rw [hq]
  cases h : p.dispatcher.isQuiet with
  | true =>
      simp only [Dispatcher.flushed, h, ↓reduceIte] at entered hawaiting hafter
      refine .flush unworked h entered hawaiting ?_ (hkept.trans hafter)
      rw [held, held, hreturned, hkept, hafter]
      apply List.perm_append_comm.trans
      simp [Remainders.chunks]
  | false =>
      simp only [Dispatcher.flushed, h, Bool.false_eq_true, ↓reduceIte, List.map_nil,
        List.nil_append] at entered hawaiting hafter
      refine .still unworked entered hawaiting ?_ (hkept.trans hafter)
      rw [held, held, hreturned, hkept, hafter]

/-- A reply of a worker reaches the dispatcher. -/
theorem shift_of_reply {crew : Crew σ} {p q : Pool σ} {worker : Nat} {reply : Reply}
    {d : Dispatcher} (horders : p.dispatcher.orders = []) (htidy : p.dispatcher.remainders.Tidy)
    (harrived : p.reports = (worker, .said reply) :: q.reports)
    (hreacts : p.dispatcher.onReply worker reply = .ok d)
    (hdeliver : deliver d.orders p.seats = .ok q.seats)
    (hq : q.dispatcher = { d with orders := [] }) :
    Shift crew p (.ofReply worker reply p.dispatcher) q := by
  have hk : Journal.ofReply worker reply p.dispatcher =
      { entered := p.dispatcher.enteredOn reply, handed := jobsTold d.orders } := by
    rw [Journal.ofReply, hreacts]
  have hreturned := returned_reply harrived hdeliver
  have hserves := (Dispatcher.onReply_serves hreacts).1
  rw [hk]
  cases reply with
  | result file found =>
      have hawaiting := awaiting_of_serves (p := p) (q := q)
        (show (p.dispatcher.noting (.result file found)).orders = [] from horders) rfl hserves
        hdeliver (by rw [hq])
      have hkept : q.dispatcher.remainders = p.dispatcher.remainders := by
        simp only [Dispatcher.onReply, Except.ok.injEq] at hreacts
        rw [hq, ← hreacts]
        exact (Dispatcher.onResult_handsOut worker file found p.dispatcher).remainders
      refine .still ⟨rfl, rfl, rfl⟩ rfl hawaiting ?_ hkept
      rw [held, held, hkept, hreturned]
      exact .refl _
  | log level line =>
      have hawaiting := awaiting_of_serves (p := p) horders rfl hserves hdeliver (by rw [hq])
      have hkept : q.dispatcher.remainders = p.dispatcher.remainders := by
        simp only [Dispatcher.onReply, Except.ok.injEq] at hreacts
        rw [hq, ← hreacts]
      refine .still ⟨rfl, rfl, rfl⟩ rfl hawaiting ?_ hkept
      rw [held, held, hkept, hreturned]
      exact .refl _
  | idle =>
      simp only [Dispatcher.onReply, Except.ok.injEq] at hreacts
      subst hreacts
      exact shift_of_settles (Dispatcher.onIdle_settles worker p.dispatcher) horders rfl rfl rfl
        hdeliver hq (by rw [hreturned]; rfl) ⟨rfl, rfl, rfl⟩ rfl
  | remainder c =>
      obtain ⟨joined, remainders, hinsert, hjoined, hafter, -, -⟩ :=
        Dispatcher.onRemainder_serves hreacts
      obtain ⟨merged, alone, hinserts⟩ := Remainders.exists_inserts htidy hinsert
      have hawaiting := awaiting_of_serves (p := p) horders rfl hjoined hdeliver (by rw [hq])
      have hkept : q.dispatcher.remainders = remainders := by rw [hq, ← hafter]
      rw [← hkept] at hinserts
      have hpending := Remainders.chunks_perm htidy c.file
      have hheld : p.held.Perm (c :: p.dispatcher.remainders.pending c.file ++
          (q.returned ++ p.dispatcher.remainders.others c.file)) := by
        rw [held, hreturned]
        apply (hpending.append_left _).trans
        simp only [Reply.remainder?, Option.toList_some, List.cons_append, List.nil_append]
        exact (List.perm_append_comm_assoc _ _ _).cons _
      refine .join c joined merged alone ⟨rfl, rfl, rfl⟩ ?_ hinserts hawaiting ?_ ?_
      · simp only [Dispatcher.enteredOn, hinsert]
      · refine hheld.trans ((hinserts.divided.append_right _).trans ?_)
        rw [List.append_assoc]
        apply List.Perm.append_left _
        exact (List.perm_append_comm_assoc _ _ _).trans (hinserts.chunks.symm.append_left _)
      · exact ((List.sublist_append_left _ _).subperm).trans hheld.symm.subperm

/-- A worker takes up what it was told. -/
theorem shift_of_work {crew : Crew σ} {p : Pool σ} {worker : Nat} {seat : Seat}
    {what : Dispatch} (seated : p.seats[worker]? = some seat) (told : seat.inbox = some what) :
    Shift crew p (.ofWork crew worker p.memory what) (p.afterWork crew worker seat what) := by
  have hinbox := inboxJobs_afterWork crew seated told
  have hreturned :=
    (pending_afterWork crew what seated).filterMap Report.remainder?
  rw [List.filterMap_append, filterMap_carryOut Report.remainder? rfl (fun _ => rfl) crew worker]
    at hreturned
  cases what with
  | job job =>
      refine .parse worker job rfl ?_ ?_ rfl
      · exact ((hinbox.map (·.2.payload)).append_left _).trans List.perm_middle
      · exact (hreturned.append_right _).trans
          ((List.perm_append_comm.append_right _).trans (by rw [List.append_assoc]; exact .refl _))
  | noJob | close =>
      refine .still ⟨rfl, rfl, rfl⟩ rfl ?_ ?_ rfl
      · exact ((hinbox.map (·.2.payload)).append_left _).symm
      · exact (hreturned.append_right _).trans (by simp [Journal.ofWork, held, returned])

/-- A worker sends its next report. -/
theorem shift_of_report {crew : Crew σ} {p : Pool σ} {worker : Nat} {seat : Seat} {r : Report}
    {more : List Report} (seated : p.seats[worker]? = some seat) (speaks : seat.outbox = r :: more) :
    Shift crew p {} (p.afterReport worker seat r more) := by
  have hinbox : (inboxJobs (p.afterReport worker seat r more).seats).Perm (inboxJobs p.seats) :=
    inboxJobs_afterReport seated
  have hreturned := (pending_afterReport seated speaks).filterMap Report.remainder?
  exact .still ⟨rfl, rfl, rfl⟩ rfl ((hinbox.map (·.2.payload)).append_left _)
    (hreturned.append_right _) rfl

/-- A request to take a chunk reaches the dispatcher. -/
theorem shift_of_submit {crew : Crew σ} {p q : Pool σ} {c : Chunk}
    (horders : p.dispatcher.orders = [])
    (hdeliver : deliver (p.dispatcher.onSubmit c).orders p.seats = .ok q.seats)
    (hq : q.dispatcher = { p.dispatcher.onSubmit c with orders := [] })
    (hreports : q.reports = p.reports) :
    Shift crew p (.ofRequest (.submit c) p.dispatcher) q := by
  obtain ⟨hserves, hkept, -, -⟩ := Dispatcher.onSubmit_serves c p.dispatcher
  have hawaiting := awaiting_of_serves horders rfl hserves hdeliver (by rw [hq])
  have hremainders : q.dispatcher.remainders = p.dispatcher.remainders := by rw [hq, ← hkept]
  have hheld : q.held = p.held := by
    rw [held, held, hremainders, returned_deliver hdeliver hreports]
  cases hinput : p.dispatcher.phase.acceptsInput with
  | true =>
      rw [hinput] at hawaiting
      refine .submit c ⟨rfl, rfl, rfl⟩ ?_ hawaiting (by rw [hheld]) hremainders
      simp [Journal.ofRequest, Dispatcher.enteredOnRequest, hinput]
  | false =>
      rw [hinput] at hawaiting
      refine .still ⟨rfl, rfl, rfl⟩ ?_ hawaiting (by rw [hheld]) hremainders
      simp [Journal.ofRequest, Dispatcher.enteredOnRequest, hinput]

/-- Every move is of one of the five kinds. -/
theorem shift_of_passes {crew : Crew σ} {p q : Pool σ} {k : Journal}
    (horders : p.dispatcher.orders = []) (htidy : p.dispatcher.remainders.Tidy)
    (h : Passes crew p k q) : Shift crew p k q := by
  cases h with
  | work seated told => exact shift_of_work seated told
  | report seated speaks => exact shift_of_report seated speaks
  | reply going arrived reacts delivers => 
      exact shift_of_reply horders htidy arrived reacts delivers rfl
  | @request request requests seats going arrived delivers =>
      cases request with
      | submit c => exact shift_of_submit horders delivers rfl rfl
      | close =>
          exact shift_of_settles (Dispatcher.onClose_settles p.dispatcher) horders rfl rfl rfl
            delivers rfl (returned_deliver delivers rfl) ⟨rfl, rfl, rfl⟩ rfl
  | noticeLeft going left silent delivers =>
      exact shift_of_settles (Dispatcher.onClose_settles p.dispatcher) horders rfl rfl rfl
        delivers rfl (returned_deliver delivers rfl) ⟨rfl, rfl, rfl⟩ rfl
  | ask request here => exact .still ⟨rfl, rfl, rfl⟩ rfl (.refl _) (.refl _) rfl
  | seeWanted => exact .still ⟨rfl, rfl, rfl⟩ rfl (.refl _) (.refl _) rfl
  | leave => exact .still ⟨rfl, rfl, rfl⟩ rfl (.refl _) (.refl _) rfl

theorem Shift.tidy {crew : Crew σ} {p q : Pool σ} {k : Journal} (h : Shift crew p k q)
    (htidy : p.dispatcher.remainders.Tidy) : q.dispatcher.remainders.Tidy := by
  cases h with
  | still _ _ _ _ kept | parse _ _ _ _ _ kept | submit _ _ _ _ _ kept =>
      rw [kept]
      exact htidy
  | join _ _ _ _ _ _ inserts => exact inserts.tidy
  | flush _ _ _ _ _ emptied =>
      rw [emptied]
      exact ⟨List.nodup_nil, fun _ h => absurd h List.not_mem_nil⟩

/-- No worker reports a result before everything else it says about the job. -/
def Voiced (p : Pool σ) : Prop := ∀ worker, Concludes (p.voice worker)

theorem concludes_carryOut (crew : Crew σ) (what : Dispatch) (memory : σ) :
    Concludes (crew.carryOut what memory).value.1 := by
  cases what with
  | job job =>
      simp only [Crew.carryOut, Answer.map]
      cases hrun : (Worker.runJob crew.parser crew.batch job memory).value with
      | ok replies =>
          obtain ⟨outcome, rfl⟩ := runJob_replies hrun
          exact concludes_replies _ _
      | error crash => exact ⟨fun h => absurd h Bool.false_ne_true, trivial⟩
  | noJob => exact ⟨fun h => absurd h Bool.false_ne_true, trivial⟩
  | close => trivial

theorem Voiced.deliver {orders : List (Nat × Dispatch)} {p q : Pool σ} (h : Voiced p)
    (hdeliver : deliver orders p.seats = .ok q.seats) (hreports : q.reports = p.reports) :
    Voiced q := by
  intro worker
  have hboxes := congrArg (·[worker]?) (inboxJobs_deliver hdeliver).2
  simp only [List.getElem?_map] at hboxes
  rw [voice, hreports, hboxes]
  exact h worker

/-- A reply is the first that its worker has to say. -/
theorem Voiced.reply {orders : List (Nat × Dispatch)} {p q : Pool σ} {worker : Nat} {r : Report}
    (h : Voiced p) (harrived : p.reports = (worker, r) :: q.reports)
    (hdeliver : Pool.deliver orders p.seats = .ok q.seats) : Voiced q := by
  intro other
  have hboxes := congrArg (·[other]?) (inboxJobs_deliver hdeliver).2
  simp only [List.getElem?_map] at hboxes
  have hvoice := h other
  rw [voice, harrived, ← hboxes, List.filter_cons] at hvoice
  split at hvoice
  · exact hvoice.2
  · exact hvoice

theorem Voiced.work {crew : Crew σ} {p : Pool σ} {worker : Nat} {seat : Seat} {what : Dispatch}
    (h : Voiced p) (seated : p.seats[worker]? = some seat) :
    Voiced (p.afterWork crew worker seat what) := by
  intro other
  have hvoice := h other
  rw [voice] at hvoice
  simp only [voice, afterWork, List.getElem?_set]
  split
  · subst other
    obtain ⟨hlt, -⟩ := List.getElem?_eq_some_iff.1 seated
    rw [seated] at hvoice
    simp only [hlt, ↓reduceIte, Option.map_some, Option.getD_some] at hvoice ⊢
    rw [← List.append_assoc]
    exact hvoice.append (concludes_carryOut ..)
  · exact hvoice

/-- A report that is sent keeps its place among what the worker says. -/
theorem Voiced.report {p : Pool σ} {worker : Nat} {seat : Seat} {r : Report}
    {more : List Report} (h : Voiced p) (seated : p.seats[worker]? = some seat)
    (speaks : seat.outbox = r :: more) : Voiced (p.afterReport worker seat r more) := by
  intro other
  have hvoice := h other
  rw [voice] at hvoice
  simp only [voice, afterReport, List.getElem?_set]
  by_cases hother : worker = other
  · subst other
    obtain ⟨hlt, -⟩ := List.getElem?_eq_some_iff.1 seated
    rw [seated, Option.map_some, Option.getD_some, speaks] at hvoice
    simpa [hlt] using hvoice
  · simpa [hother] using hvoice

theorem Voiced.passes {crew : Crew σ} {p q : Pool σ} {k : Journal} (h : Voiced p)
    (hp : Passes crew p k q) : Voiced q := by
  cases hp with
  | work seated told => exact h.work seated
  | report seated speaks => exact h.report seated speaks
  | reply going arrived reacts delivers => exact h.reply arrived delivers
  | request going arrived delivers => exact h.deliver delivers rfl
  | noticeLeft going left silent delivers => exact h.deliver delivers rfl
  | ask request here => exact h
  | seeWanted => exact h
  | leave => exact h

/-- The books of a run are in order. -/
structure Steady (counter : JobCounter) (queued : List Chunk) (j : Journal) (p : Pool σ) :
    Prop where
  accounted : Accounted counter queued j p
  voiced : Voiced p
  tidy : p.dispatcher.remainders.Tidy

theorem Steady.passes {crew : Crew σ} {counter : JobCounter} {queued : List Chunk} {j k : Journal}
    {p q : Pool σ} (h : Steady counter queued j p) (hp : Passes crew p k q) :
    Steady counter queued (j ++ k) q ∧ Shift crew p k q := by
  have hshift := shift_of_passes h.accounted.orders h.tidy hp
  exact ⟨⟨h.accounted.passes hp, h.voiced.passes hp, hshift.tidy h.tidy⟩, hshift⟩

/-- Nothing is queued, worked on or on its way. -/
structure Quiet (j : Journal) (p : Pool σ) : Prop where
  awaiting : p.awaiting = []
  returned : p.returned = []
  unseen : p.unseen = []
  results : resultsIn p.pending = []
  lost : j.lost = []

/-- In a quiet pool nothing is on its way: each message about a job would be
followed by a result, and no result is awaited. -/
theorem Steady.quiet {counter : JobCounter} {queued : List Chunk} {j : Journal} {p : Pool σ}
    (h : Steady counter queued j p)
    (hqueue : p.dispatcher.queue.jobs = []) (hflight : p.dispatcher.inFlight = []) :
    Quiet j p := by
  have hidle := h.accounted.inFlight
  rw [hflight] at hidle
  have hidle := List.nil_perm.1 hidle
  simp only [List.append_eq_nil_iff, List.map_eq_nil_iff] at hidle
  obtain ⟨hinbox, hresults, hlost⟩ := hidle
  have hnews : ∀ r ∈ p.pending, r.isNews = false := by
    intro r hr
    obtain ⟨worker, hworker⟩ := exists_mem_voice hr
    refine (h.voiced worker).isNews_eq_false ?_ hworker
    refine List.filterMap_eq_nil_iff.2 fun x hx => ?_
    exact List.filterMap_eq_nil_iff.1 hresults x (mem_pending_of_mem_voice hx)
  constructor
  · rw [Pool.awaiting, hqueue, hinbox]
    rfl
  · refine List.filterMap_eq_nil_iff.2 fun r hr => ?_
    have hr := hnews r hr
    cases r with
    | crashed message => rfl
    | said reply =>
        cases reply with
        | remainder c => cases hr
        | result _ _ | log _ _ | idle => rfl
  · refine List.filterMap_eq_nil_iff.2 fun r hr => ?_
    have hr := hnews r hr
    cases r with
    | crashed message => rfl
    | said reply =>
        cases reply with
        | log _ _ => cases hr
        | result _ _ | remainder _ | idle => rfl
  · exact hresults
  · exact hlost

/-- When a pool starts, the queued chunks await a worker. -/
theorem Steady.start {workers : Nat} {memory : σ} {queued : List Chunk} {closed : Bool}
    {counter : JobCounter} (h : (prepared workers memory queued closed counter).start.halt = none) :
    Steady counter queued
        { handed :=
            jobsTold (prepared workers memory queued closed counter).dispatcher.start.orders }
        (prepared workers memory queued closed counter).start ∧
      (prepared workers memory queued closed counter).start.awaiting.Perm queued ∧
      (prepared workers memory queued closed counter).start.held = [] := by
  have hacc := Accounted.start h
  obtain ⟨seats, hdeliver, -, heq⟩ := proceed_goes_on h
  have hs := (prepared workers memory queued closed counter).dispatcher.start_handsOut
  have hprepared := prepared_eq workers memory queued closed counter
  have hseats : (prepared workers memory queued closed counter).seats =
      List.replicate (max workers 1) {} := by rw [hprepared]; rfl
  have hreports : (prepared workers memory queued closed counter).reports = [] := by
    rw [hprepared]; rfl
  have hremainders :
      (prepared workers memory queued closed counter).start.dispatcher.remainders = {} := by
    rw [Pool.start, heq]
    exact hs.remainders.trans (by rw [hprepared])
  have hvoiced : Voiced (prepared workers memory queued closed counter) := by
    intro worker
    rw [voice, hreports, hseats, List.getElem?_replicate]
    split <;> trivial
  have hpending : (prepared workers memory queued closed counter).pending = [] := by
    simp [pending, hreports, hseats]
  refine ⟨⟨hacc, ?_, ?_⟩, ?_, ?_⟩
  · rw [Pool.start, heq]
    exact hvoiced.deliver hdeliver rfl
  · rw [hremainders]
    exact ⟨List.nodup_nil, fun _ h => absurd h List.not_mem_nil⟩
  · have hawaiting := awaiting_of_serves
      (q := (prepared workers memory queued closed counter).start)
      (by rw [hprepared]) rfl hs.serves (by rw [Pool.start, heq]; exact hdeliver)
      (by rw [Pool.start, heq])
    have hqueued : (prepared workers memory queued closed counter).awaiting = queued := by
      rw [awaiting, hseats, inboxJobs_replicate, hprepared]
      simp [Job.map_payload_numbered]
    rwa [hqueued] at hawaiting
  · have hreturned := returned_deliver (p := prepared workers memory queued closed counter)
      (q := (prepared workers memory queued closed counter).start)
      (by rw [Pool.start, heq]; exact hdeliver)
      (by rw [Pool.start, heq])
    rw [held, hremainders, hreturned, returned, hpending]
    rfl

/-- What holds when a pool starts and survives each of the five kinds of moves
holds after every run that goes on. -/
theorem shift_induction {crew : Crew σ} {workers : Nat} {memory : σ} {queued : List Chunk}
    {closed : Bool} {counter : JobCounter} {moves : List Move} {q : Pool σ}
    (holds : Journal → Pool σ → Prop)
    (start : ∀ handed p, p.awaiting.Perm queued → p.held = [] → holds { handed } p)
    (step : ∀ j k p q, Steady counter queued j p → holds j p → Shift crew p k q → holds (j ++ k) q)
    (hrun : (prepared workers memory queued closed counter).start.replay? crew moves = some q)
    (hq : q.halt = none) :
    Steady counter queued ((prepared workers memory queued closed counter).journal crew moves) q ∧
      holds ((prepared workers memory queued closed counter).journal crew moves) q := by
  refine run_induction (fun j p => Steady counter queued j p ∧ holds j p) (fun h => ?_)
    (fun j k p q hp hpasses => ?_) hrun hq
  · obtain ⟨hsteady, hawaiting, hheld⟩ := Steady.start h
    exact ⟨hsteady, start _ _ hawaiting hheld⟩
  · obtain ⟨hsteady, hshift⟩ := hp.1.passes hpasses
    exact ⟨hsteady, step j k p q hp.1 hp.2 hshift⟩

/-- At the end of a run that ends well, all is quiet and nothing is held. -/
theorem ended_of_replay {crew : Crew σ} {workers : Nat} {memory : σ} {queued : List Chunk}
    {closed : Bool} {counter : JobCounter} {moves : List Move} {q : Pool σ}
    (hrun : (prepared workers memory queued closed counter).start.replay? crew moves = some q)
    (hhalt : q.halt = none) (hdone : q.dispatcher.phase = .done) :
    Steady counter queued ((prepared workers memory queued closed counter).journal crew moves) q ∧
      Quiet ((prepared workers memory queued closed counter).journal crew moves) q ∧
        q.held = [] := by
  have hsteady := (shift_induction (fun _ _ => True) (fun _ _ _ _ => trivial)
    (fun _ _ _ _ _ _ _ => trivial) hrun hhalt).1
  have hfinished := hsteady.accounted.finished hdone
  have hquiet := hsteady.quiet hfinished.queue hfinished.inFlight
  refine ⟨hsteady, hquiet, ?_⟩
  rw [held, hquiet.returned, Remainders.chunks, hfinished.remainders]
  rfl

/-- The user has seen the messages of the workers, or they are on their way. -/
def Noticed (j : Journal) (p : Pool σ) : Prop :=
  (p.notices ++ p.unseen.map Notice.warning).Perm
    ((j.replies.filterMap Reply.line?).map Notice.warning)

/-- A parser that reports nothing beside its answers leaves it to the workers to
tell the user. -/
def Silent (crew : Crew σ) : Prop :=
  ∀ c clear memory, (crew.parser.parseChunk c clear memory).notices = []

/-- What a parser reports beside its answers depends on the chunk alone. -/
def Remarks (crew : Crew σ) (own : Chunk → List Notice) : Prop :=
  ∀ c clear memory, (crew.parser.parseChunk c clear memory).notices = own c

/-- The user has seen what the parser reported about the chunks, and the messages of
the workers have been seen or are on their way. -/
def Remarked (own : Chunk → List Notice) (j : Journal) (p : Pool σ) : Prop :=
  (p.notices ++ p.unseen.map Notice.warning).Perm
    ((j.replies.filterMap Reply.line?).map Notice.warning ++
      j.taken.flatMap fun given => own given.2.payload)

section

variable {own : Chunk → List Notice}

theorem notices_carryOut {crew : Crew σ} (h : Remarks crew own) (worker : Nat) (what : Dispatch)
    (memory : σ) : (crew.carryOut what memory).notices =
      (Journal.ofWork crew worker memory what).taken.flatMap fun given => own given.2.payload := by
  rw [Journal.ofWork_taken]
  cases what with
  | job job =>
      have hown : (crew.carryOut (.job job) memory).notices = own job.payload := h job.payload _ memory
      simpa [Dispatch.job?] using hown
  | noJob | close => rfl

theorem noticesOf_eq (reply : Reply) :
    noticesOf reply = reply.line?.toList.map Notice.warning := by
  cases reply with
  | log level line => cases level <;> rfl
  | result _ _ | remainder _ | idle => rfl

theorem unseen_deliver {p q : Pool σ} {orders : List (Nat × Dispatch)}
    (h : deliver orders p.seats = .ok q.seats) (hreports : q.reports = p.reports) :
    q.unseen = p.unseen := by
  rw [unseen, pending_deliver h hreports, unseen]

/-- The message of a reply is shown when the reply is taken up. -/
theorem Remarked.reply {j : Journal} {p q : Pool σ} {orders : List (Nat × Dispatch)}
    {worker : Nat} {reply : Reply} (h : Remarked own j p)
    (harrived : p.reports = (worker, .said reply) :: q.reports)
    (hdeliver : deliver orders p.seats = .ok q.seats)
    (hnotices : q.notices = p.notices ++ noticesOf reply) : Remarked own j q := by
  have hunseen : p.unseen = reply.line?.toList ++ q.unseen := by
    rw [unseen, pending_reply harrived hdeliver, unseen]
    cases hline : reply.line? <;> simp [Report.line?, hline]
  rw [Remarked, hunseen, List.map_append, ← List.append_assoc] at h
  rwa [Remarked, hnotices, noticesOf_eq]

theorem Remarked.work {crew : Crew σ} {j : Journal} {p : Pool σ} {worker : Nat} {seat : Seat}
    {what : Dispatch} (hremarks : Remarks crew own) (h : Remarked own j p)
    (seated : p.seats[worker]? = some seat) :
    Remarked own (j ++ .ofWork crew worker p.memory what) (p.afterWork crew worker seat what) := by
  have hunseen := (pending_afterWork crew what seated).filterMap Report.line?
  rw [List.filterMap_append, filterMap_carryOut Report.line? rfl (fun _ => rfl) crew worker]
    at hunseen
  have hnotices : (p.afterWork crew worker seat what).notices = p.notices ++
      (Journal.ofWork crew worker p.memory what).taken.flatMap fun given => own given.2.payload := by
    rw [← notices_carryOut hremarks]
    rfl
  rw [Remarked, Journal.append_replies, Journal.append_taken, hnotices, List.filterMap_append,
    List.map_append, List.flatMap_append, List.perm_iff_count]
  intro notice
  have hbefore := List.Perm.count_eq h notice
  have hsent := (hunseen.map Notice.warning).count_eq notice
  change _ = List.count notice (List.map _ (p.unseen ++ List.filterMap Reply.line? _)) at hsent
  simp only [unseen, List.map_append, List.count_append] at hbefore hsent ⊢
  omega

theorem Remarked.passes {crew : Crew σ} {j k : Journal} {p q : Pool σ}
    (hremarks : Remarks crew own) (h : Remarked own j p) (hp : Passes crew p k q) :
    Remarked own (j ++ k) q := by
  have hsame (hreplies : k.replies = []) (htaken : k.taken = []) (hnotices : q.notices = p.notices)
      (hunseen : q.unseen.Perm p.unseen) : Remarked own (j ++ k) q := by
    rw [Remarked, Journal.append_replies, Journal.append_taken, hreplies, htaken, List.append_nil,
      List.append_nil, hnotices]
    exact ((hunseen.map _).append_left _).trans h
  cases hp with
  | work seated told => exact h.work hremarks seated
  | report seated speaks =>
      exact hsame rfl rfl rfl ((pending_afterReport seated speaks).filterMap Report.line?)
  | @reply worker reply reports d seats going arrived reacts delivers =>
      have hk : Journal.ofReply worker reply p.dispatcher =
          { entered := p.dispatcher.enteredOn reply, handed := jobsTold d.orders } := by
        rw [Journal.ofReply, reacts]
      rw [Remarked, Journal.append_replies, Journal.append_taken, hk, List.append_nil,
        List.append_nil]
      exact h.reply arrived delivers rfl
  | request going arrived delivers =>
      exact hsame rfl rfl rfl (.of_eq (unseen_deliver delivers rfl))
  | noticeLeft going left silent delivers =>
      exact hsame rfl rfl rfl (.of_eq (unseen_deliver delivers rfl))
  | ask request here => exact hsame rfl rfl rfl (.refl _)
  | seeWanted => exact hsame rfl rfl rfl (.refl _)
  | leave => exact hsame rfl rfl rfl (.refl _)

/-- In every run the user has seen what was reported, or will. -/
theorem remarked_of_replay {crew : Crew σ} {workers : Nat} {memory : σ} {queued : List Chunk}
    {closed : Bool} {counter : JobCounter} {moves : List Move} {q : Pool σ}
    (hremarks : Remarks crew own)
    (hrun : (prepared workers memory queued closed counter).start.replay? crew moves = some q)
    (hq : q.halt = none) :
    Remarked own ((prepared workers memory queued closed counter).journal crew moves) q := by
  refine run_induction (Remarked own) (fun h => ?_) (fun _ _ _ _ h hp => h.passes hremarks hp)
    hrun hq
  obtain ⟨seats, hdeliver, -, heq⟩ := proceed_goes_on h
  have hunseen := unseen_deliver (p := prepared workers memory queued closed counter)
    (q := (prepared workers memory queued closed counter).start)
    (by rw [Pool.start, heq]; exact hdeliver)
    (by rw [Pool.start, heq])
  have hnotices : (prepared workers memory queued closed counter).start.notices = [] := by
    rw [Pool.start, heq, prepared_eq]
    rfl
  have hnone : (prepared workers memory queued closed counter).unseen = [] := by
    rw [unseen, pending, prepared_eq]
    simp [ofWorkers]
  rw [Remarked, hnotices, hunseen, hnone]
  exact .refl _

end

/-- In every run the user has seen the messages of the workers, or will. -/
theorem noticed_of_replay {crew : Crew σ} {workers : Nat} {memory : σ} {queued : List Chunk}
    {closed : Bool} {counter : JobCounter} {moves : List Move} {q : Pool σ} (hsilent : Silent crew)
    (hrun : (prepared workers memory queued closed counter).start.replay? crew moves = some q)
    (hq : q.halt = none) :
    Noticed ((prepared workers memory queued closed counter).journal crew moves) q := by
  have hremarks : Remarks crew fun _ => [] := hsilent
  have hremarked := remarked_of_replay hremarks hrun hq
  rwa [Remarked, List.flatMap_eq_nil_iff.2 (fun _ _ => rfl), List.append_nil] at hremarked

end Pool

end ClonePrint
