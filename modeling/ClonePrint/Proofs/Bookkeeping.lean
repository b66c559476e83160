import Mathlib.Data.List.Count
import ClonePrint.Proofs.Staffing

/-!
# The bookkeeping of a running pool

With a parser that does not crash every worker is at any time in one situation, the
dispatcher knows which, and a pool that drains can always make another step.
Workers are only told something when they wait or have just answered, so no order
finds a full inbox or a worker that has gone.
-/
namespace ClonePrint

variable {σ : Type}

/-- No chunk makes the parser crash. -/
def Parser.NeverCrashes (p : Parser σ) : Prop :=
  ∀ chunk clear memory crash, (p.parseChunk chunk clear memory).value ≠ .error (.crash crash)

theorem Parser.NeverCrashes.runJob {p : Parser σ} (h : p.NeverCrashes) (batch : Nat)
    (job : Job Chunk) (memory : σ) (crash : Crash) :
    (Worker.runJob p batch job memory).value ≠ .error crash := by
  intro hrun
  simp only [Worker.runJob, Answer.map] at hrun
  split at hrun
  · cases hrun
  · cases hrun
  · rename_i hparse
    exact h _ _ _ _ hparse

def Report.answers? : Report → Option Duty
  | said (.result file _) => some (.job file)
  | said .idle => some .noJob
  | _ => none

namespace Pool

/-- Every worker is about something, and whoever waits will be told when there is
something to do or nothing is left. -/
structure Manned (crew : Crew σ) (workers : Nat) (p : Pool σ) : Prop where
  staffed : ∃ r, Staffed crew [] r p ∧ (p.dispatcher.phase = .draining →
    p.dispatcher.isQuiet = true → p.dispatcher.idle = [] ∨ r.called ≠ [])
  rested : p.dispatcher.Rested
  workers : p.dispatcher.workers = workers

section
variable {crew : Crew σ} {workers : Nat} {free : List Nat} {r : Roster} {p q : Pool σ}

theorem Manned.seats (h : Manned crew workers p) : p.seats.length = workers := by
  obtain ⟨r, hstaffed, -⟩ := h.staffed
  exact hstaffed.workers.symm.trans h.workers

theorem Staffed.react_manned {d : Dispatcher} (h : Staffed crew free r p)
    (hemploys : Dispatcher.Employs free p.dispatcher d)
    (hflight : d.inFlight.Perm ((jobsTold d.orders).map fileOfJob ++ p.dispatcher.inFlight))
    (hrested : d.Rested) (hworkers : p.dispatcher.workers = workers)
    (hsettled : d.phase = .draining → d.isQuiet = true →
      d.idle = [] ∨ calledIdle d.orders ++ r.called ≠ []) :
    ∃ seats, deliver d.orders p.seats = .ok seats ∧
      Manned crew workers { p with dispatcher := { d with orders := [] }, seats } := by
  obtain ⟨seats, hdeliver, hstaffed⟩ := h.react hemploys hflight
  refine ⟨seats, hdeliver, ⟨_, hstaffed, hsettled⟩, ?_, hemploys.workers.trans hworkers⟩
  exact ⟨hrested.waiting, hrested.ended, hrested.stocked⟩

/-- What matters here is the bookkeeping, the seats and the reports. -/
theorem Manned.frame (h : Manned crew workers p) (hdispatcher : q.dispatcher = p.dispatcher)
    (hseats : q.seats = p.seats) (hreports : q.reports = p.reports) :
    Manned crew workers q := by
  obtain ⟨r, hstaffed, hsettled⟩ := h.staffed
  have hat (worker : Nat) (duty : Duty) (hat : p.At crew worker duty) : q.At crew worker duty := by
    simpa [At, voice, hseats, hreports] using hat
  refine ⟨⟨r, hstaffed.frame hdispatcher (by rw [hseats]) hat ?_, ?_⟩, ?_, ?_⟩
  · rw [hseats, hreports]
    exact hstaffed.senders
  · rw [hdispatcher]
    exact hsettled
  · rw [hdispatcher]
    exact h.rested
  · rw [hdispatcher]
    exact h.workers

/-- After a reply the dispatcher has settled, or somebody owes it an answer. -/
theorem settled_of_onReply {worker : Nat} {reply : Reply} {d : Dispatcher} {dispatcher : Dispatcher}
    (hrested : dispatcher.Rested) (hreacts : dispatcher.onReply worker reply = .ok d)
    (hbusy : reply.isAnswer = false → d.inFlight ≠ []) (hphase : d.phase = .draining)
    (hquiet : d.isQuiet = true) : d.idle = [] ∨ calledIdle d.orders ≠ [] := by
  cases reply with
  | result file found =>
      simp only [Dispatcher.onReply, Except.ok.injEq] at hreacts
      subst hreacts
      cases hqueue : dispatcher.queue.jobs with
      | nil =>
          refine .inr (List.ne_nil_of_mem (a := worker) (mem_calledIdle.2 ?_))
          simp [Dispatcher.onResult, Dispatcher.dispatchNext, JobQueue.dequeue?, hqueue,
            Dispatcher.tell]
      | cons job jobs =>
          simp [Dispatcher.onResult, Dispatcher.dispatchNext, JobQueue.dequeue?, hqueue,
            Dispatcher.tell, Dispatcher.isQuiet] at hquiet
  | remainder c => exact absurd ((Dispatcher.isQuiet_iff d).1 hquiet).2 (hbusy rfl)
  | log level line => exact absurd ((Dispatcher.isQuiet_iff d).1 hquiet).2 (hbusy rfl)
  | idle =>
      simp only [Dispatcher.onReply, Except.ok.injEq] at hreacts
      subst hreacts
      have hparked : (dispatcher.parked worker).wakeIdle.Rested :=
        Dispatcher.wakeIdle_rested (d := dispatcher.parked worker) hrested.ended hrested.stocked
      exact .inl (hparked.settle_idle hphase hquiet)

theorem Manned.reply {worker : Nat} {reply : Reply} {reports : List (Nat × Report)}
    {d : Dispatcher} (h : Manned crew workers p)
    (arrived : p.reports = (worker, .said reply) :: reports)
    (reacts : p.dispatcher.onReply worker reply = .ok d) :
    ∃ seats, deliver d.orders p.seats = .ok seats ∧
      Manned crew workers { p with reports, dispatcher := { d with orders := [] }, seats } := by
  obtain ⟨r, hstaffed, -⟩ := h.staffed
  obtain ⟨r', htaken, hbusy⟩ := hstaffed.take arrived
  have hemploys := Dispatcher.onReply_employs reacts
  have hnoted : Dispatcher.Employs (if reply.isAnswer then [worker] else [])
      (p.dispatcher.noting reply) d := by
    cases reply <;> exact ⟨hemploys.hands, hemploys.closed, hemploys.workers⟩
  have hflight := (Dispatcher.onReply_serves reacts).1.inFlight (p.dispatcher.noting reply).inFlight
    (by rw [htaken.orders]; exact .refl _)
  have hworkers : (p.dispatcher.noting reply).workers = workers := by
    cases reply <;> exact h.workers
  refine htaken.react_manned hnoted hflight (h.rested.onReply reacts) hworkers
    fun hphase hquiet => ?_
  have hsettled := settled_of_onReply h.rested reacts (fun hnews hnone => ?_) hphase hquiet
  · exact hsettled.imp_right fun hcalled => List.append_ne_nil_of_left_ne_nil hcalled _
  -- A worker that has not answered yet still works on its job.
  · rw [hnone] at hflight
    have hempty := List.append_eq_nil_iff.1 (List.nil_perm.1 hflight)
    have hjobs := htaken.inFlight
    rw [hempty.2] at hjobs
    exact hbusy hnews (List.map_eq_nil_iff.1 (List.nil_perm.1 hjobs))

theorem Manned.request (h : Manned crew workers p) (request : Request)
    (requests : List Request) :
    ∃ seats, deliver (p.dispatcher.onRequest request).orders p.seats = .ok seats ∧
      Manned crew workers
        { p with
          requests
          dispatcher := { p.dispatcher.onRequest request with orders := [] }
          seats } := by
  obtain ⟨r, hstaffed, hsettled⟩ := h.staffed
  have hflight := (p.dispatcher.onRequest_serves request).1.inFlight p.dispatcher.inFlight
    (by rw [hstaffed.orders]; exact .refl _)
  have hnobody : (p.dispatcher.onRequest request).phase = .draining →
      (p.dispatcher.onRequest request).isQuiet = true →
      (p.dispatcher.onRequest request).idle = [] ∨
        calledIdle (p.dispatcher.onRequest request).orders ++ r.called ≠ [] := by
    intro hphase hquiet
    cases request with
    | submit c =>
        have hbefore : p.dispatcher.phase = .draining := by
          rw [← hphase]
          exact (Dispatcher.onSubmit_serves c p.dispatcher).2.2.2.symm
        have hsame : p.dispatcher.onRequest (.submit c) = p.dispatcher := by
          simp [Dispatcher.onRequest, Dispatcher.onSubmit, hbefore, Phase.acceptsInput]
        rw [hsame] at hquiet ⊢
        exact (hsettled hbefore hquiet).imp_right fun hcalled =>
          List.append_ne_nil_of_right_ne_nil _ hcalled
    | close => exact .inl (h.rested.close.settle_idle hphase hquiet)
  obtain ⟨seats, hdeliver, hmanned⟩ := hstaffed.react_manned
    (p.dispatcher.onRequest_employs request) hflight (h.rested.onRequest request) h.workers hnobody
  exact ⟨seats, hdeliver, hmanned.frame rfl rfl rfl⟩

theorem Manned.passes {k : Journal} (h : Manned crew workers p) (hp : Passes crew p k q) :
    Manned crew workers q := by
  obtain ⟨r, hstaffed, hsettled⟩ := h.staffed
  cases hp with
  | work seated told => exact ⟨⟨r, hstaffed.work seated told, hsettled⟩, h.rested, h.workers⟩
  | report seated speaks =>
      exact ⟨⟨r, hstaffed.report seated speaks, hsettled⟩, h.rested, h.workers⟩
  | reply going arrived reacts delivers =>
      obtain ⟨seats, hdeliver, hmanned⟩ := h.reply arrived reacts
      obtain rfl := Except.ok.inj (hdeliver.symm.trans delivers)
      exact hmanned.frame rfl rfl rfl
  | request going arrived delivers =>
      obtain ⟨seats, hdeliver, hmanned⟩ := h.request _ _
      obtain rfl := Except.ok.inj (hdeliver.symm.trans delivers)
      exact hmanned
  | noticeLeft going left silent delivers =>
      obtain ⟨seats, hdeliver, hmanned⟩ := h.request .close p.requests
      obtain rfl := Except.ok.inj (hdeliver.symm.trans delivers)
      exact hmanned.frame rfl rfl rfl
  | ask request here => exact h.frame rfl rfl rfl
  | seeWanted =>
      refine ⟨⟨r, ⟨hstaffed.orders, hstaffed.everyone, hstaffed.serves, hstaffed.workers,
        hstaffed.closed, hstaffed.inFlight, hstaffed.senders⟩, hsettled⟩, ?_, h.workers⟩
      exact ⟨h.rested.waiting, h.rested.ended, h.rested.stocked⟩
  | leave => exact h.frame rfl rfl rfl

/-- While the run is not over some worker owes an answer or waits for more. -/
theorem Staffed.exists_present (h : Staffed crew [] r p) (hrested : p.dispatcher.Rested)
    (hphase : p.dispatcher.phase ≠ .done) :
    r.jobs ≠ [] ∨ r.called ≠ [] ∨ p.dispatcher.idle ≠ [] := by
  by_contra hnone
  simp only [not_or, not_not] at hnone
  obtain ⟨hjobs, hcalled, hidle⟩ := hnone
  have hall := h.everyone.length_eq
  rw [Roster.map_fst_duties, hjobs, hcalled, hidle] at hall
  have hhome : r.home.length = p.seats.length := by simpa using hall
  exact hphase (hrested.ended (h.closed.trans (hhome.trans h.workers.symm)))

/-- A pool is never left by all of its workers before the run is over, unless one
of them was lost and that was reported. -/
theorem Manned.isDeserted (h : Manned crew workers p) (hphase : p.dispatcher.phase ≠ .done) :
    p.isDeserted = false := by
  obtain ⟨r, hstaffed, -⟩ := h.staffed
  have hpresent := hstaffed.exists_present h.rested hphase
  refine Bool.eq_false_iff.2 fun hdeserted => ?_
  simp only [Pool.isDeserted, Bool.and_eq_true, List.isEmpty_iff, List.all_eq_true,
    Bool.not_eq_true'] at hdeserted
  obtain ⟨hreports, hseats⟩ := hdeserted
  have hgone : ∀ worker duty, (worker, duty) ∈ r.duties p.dispatcher.idle → duty = .home := by
    intro worker duty hduty
    obtain ⟨seat, hseat, hserves⟩ := hstaffed.serves _ hduty
    obtain ⟨habsent, hbox⟩ := hseats seat (List.mem_of_getElem? hseat)
    have hsilent : p.voice worker = [] := by simp [voice, hreports, hseat, hbox]
    rw [hsilent] at hserves
    generalize hvoice : ([] : List Report) = voice at hserves
    cases hserves with
    | told | called | parked | leaving | calling => cases habsent
    | answering => cases habsent
    | lost => cases hvoice
    | gone => rfl
  rcases hpresent with hjobs | hcalled | hidle
  · obtain ⟨given, hgiven⟩ := List.exists_mem_of_ne_nil _ hjobs
    exact Duty.noConfusion (hgone _ _ (Roster.mem_duties_job.2 hgiven))
  · obtain ⟨worker, hworker⟩ := List.exists_mem_of_ne_nil _ hcalled
    exact Duty.noConfusion (hgone _ _ (Roster.mem_duties_noJob.2 hworker))
  · obtain ⟨worker, hworker⟩ := List.exists_mem_of_ne_nil _ hidle
    exact Duty.noConfusion (hgone _ _ (Roster.mem_duties_parked.2 hworker))

theorem halt_proceed {d : Dispatcher} {before seats : List Seat}
    (h : deliver d.orders before = .ok seats) (hseats : p.seats = before) (hhalt : p.halt = none) :
    (p.proceed d).halt = none := by
  subst hseats
  simp only [proceed, h]
  exact hhalt

/-- Only the dispatcher stops a pool. -/
theorem halt_of_move {m : Move} (hm : p.move? crew m = some q) (hreport : m ≠ .takeReport)
    (hrequest : m ≠ .takeRequest) (hleft : m ≠ .noticeLeft) : q.halt = p.halt := by
  cases m with
  | takeReport => exact absurd rfl hreport
  | takeRequest => exact absurd rfl hrequest
  | noticeLeft => exact absurd rfl hleft
  | work worker =>
      obtain ⟨outbox, what, -, rfl⟩ := exists_afterWork hm
      rfl
  | report worker =>
      obtain ⟨seat, report, more, -, -, rfl⟩ := exists_afterReport hm
      rfl
  | ask request => rw [(eq_of_ask hm).2]
  | seeWanted =>
      rw [eq_of_seeWanted hm]
      rfl
  | leave => rw [eq_of_leave hm]

theorem Manned.takeReport_goes_on (h : Manned crew workers p) (hhalt : p.halt = none)
    (hm : p.move? crew .takeReport = some q) :
    q.halt = none ∨ ∃ worker message reports, p.reports = (worker, .crashed message) :: reports := by
  simp only [move?] at hm
  split at hm
  · cases hm
  · rename_i hgoing
    split at hm
    · rename_i worker report reports arrived
      cases report with
      | crashed message => exact .inr ⟨worker, message, reports, arrived⟩
      | said reply =>
          obtain ⟨d, hreacts⟩ := p.dispatcher.exists_onReply_eq_ok worker reply
          obtain ⟨seats, hdeliver, -⟩ := h.reply arrived hreacts
          simp only [receive, hreacts, Option.some.injEq] at hm
          rw [← hm]
          exact .inl (halt_proceed hdeliver rfl hhalt)
    -- Without a report the dispatcher has a turn only if every worker has gone.
    · have hphase : p.dispatcher.phase ≠ .done := by
        simp only [isOver, Bool.or_eq_true, decide_eq_true_eq, not_or] at hgoing
        exact hgoing.1
      rw [if_neg (by simp [h.isDeserted hphase])] at hm
      cases hm

theorem Manned.takeRequest_goes_on (h : Manned crew workers p) (hhalt : p.halt = none)
    (hm : p.move? crew .takeRequest = some q) : q.halt = none := by
  simp only [move?] at hm
  split at hm
  · cases hm
  · split at hm
    · cases hm
    · rename_i request requests _
      obtain ⟨seats, hdeliver, -⟩ := h.request request requests
      rw [← Option.some.inj hm]
      cases request <;> exact halt_proceed hdeliver rfl hhalt

theorem Manned.noticeLeft_goes_on (h : Manned crew workers p) (hhalt : p.halt = none)
    (hm : p.move? crew .noticeLeft = some q) : q.halt = none := by
  simp only [move?] at hm
  split at hm
  · cases hm
  · obtain ⟨seats, hdeliver, -⟩ := h.request .close []
    rw [← Option.some.inj hm]
    exact halt_proceed hdeliver rfl hhalt

/-- A pool stops early only when the loss of a worker is reported to it. -/
theorem Manned.goes_on {m : Move} (h : Manned crew workers p) (hhalt : p.halt = none)
    (hm : p.move? crew m = some q) :
    q.halt = none ∨ m = .takeReport ∧
      ∃ worker message reports, p.reports = (worker, .crashed message) :: reports := by
  by_cases hreport : m = .takeReport
  · subst hreport
    exact (h.takeReport_goes_on hhalt hm).imp_right fun hlost => ⟨rfl, hlost⟩
  by_cases hrequest : m = .takeRequest
  · subst hrequest
    exact .inl (h.takeRequest_goes_on hhalt hm)
  by_cases hleft : m = .noticeLeft
  · subst hleft
    exact .inl (h.noticeLeft_goes_on hhalt hm)
  exact .inl ((halt_of_move hm hreport hrequest hleft).trans hhalt)

theorem staffed_prepared (crew : Crew σ) (workers : Nat) (memory : σ) (queued : List Chunk)
    (closed : Bool) (counter : JobCounter) : Staffed crew (List.range (max workers 1)) {}
      (prepared workers memory queued closed counter) := by
  have hprepared := prepared_eq workers memory queued closed counter
  have hseats : (prepared workers memory queued closed counter).seats =
      List.replicate (max workers 1) {} := by rw [hprepared]; rfl
  have hreports : (prepared workers memory queued closed counter).reports = [] := by
    rw [hprepared]; rfl
  have hidle : (prepared workers memory queued closed counter).dispatcher.idle = [] := by
    rw [hprepared]
  constructor
  · rw [hprepared]
  · rw [hidle, hseats, Roster.map_fst_duties]
    simp
  · rintro ⟨worker, duty⟩ hentry
    generalize max workers 1 = staff at hseats hentry
    obtain ⟨hlt, rfl⟩ : worker < staff ∧ .parked = duty := by
      simpa [Roster.duties, hidle] using hentry
    have hseat : (prepared workers memory queued closed counter).seats[worker]? = some {} := by
      rw [hseats, List.getElem?_replicate, if_pos hlt]
    refine ⟨{}, hseat, ?_⟩
    rw [voice, hseat, hreports]
    exact .parked
  · rw [hseats, hprepared, List.length_replicate]
  · rw [hprepared]
    rfl
  · rw [hprepared]
    exact .refl _
  · rw [hreports]
    exact fun _ hentry => absurd hentry List.not_mem_nil

theorem start_keeps (d : Dispatcher) : d.start.idle = d.idle ∧ d.start.closed = d.closed := by
  have hall : ∀ (workers : List Nat) (d : Dispatcher),
      (workers.foldl (fun d worker => d.dispatchNext worker) d).idle = d.idle ∧
        (workers.foldl (fun d worker => d.dispatchNext worker) d).closed = d.closed := by
    intro workers
    induction workers with
    | nil => exact fun _ => ⟨rfl, rfl⟩
    | cons worker more ih =>
        intro d
        obtain ⟨hidle, hclosed⟩ := ih (d.dispatchNext worker)
        refine ⟨hidle.trans (Dispatcher.dispatchNext_idle worker d), hclosed.trans ?_⟩
        unfold Dispatcher.dispatchNext
        split <;> rfl
  exact hall _ d

theorem manned_start (crew : Crew σ) (workers : Nat) (memory : σ) (queued : List Chunk)
    (closed : Bool) (counter : JobCounter) :
    (prepared workers memory queued closed counter).start.halt = none ∧
      Manned crew (max workers 1) (prepared workers memory queued closed counter).start := by
  have hstaffed := staffed_prepared crew workers memory queued closed counter
  have hprepared := prepared_eq workers memory queued closed counter
  generalize prepared workers memory queued closed counter = p at hstaffed hprepared ⊢
  have hworkers : p.dispatcher.workers = max workers 1 := by rw [hprepared]
  have hemploys := p.dispatcher.start_employs
  rw [hworkers] at hemploys
  obtain ⟨hidle, hclosed⟩ := start_keeps p.dispatcher
  have hkept := p.dispatcher.start_handsOut
  have hnobody : p.dispatcher.start.idle = [] := by rw [hidle, hprepared]
  have hrested : p.dispatcher.start.Rested := by
    refine ⟨fun _ => hnobody, fun hall => ?_, ?_⟩
    · rw [hclosed, hemploys.workers, hworkers, hprepared] at hall
      simp only at hall
      omega
    · rw [hkept.remainders, hprepared]
      exact fun _ hentry => absurd hentry List.not_mem_nil
  have hflight := hkept.inFlight p.dispatcher.inFlight (by rw [hstaffed.orders]; exact .refl _)
  obtain ⟨seats, hdeliver, hmanned⟩ := hstaffed.react_manned hemploys hflight hrested hworkers
    fun _ _ => .inl hnobody
  simp only [Pool.start, proceed, hdeliver]
  exact ⟨by rw [hprepared]; rfl, hmanned⟩

def inbox? (p : Pool σ) (worker : Nat) : Option Dispatch := (p.seats[worker]?).bind Seat.inbox

/-- Every situation a worker is in: a dispatch in its inbox, an answer that has not
reached the dispatcher, a place among the idle workers, being gone. -/
def situations (p : Pool σ) (worker : Nat) : List Duty :=
  ((p.inbox? worker).map Dispatch.duty).toList ++
    ((p.voice worker).filterMap Report.answers? ++
      (List.replicate (p.dispatcher.idle.count worker) .parked ++
        if (p.seats[worker]?).any Seat.present then [] else [.home]))

/-- The bookkeeping of a running pool is right, and the pool is not stuck. Each worker is in one
situation. Whoever is told something waits, or its answer is taken up just now. No order finds a
worker gone or its inbox full, no worker is lost, and while the pool drains somebody owes it an
answer. -/
structure Orderly (crew : Crew σ) (workers : Nat) (p : Pool σ) : Prop where
  seats : p.seats.length = workers
  situated : ∀ worker < workers, ∃ duty, p.situations worker = [duty]
  listed : ∀ worker ∈ p.dispatcher.idle, worker < workers
  inFlight : ∀ file, p.dispatcher.inFlight.count file =
    (List.range workers).countP fun worker => p.situations worker = [.job file]
  waiting : p.dispatcher.queue.jobs ≠ [] → p.dispatcher.idle = []
  told : ∀ {m q worker what}, p.move? crew m = some q → q.inbox? worker = some what →
    p.inbox? worker ≠ some what → p.situations worker = [.parked] ∨
      ∃ reply, reply.isAnswer = true ∧ p.reports = (worker, .said reply) :: q.reports
  going : p.halt = none
  steps : p.dispatcher.phase = .draining → ∃ worker < workers,
    (p.situations worker = [.noJob] ∨ ∃ file, p.situations worker = [.job file]) ∧
      ∃ m ∈ [Move.work worker, .report worker, .takeReport], (p.move? crew m).isSome

/-- A worker that is not lost is in the situation that its duty says. -/
theorem Seat.Serves.situations {seat : Seat} {voice : List Report} {duty : Duty}
    (hcalm : crew.parser.NeverCrashes) (h : seat.Serves crew voice duty) :
    (seat.inbox.map Dispatch.duty).toList ++ (voice.filterMap Report.answers? ++
      if seat.present then [] else [.home]) = if duty = .parked then [] else [duty] := by
  cases h with
  | told | called | calling | parked | leaving | gone => rfl
  | answering found hnews =>
      rename_i outbox news file
      have hnone : news.filterMap Report.answers? = [] := by
        refine List.filterMap_eq_nil_iff.2 fun report hreport => ?_
        have hr := hnews report hreport
        unfold Report.isNews at hr
        split at hr
        · rfl
        · rfl
        · cases hr
      rw [List.filterMap_append, hnone]
      rfl
  | lost ended => exact absurd ended (hcalm.runJob _ _ _ _)

theorem Staffed.situations (hcalm : crew.parser.NeverCrashes) (h : Staffed crew [] r p)
    {worker : Nat} {duty : Duty} (hduty : (worker, duty) ∈ r.duties p.dispatcher.idle) :
    p.situations worker = [duty] := by
  obtain ⟨seat, hseat, hserves⟩ := h.serves _ hduty
  have hrest := Seat.Serves.situations hcalm hserves
  have hidle : p.dispatcher.idle.count worker = if duty = .parked then 1 else 0 := by
    have honce : p.dispatcher.idle.Nodup := Roster.nodup_waiting h.nodup
    split
    · rename_i hparked
      rw [hparked] at hduty
      exact List.count_eq_one_of_mem honce (Roster.mem_duties_parked.1 hduty)
    · rename_i hbusy
      refine List.count_eq_zero.2 fun hmem => hbusy ?_
      exact h.duty_eq hduty (Roster.mem_duties_parked.2 hmem)
  simp only [Pool.situations, inbox?, hseat, Option.bind_some, Option.any_some, hidle]
  by_cases hparked : duty = .parked
  · rw [if_pos hparked] at hrest ⊢
    simp only [List.append_eq_nil_iff] at hrest
    obtain ⟨hbox, hvoice, hpresent⟩ := hrest
    rw [hbox, hvoice, hpresent, hparked]
    rfl
  · rw [if_neg hparked] at hrest ⊢
    exact hrest

theorem Staffed.count_inFlight (hcalm : crew.parser.NeverCrashes) (h : Staffed crew [] r p)
    (file : String) : p.dispatcher.inFlight.count file =
      (List.range p.seats.length).countP fun worker => p.situations worker = [.job file] := by
  rw [← h.everyone.countP_eq, List.countP_map, h.inFlight.count_eq]
  have hsame : (r.duties ([] ++ p.dispatcher.idle)).countP
      ((fun worker => decide (p.situations worker = [.job file])) ∘ Prod.fst) =
        (r.duties ([] ++ p.dispatcher.idle)).countP fun entry => entry.2 = .job file := by
    refine List.countP_congr fun entry hentry => ?_
    simp only [Function.comp_apply, h.situations hcalm hentry, List.cons.injEq, and_true]
  rw [hsame, Roster.duties, List.countP_append, List.countP_append, List.countP_append,
    List.countP_map, List.countP_map, List.countP_map, List.countP_map, List.count_eq_countP,
    List.countP_map]
  simp only [Function.comp_def, reduceCtorEq, decide_false, List.countP_false, Duty.job.injEq]
  exact List.countP_congr fun given _ => by simp

/-- A worker that was told something waited, or has just answered. -/
theorem mem_of_employs {d : Dispatcher} {worker : Nat} {what : Dispatch}
    (h : Staffed crew [] r p) (hemploys : Dispatcher.Employs free p.dispatcher d)
    (hdeliver : deliver d.orders p.seats = .ok q.seats) (hafter : q.inbox? worker = some what)
    (hbefore : p.inbox? worker ≠ some what) : worker ∈ free ∨ worker ∈ p.dispatcher.idle := by
  have hands := h.hands hemploys
  have htold : worker ∈ d.orders.map Prod.fst := by
    by_contra huntold
    rw [inbox?, getElem?_deliver hdeliver huntold] at hafter
    exact hbefore hafter
  exact List.mem_append.1 (hands.mem_iff.1 (List.mem_append_left _ htold))

theorem Manned.told (hcalm : crew.parser.NeverCrashes) (h : Manned crew workers p)
    {k : Journal} {worker : Nat} {what : Dispatch} (hp : Passes crew p k q)
    (hafter : q.inbox? worker = some what) (hbefore : p.inbox? worker ≠ some what) :
    p.situations worker = [.parked] ∨
      ∃ reply, reply.isAnswer = true ∧ p.reports = (worker, .said reply) :: q.reports := by
  obtain ⟨r, hstaffed, -⟩ := h.staffed
  have hwaits (hidle : worker ∈ p.dispatcher.idle) : p.situations worker = [.parked] :=
    hstaffed.situations hcalm (Roster.mem_duties_parked.2 hidle)
  cases hp with
  | @work other seat what' seated told =>
      have hlt := (List.getElem?_eq_some_iff.1 seated).1
      rw [inbox?, afterWork] at hafter
      by_cases hother : other = worker
      · subst hother
        simp [List.getElem?_set_self hlt] at hafter
      · rw [List.getElem?_set_ne hother] at hafter
        exact absurd hafter hbefore
  | @report other seat report more seated speaks =>
      have hlt := (List.getElem?_eq_some_iff.1 seated).1
      rw [inbox?, afterReport] at hafter
      by_cases hother : other = worker
      · subst hother
        simp only [List.getElem?_set_self hlt, Option.bind_some] at hafter
        exact absurd (by simp only [inbox?, seated, Option.bind_some, hafter]) hbefore
      · rw [List.getElem?_set_ne hother] at hafter
        exact absurd hafter hbefore
  | reply going arrived reacts delivers =>
      rcases mem_of_employs hstaffed (Dispatcher.onReply_employs reacts) delivers hafter hbefore with
        hfree | hidle
      · split at hfree
        · rename_i hanswer
          obtain rfl := List.mem_singleton.1 hfree
          exact .inr ⟨_, hanswer, arrived⟩
        · cases hfree
      · exact .inl (hwaits hidle)
  | @request request requests seats going arrived delivers =>
      rcases mem_of_employs hstaffed (p.dispatcher.onRequest_employs request) delivers hafter
        hbefore with hfree | hidle
      · cases hfree
      · exact .inl (hwaits hidle)
  | noticeLeft going left silent delivers =>
      rcases mem_of_employs hstaffed p.dispatcher.onClose_employs delivers hafter hbefore with
        hfree | hidle
      · cases hfree
      · exact .inl (hwaits hidle)
  | ask | seeWanted | leave => exact absurd hafter hbefore

/-- A worker that owes an answer can go on, or what it reported can be taken up. -/
theorem exists_move_of_at {worker : Nat} {duty : Duty} (hgoing : p.isOver = false)
    (h : p.At crew worker duty) (hduty : duty ≠ .parked) (haway : duty ≠ .home) :
    ∃ m ∈ [Move.work worker, .report worker, .takeReport], (p.move? crew m).isSome := by
  obtain ⟨⟨inbox, outbox, present⟩, hseat, hserves⟩ := h
  -- A report lies in the outbox, or it has been sent.
  have hvoice (hspeaks : p.voice worker ≠ []) :
      ∃ m ∈ [Move.work worker, .report worker, .takeReport], (p.move? crew m).isSome := by
    cases outbox with
    | cons report more =>
        refine ⟨.report worker, by simp, ?_⟩
        simp [move?, hseat]
    | nil =>
        refine ⟨.takeReport, by simp, ?_⟩
        simp only [voice, hseat, Option.map_some, Option.getD_some, List.append_nil] at hspeaks
        obtain ⟨report, hreport⟩ := List.exists_mem_of_ne_nil _ hspeaks
        obtain ⟨entry, hentry, -⟩ := List.mem_map.1 hreport
        have hsent := List.ne_nil_of_mem (List.mem_filter.1 hentry).1
        obtain ⟨first, reports, hreports⟩ := List.exists_cons_of_ne_nil hsent
        simp [move?, hgoing, hreports]
  generalize hsaid : p.voice worker = voice at hserves hvoice
  cases hserves with
  | told job => exact ⟨.work worker, by simp, by simp [move?, hseat]⟩
  | called => exact ⟨.work worker, by simp, by simp [move?, hseat]⟩
  | answering found hnews => exact hvoice (by simp)
  | lost ended => exact hvoice (by simp)
  | calling => exact hvoice (by simp)
  | parked => exact absurd rfl hduty
  | leaving | gone => exact absurd rfl haway

theorem Manned.steps (hcalm : crew.parser.NeverCrashes) (h : Manned crew workers p)
    (hhalt : p.halt = none) (hphase : p.dispatcher.phase = .draining) : ∃ worker < workers,
      (p.situations worker = [.noJob] ∨ ∃ file, p.situations worker = [.job file]) ∧
        ∃ m ∈ [Move.work worker, .report worker, .takeReport], (p.move? crew m).isSome := by
  have hgoing : p.isOver = false := by simp [isOver, hphase, hhalt]
  obtain ⟨r, hstaffed, hsettled⟩ := h.staffed
  have hworks {worker : Nat} {duty : Duty} (hduty : (worker, duty) ∈ r.duties p.dispatcher.idle)
      (hparked : duty ≠ .parked) (haway : duty ≠ .home) : worker < workers ∧
        ∃ m ∈ [Move.work worker, .report worker, .takeReport], (p.move? crew m).isSome := by
    rw [← h.seats]
    exact ⟨hstaffed.lt_seats hduty,
      exists_move_of_at hgoing (hstaffed.serves _ hduty) hparked haway⟩
  cases hjobs : r.jobs with
  | cons given more =>
      have hduty : (given.1, .job given.2) ∈ r.duties p.dispatcher.idle :=
        Roster.mem_duties_job.2 (by simp [hjobs])
      obtain ⟨hlt, hstep⟩ := hworks hduty Duty.noConfusion Duty.noConfusion
      exact ⟨given.1, hlt, .inr ⟨given.2, hstaffed.situations hcalm hduty⟩, hstep⟩
  | nil =>
      cases hcalled : r.called with
      | cons worker more =>
          have hduty : (worker, .noJob) ∈ r.duties p.dispatcher.idle :=
            Roster.mem_duties_noJob.2 (by simp [hcalled])
          obtain ⟨hlt, hstep⟩ := hworks hduty Duty.noConfusion Duty.noConfusion
          exact ⟨worker, hlt, .inl (hstaffed.situations hcalm hduty), hstep⟩
      | nil =>
          -- Nobody owes an answer, so somebody waits, although nothing is queued or in flight.
          have hidle : p.dispatcher.idle ≠ [] := by
            have hpresent := hstaffed.exists_present h.rested (by simp [hphase])
            simpa [hjobs, hcalled] using hpresent
          have hqueue : p.dispatcher.queue.jobs = [] := by
            by_contra hqueue
            exact hidle (h.rested.waiting hqueue)
          have hflight := hstaffed.inFlight
          rw [hjobs] at hflight
          have hquiet := (Dispatcher.isQuiet_iff _).2 ⟨hqueue, List.perm_nil.1 hflight⟩
          rcases hsettled hphase hquiet with hnone | hsome
          · exact absurd hnone hidle
          · exact absurd hcalled hsome

/-- A worker that is reported as lost did not survive one of its jobs. -/
theorem Manned.exists_lost {worker : Nat} {message : String} {reports : List (Nat × Report)}
    (h : Manned crew workers p) (arrived : p.reports = (worker, .crashed message) :: reports) :
    ∃ job memory crash, (Worker.runJob crew.parser crew.batch job memory).value = .error crash ∧
      message = "panicked on " ++ job.payload.file ++ ": " ++ crash.reason := by
  obtain ⟨r, hstaffed, -⟩ := h.staffed
  have hworker := hstaffed.senders (worker, .crashed message) (by simp [arrived])
  obtain ⟨duty, hduty⟩ := hstaffed.exists_duty hworker
  obtain ⟨seat, hseat, hserves⟩ := hstaffed.serves _ hduty
  have hvoice := voice_take (d := p.dispatcher) arrived worker
  rw [if_pos rfl, List.singleton_append] at hvoice
  generalize p.voice worker = voice at hserves hvoice
  cases hserves with
  | told | called | parked | leaving | gone | calling => cases hvoice
  | @answering outbox news file found hnews =>
      have hmem : Report.crashed message ∈ news ++ [.said (.result file found)] := by simp [hvoice]
      rcases List.mem_append.1 hmem with hmem | hmem
      · cases hnews _ hmem
      · simp at hmem
  | @lost outbox job memory crash ended =>
      exact ⟨job, memory, crash, ended, (Report.crashed.inj (List.cons.inj hvoice).1).symm⟩

theorem Manned.move (hcalm : crew.parser.NeverCrashes) (h : Manned crew workers p)
    (hhalt : p.halt = none) {m : Move} (hm : p.move? crew m = some q) :
    q.halt = none ∧ Passes crew p (p.observe crew m) q ∧ Manned crew workers q := by
  have hgoes : q.halt = none := by
    rcases h.goes_on hhalt hm with hgoes | ⟨-, worker, message, reports, arrived⟩
    · exact hgoes
    · obtain ⟨job, memory, crash, hlost, -⟩ := h.exists_lost arrived
      exact absurd hlost (hcalm.runJob _ _ _ _)
  have hpasses := (passes_of_move hm hgoes).2
  exact ⟨hgoes, hpasses, h.passes hpasses⟩

theorem orderly_of_manned (hcalm : crew.parser.NeverCrashes) (h : Manned crew workers p)
    (hhalt : p.halt = none) : Orderly crew workers p := by
  obtain ⟨r, hstaffed, -⟩ := h.staffed
  have hseats := h.seats
  constructor
  · exact hseats
  · intro worker hworker
    rw [← hseats] at hworker
    obtain ⟨duty, hduty⟩ := hstaffed.exists_duty hworker
    exact ⟨duty, hstaffed.situations hcalm hduty⟩
  · intro worker hworker
    rw [← hseats]
    exact hstaffed.lt_seats (Roster.mem_duties_parked.2 hworker)
  · rw [← hseats]
    exact hstaffed.count_inFlight hcalm
  · exact h.rested.waiting
  · intro m q worker what hm hafter hbefore
    exact h.told hcalm (h.move hcalm hhalt hm).2.1 hafter hbefore
  · exact hhalt
  · exact h.steps hcalm hhalt

end

/-- With a parser that does not crash the bookkeeping is right after every run, however
the moves are ordered, and the pool is never stuck. -/
theorem orderly {crew : Crew σ} {workers : Nat} {memory : σ} {queued : List Chunk}
    {closed : Bool} {counter : JobCounter} {moves : List Move} {p : Pool σ}
    (hcalm : crew.parser.NeverCrashes)
    (hrun : (prepared workers memory queued closed counter).start.replay? crew moves = some p) :
    p.Orderly crew (max workers 1) := by
  obtain ⟨hhalt, hmanned⟩ := replay_induction
    (fun _ p => p.halt = none ∧ Manned crew (max workers 1) p)
    (manned_start crew workers memory queued closed counter)
    (fun _ p m q h hm => ⟨(h.2.move hcalm h.1 hm).1, (h.2.move hcalm h.1 hm).2.2⟩) hrun
  exact orderly_of_manned hcalm hmanned hhalt

/-- Two halves of a file and two workers: the first half has been handed back, and the
input is closed. -/
theorem orderly_while_draining :
    let half : Chunk := ⟨"f", ['a'], 0, 0, 0, false, true, true⟩
    let moves : List Move :=
      [.work 0, .work 1, .report 0, .report 1, .takeReport, .ask .close, .takeRequest, .takeReport]
    let crew : Crew Unit := ⟨deferring, 0⟩
    ∃ p, (prepared 2 () [half] false).start.replay? crew moves = some p ∧
      p.dispatcher.phase = .draining ∧ p.dispatcher.idle = [1] ∧ p.Orderly crew (max 2 1) := by
  intro half moves crew
  have hcalm : crew.parser.NeverCrashes := by
    intro chunk clear memory crash h
    cases h
  have hrun : ((prepared 2 () [half] false).start.replay? crew moves).map
      (fun p => (p.dispatcher.phase, p.dispatcher.idle)) = some (.draining, [1]) := by decide +kernel
  obtain ⟨p, hp, hstate⟩ := Option.map_eq_some_iff.1 hrun
  obtain ⟨hphase, hidle⟩ := Prod.mk.inj hstate
  exact ⟨p, hp, hphase, hidle, orderly hcalm hp⟩

end Pool

end ClonePrint
