import Mathlib.Data.List.Infix
import ClonePrint.Proofs.Bookkeeping

/-!
# Whoever feeds a pool is told when it waits

A pool asks for input through a slot that holds one signal. It asks when a worker finds
nothing to do, and a second signal in a full slot is lost. This is enough: a chunk that
arrives goes to a worker, so not all of them wait any more, and the last one that comes back
to wait asks again. A pool that waits has therefore asked since the last chunk arrived, and
it holds nothing that is still to be parsed.
-/
namespace ClonePrint

variable {σ : Type}

namespace Dispatcher

/-- The bookkeeping with a slot that is filled or not. -/
def wanting (filled : Bool) (d : Dispatcher) : Dispatcher := { d with inputWanted := filled }

section
variable (filled : Bool) (worker : Nat) (d : Dispatcher)

@[simp] theorem wanting_queue : (d.wanting filled).queue = d.queue := rfl
@[simp] theorem wanting_isQuiet : (d.wanting filled).isQuiet = d.isQuiet := rfl
@[simp] theorem wanting_remainders : (d.wanting filled).remainders = d.remainders := rfl
@[simp] theorem wanting_phase : (d.wanting filled).phase = d.phase := rfl

theorem dispatchNext_wanting :
    (d.wanting filled).dispatchNext worker = (d.dispatchNext worker).wanting filled := by
  unfold dispatchNext
  rw [wanting_queue]
  split <;> rfl

theorem wake_wanting (workers : List Nat) :
    wake workers (d.wanting filled) = (wake workers d).wanting filled := by
  induction workers generalizing d with
  | nil => rfl
  | cons worker more ih =>
      rw [wake, wake, wanting_queue]
      split
      · rfl
      · rw [dispatchNext_wanting, ih]

theorem wakeIdle_wanting : (d.wanting filled).wakeIdle = d.wakeIdle.wanting filled :=
  wake_wanting filled d d.idle

theorem enqueueAll_wanting (cs : List Chunk) :
    (d.wanting filled).enqueueAll cs = (d.enqueueAll cs).wanting filled := by
  rw [enqueueAll_eq, enqueueAll_eq]
  rfl

theorem settle_wanting : (d.wanting filled).settle = d.settle.wanting filled := by
  unfold settle
  rw [wanting_isQuiet, wanting_remainders, wanting_phase]
  split
  · rfl
  · split
    · have hflush := enqueueAll_wanting filled { d with remainders := {} } d.remainders.leftovers
      exact (congrArg wakeIdle hflush).trans (wakeIdle_wanting filled _)
    · split
      · rw [closeIdle_eq, closeIdle_eq]
        rfl
      · rfl

/-- A worker that finds nothing to do fills the slot, and whether the slot was filled plays no
part in anything else. -/
theorem onIdle_wanting : (d.wanting filled).onIdle worker =
    (d.onIdle worker).wanting (filled || (d.queue.isEmpty && d.phase.acceptsInput)) := by
  have hparked (d : Dispatcher) : d.onIdle worker = (d.parked worker).wakeIdle.settle := rfl
  have hslot : (d.wanting filled).parked worker =
      (d.parked worker).wanting (filled || (d.queue.isEmpty && d.phase.acceptsInput)) := rfl
  rw [hparked, hparked, hslot, ← settle_wanting, wakeIdle_wanting]

end

theorem onIdle_inputWanted (worker : Nat) (d : Dispatcher) : (d.onIdle worker).inputWanted =
    (d.inputWanted || (d.queue.isEmpty && d.phase.acceptsInput)) :=
  congrArg inputWanted (onIdle_wanting d.inputWanted worker d)

theorem wake_idle_subset (workers : List Nat) (d : Dispatcher) :
    (wake workers d).idle ⊆ workers := by
  induction workers generalizing d with
  | nil => exact List.Subset.refl _
  | cons worker more ih =>
      rw [wake]
      split
      · exact List.Subset.refl _
      · exact List.subset_cons_of_subset worker (ih _)

/-- Only a worker that says so begins to wait. -/
theorem onReply_idle_subset {worker : Nat} {reply : Reply} {d d' : Dispatcher}
    (h : d.onReply worker reply = .ok d') (hreply : reply ≠ .idle) : d'.idle ⊆ d.idle := by
  cases reply with
  | idle => exact absurd rfl hreply
  | log level line =>
      obtain rfl := Except.ok.inj h
      exact List.Subset.refl _
  | result file found =>
      obtain rfl := Except.ok.inj h
      rw [onResult, dispatchNext_idle]
      exact List.Subset.refl _
  | remainder c =>
      rw [onReply, onRemainder] at h
      cases hi : d.remainders.insert c with
      | error cause => simp [hi, Except.map] at h
      | ok parts =>
          simp only [hi, Except.map, Except.ok.injEq] at h
          have hidle : ({ d with remainders := parts.2 }.enqueueAll parts.1).idle = d.idle := by
            rw [enqueueAll_eq]
          rw [← h, wakeIdle, hidle]
          exact wake_idle_subset _ _

end Dispatcher

def Request.isSubmission : Request → Bool
  | submit _ => true
  | close => false

namespace Pool

/-- The move raises the signal for input: it fills the slot if that is empty. -/
def raises (crew : Crew σ) (p : Pool σ) (m : Move) : Bool :=
  ((p.update (Dispatcher.wanting false)).move? crew m).any (·.dispatcher.inputWanted)

/-- After these moves from `start` the signal has been raised, and the dispatcher has taken up
no submission since. -/
inductive Signalled (crew : Crew σ) (start : Pool σ) : List Move → Pool σ → Prop
  | raise {moves : List Move} {p q : Pool σ} {m : Move}
      (run : start.replay? crew moves = some p) (move : p.move? crew m = some q)
      (raises : p.raises crew m = true) : Signalled crew start (moves ++ [m]) q
  | pass {moves : List Move} {p q : Pool σ} {m : Move} (signalled : Signalled crew start moves p)
      (move : p.move? crew m = some q)
      (unheard : ∀ c, .submit c ∉ (p.observe crew m).heard) :
      Signalled crew start (moves ++ [m]) q

/-- Every worker of a running pool waits. -/
structure Parked (p : Pool σ) : Prop where
  running : p.dispatcher.phase = .running
  parked : ∀ worker < p.seats.length, worker ∈ p.dispatcher.idle

/-- A running pool that waits for input: every worker waits, and nobody outside has sent a
request that is still on its way. -/
structure AwaitsInput (p : Pool σ) : Prop extends Parked p where
  going : p.halt = none
  silent : p.requests = []

/-- How many chunks were submitted in the course of several moves. -/
def submissions (moves : List Move) : Nat := (asks moves).countP Request.isSubmission

/-- How many signals were received in the course of several moves. -/
def sightings (moves : List Move) : Nat := moves.count .seeWanted

/-- At any time there have been no more submissions than signals received. -/
def OnePerSignal (moves : List Move) : Prop :=
  ∀ before ∈ moves.inits, submissions before ≤ sightings before

instance (moves : List Move) : Decidable (OnePerSignal moves) :=
  inferInstanceAs (Decidable (∀ before ∈ moves.inits, _))

theorem OnePerSignal.submissions_le {moves : List Move} (h : OnePerSignal moves) :
    submissions moves ≤ sightings moves := h moves ((List.mem_inits _ _).2 (List.prefix_refl _))

theorem OnePerSignal.of_append {moves more : List Move} (h : OnePerSignal (moves ++ more)) :
    OnePerSignal moves := fun before hbefore => by
  have hfront := (List.mem_inits _ _).1 hbefore
  exact h before ((List.mem_inits _ _).2 (hfront.trans (List.prefix_append _ _)))

theorem submissions_append (moves more : List Move) :
    submissions (moves ++ more) = submissions moves + submissions more := by
  rw [submissions, asks, List.filterMap_append, List.countP_append]
  rfl

theorem sightings_append (moves more : List Move) :
    sightings (moves ++ more) = sightings moves + sightings more := List.count_append

section
variable {crew : Crew σ} {workers : Nat} {free : List Nat} {r : Roster} {p q : Pool σ}

/-- A reaction after which every worker waits has told nobody anything. -/
theorem Staffed.orders_eq_nil {d : Dispatcher} (h : Staffed crew free r p)
    (hemploys : Dispatcher.Employs free p.dispatcher d)
    (hall : ∀ worker < p.seats.length, worker ∈ d.idle) : d.orders = [] := by
  have hands := h.hands hemploys
  obtain ⟨-, -, hapart⟩ := List.nodup_append.1 (hands.nodup_iff.2 (Roster.nodup_waiting h.nodup))
  have hnobody : d.orders.map Prod.fst = [] → d.orders = [] := List.map_eq_nil_iff.1
  refine hnobody (List.eq_nil_iff_forall_not_mem.2 fun worker htold => ?_)
  have hwait := hands.mem_iff.1 (List.mem_append_left _ htold)
  have hlt := h.lt_seats (Roster.mem_duties_parked.2 hwait)
  exact hapart worker htold worker (hall worker hlt) rfl

theorem Manned.isQuiet_of_parked (h : Manned crew workers p) (hsome : 0 < workers)
    (hparked : p.Parked) : p.dispatcher.isQuiet = true := by
  obtain ⟨r, hstaffed, -⟩ := h.staffed
  refine (Dispatcher.isQuiet_iff _).2 ⟨?_, ?_⟩
  · by_contra hqueue
    have hidle := hparked.parked 0 (by rw [h.seats]; exact hsome)
    rw [h.rested.waiting hqueue] at hidle
    cases hidle
  · have hnone : r.jobs = [] := by
      refine List.eq_nil_iff_forall_not_mem.2 fun given hgiven => ?_
      have hduty : (given.1, .job given.2) ∈ r.duties p.dispatcher.idle :=
        Roster.mem_duties_job.2 hgiven
      have hwait := hparked.parked _ (hstaffed.lt_seats hduty)
      exact Duty.noConfusion (hstaffed.duty_eq hduty (Roster.mem_duties_parked.2 hwait))
    have hflight := hstaffed.inFlight
    rw [hnone] at hflight
    exact List.perm_nil.1 hflight

/-- Workers that wait have nothing left to report. -/
theorem Manned.reports_eq_nil (h : Manned crew workers p) (hparked : p.Parked) :
    p.reports = [] := by
  obtain ⟨r, hstaffed, -⟩ := h.staffed
  refine List.eq_nil_iff_forall_not_mem.2 fun ⟨worker, report⟩ hsent => ?_
  have hwait := hparked.parked worker (hstaffed.senders _ hsent)
  have hsilent := (hstaffed.serves _ (Roster.mem_duties_parked.2 hwait)).of_parked.2
  have hmem : report ∈ p.voice worker := by
    refine List.mem_append_left _ (List.mem_map.2 ⟨_, List.mem_filter.2 ⟨hsent, ?_⟩, rfl⟩)
    simp
  rw [hsilent] at hmem
  cases hmem

/-- When the last worker comes back to wait, nothing was queued or in flight, and the buffer is
empty afterwards: otherwise its content would have gone out again. -/
theorem Manned.parked_by_idle {worker : Nat} {reports : List (Nat × Report)}
    (h : Manned crew workers p) (arrived : p.reports = (worker, .said .idle) :: reports)
    (hrunning : (p.dispatcher.onIdle worker).phase = .running)
    (hall : ∀ other < p.seats.length, other ∈ (p.dispatcher.onIdle worker).idle)
    (hquiet : (p.dispatcher.onIdle worker).isQuiet = true) :
    (p.dispatcher.onIdle worker).orders = [] ∧ p.dispatcher.queue.jobs = [] ∧
      p.dispatcher.phase = .running ∧ (p.dispatcher.onIdle worker).remainders.files = [] := by
  obtain ⟨r, hstaffed, -⟩ := h.staffed
  obtain ⟨r', htaken, -⟩ := hstaffed.take arrived
  have horders : (p.dispatcher.onIdle worker).orders = [] :=
    htaken.orders_eq_nil (Dispatcher.onReply_employs rfl) hall
  have hsettles := p.dispatcher.onIdle_settles worker
  obtain ⟨hqueue, hflight⟩ := (Dispatcher.isQuiet_iff _).1 hquiet
  have hstream := hsettles.serves.stream
  simp only [Dispatcher.stream, horders, hqueue, hstaffed.orders, jobsTold_nil, List.map_nil,
    List.append_nil, List.nil_append, List.nil_eq, List.append_eq_nil_iff] at hstream
  have hbefore := hsettles.serves.inFlight p.dispatcher.inFlight
    (by rw [hstaffed.orders]; exact .refl _)
  rw [horders, hflight] at hbefore
  have hstill := (Dispatcher.isQuiet_iff _).2 ⟨hstream.1, List.nil_perm.1 hbefore⟩
  refine ⟨horders, hstream.1, ?_, ?_⟩
  · rcases hsettles.phase with hphase | ⟨-, hdone, -⟩
    · rw [← hphase, hrunning]
    · rw [hdone] at hrunning
      cases hrunning
  · rw [hsettles.remainders, hstill]
    rfl

/-- A worker that finds an empty queue raises the signal. -/
theorem raises_of_idle {worker : Nat} {reports : List (Nat × Report)} (going : p.isOver = false)
    (arrived : p.reports = (worker, .said .idle) :: reports)
    (horders : (p.dispatcher.onIdle worker).orders = [])
    (hqueue : p.dispatcher.queue.jobs = []) (hphase : p.dispatcher.phase = .running) :
    p.raises crew .takeReport = true := by
  have hgoing : (p.update (Dispatcher.wanting false)).isOver = false := going
  have harrived : (p.update (Dispatcher.wanting false)).reports = _ := arrived
  have hidle := Dispatcher.onIdle_wanting false worker p.dispatcher
  have hasks : (p.dispatcher.queue.isEmpty && p.dispatcher.phase.acceptsInput) = true := by
    simp [JobQueue.isEmpty, hqueue, hphase, Phase.acceptsInput]
  rw [hasks, Bool.false_or] at hidle
  have hdispatcher : (p.update (Dispatcher.wanting false)).dispatcher.onReply worker .idle =
      .ok ((p.dispatcher.onIdle worker).wanting true) := congrArg Except.ok hidle
  simp [raises, move?, hgoing, harrived, receive, hdispatcher, proceed, Dispatcher.wanting,
    horders, deliver]

end

/-- What is known of a pool whose workers all wait: it has raised the signal since it last took
up a submission. A signal that is no longer in the slot was received, and a submission that is
still on its way does not answer it yet. -/
structure Heeded (crew : Crew σ) (start : Pool σ) (moves : List Move) (p : Pool σ) : Prop where
  remainders : p.dispatcher.remainders.files = []
  signalled : Signalled crew start moves p
  slot : OnePerSignal moves → p.dispatcher.inputWanted = true ∨
    submissions moves < sightings moves + p.requests.countP Request.isSubmission

section
variable {crew : Crew σ} {workers : Nat} {start p q : Pool σ} {moves : List Move} {m : Move}

theorem Parked.of_same (h : q.Parked) (hphase : q.dispatcher.phase = p.dispatcher.phase)
    (hidle : q.dispatcher.idle = p.dispatcher.idle) (hseats : q.seats.length = p.seats.length) :
    p.Parked where
  running := hphase.symm.trans h.running
  parked worker hlt := by
    rw [← hidle]
    exact h.parked worker (hseats ▸ hlt)

theorem Heeded.pass (h : Heeded crew start moves p) (hm : p.move? crew m = some q)
    (hbuffer : q.dispatcher.remainders = p.dispatcher.remainders)
    (hunheard : (p.observe crew m).heard = [])
    (hslot : OnePerSignal (moves ++ [m]) → p.dispatcher.inputWanted = true ∨
        submissions moves < sightings moves + p.requests.countP Request.isSubmission →
      q.dispatcher.inputWanted = true ∨ submissions (moves ++ [m]) <
        sightings (moves ++ [m]) + q.requests.countP Request.isSubmission) :
    Heeded crew start (moves ++ [m]) q where
  remainders := by rw [hbuffer, h.remainders]
  signalled := .pass h.signalled hm fun c => by rw [hunheard]; exact List.not_mem_nil
  slot hpaced := hslot hpaced (h.slot hpaced.of_append)

theorem heeded_of_takeReport (hmanned : Manned crew workers p) (hnext : Manned crew workers q)
    (hsome : 0 < workers) (hrun : start.replay? crew moves = some p)
    (hm : p.move? crew .takeReport = some q) (hhalt : q.halt = none) (hparked : q.Parked) :
    Heeded crew start (moves ++ [.takeReport]) q := by
  obtain ⟨worker, reply, reports, d, seats, going, -, arrived, reacts, -, rfl⟩ :=
    exists_of_takeReport hm hhalt
  have hseats : seats.length = p.seats.length := hnext.seats.trans hmanned.seats.symm
  have hall : ∀ other < p.seats.length, other ∈ d.idle :=
    fun other hlt => hparked.parked other (hseats ▸ hlt)
  by_cases hreply : reply = .idle
  · subst hreply
    obtain rfl := Except.ok.inj reacts
    obtain ⟨horders, hqueue, hphase, hbuffer⟩ := hmanned.parked_by_idle arrived hparked.running
      hall (hnext.isQuiet_of_parked hsome hparked)
    have hraises : p.raises crew .takeReport = true :=
      raises_of_idle going arrived horders hqueue hphase
    refine ⟨hbuffer, .raise hrun hm hraises, fun _ => .inl ?_⟩
    have hslot := p.dispatcher.onIdle_inputWanted worker
    simpa [JobQueue.isEmpty, hqueue, hphase, Phase.acceptsInput] using hslot
  -- Nobody began to wait just now, so everybody waited before, and yet somebody reported.
  · have hphase : p.dispatcher.phase = .running := by
      rcases Dispatcher.onReply_phase reacts with hphase | ⟨-, hdone, -⟩
      · exact hphase.symm.trans hparked.running
      · cases hdone.symm.trans hparked.running
    have hbefore : p.Parked :=
      ⟨hphase, fun other hlt => Dispatcher.onReply_idle_subset reacts hreply (hall other hlt)⟩
    cases arrived.symm.trans (hmanned.reports_eq_nil hbefore)

/-- A chunk that is accepted goes to a worker that waited. -/
theorem not_parked_of_takeRequest (hmanned : Manned crew workers p)
    (hnext : Manned crew workers q) (hsome : 0 < workers)
    (hm : p.move? crew .takeRequest = some q) (hhalt : q.halt = none) : ¬ q.Parked := by
  intro hparked
  obtain ⟨request, requests, seats, -, -, -, -, rfl⟩ := exists_of_takeRequest hm hhalt
  cases request with
  | close => exact p.dispatcher.onClose_phase_ne_running hparked.running
  | submit c =>
      obtain ⟨r, hstaffed, -⟩ := hmanned.staffed
      have hseats : seats.length = p.seats.length := hnext.seats.trans hmanned.seats.symm
      obtain ⟨hserves, -, -, hphase⟩ := Dispatcher.onSubmit_serves c p.dispatcher
      have hrunning : p.dispatcher.phase = .running := hphase.symm.trans hparked.running
      have horders : (p.dispatcher.onSubmit c).orders = [] :=
        hstaffed.orders_eq_nil (p.dispatcher.onRequest_employs (.submit c))
          fun other hlt => hparked.parked other (hseats ▸ hlt)
      have hqueue : (p.dispatcher.onSubmit c).queue.jobs = [] :=
        ((Dispatcher.isQuiet_iff _).1 (hnext.isQuiet_of_parked hsome hparked)).1
      have hstream := hserves.stream
      simp [Dispatcher.stream, horders, hqueue, hrunning, Phase.acceptsInput, Job.numbered]
        at hstream

/-- One move of a pool: if every worker waits after it, the signal has been raised since the last
submission, by this move or before it. -/
theorem heeded_of_move (hmanned : Manned crew workers p) (hnext : Manned crew workers q)
    (hsome : 0 < workers) (hrun : start.replay? crew moves = some p)
    (hbefore : p.Parked → Heeded crew start moves p) (hm : p.move? crew m = some q)
    (hhalt : q.halt = none) (hparked : q.Parked) : Heeded crew start (moves ++ [m]) q := by
  cases m with
  | work worker =>
      obtain ⟨outbox, what, seated, rfl⟩ := exists_afterWork hm
      have hp : p.Parked := hparked.of_same rfl rfl (hnext.seats.trans hmanned.seats.symm)
      refine (hbefore hp).pass hm rfl ?_ fun _ hslot => ?_
      · simp only [observe, seated, Journal.ofWork_heard]
      · rw [submissions_append, sightings_append]
        exact hslot
  | report worker =>
      obtain ⟨seat, report, more, -, -, rfl⟩ := exists_afterReport hm
      have hp : p.Parked := hparked.of_same rfl rfl (hnext.seats.trans hmanned.seats.symm)
      refine (hbefore hp).pass hm rfl rfl fun _ hslot => ?_
      rw [submissions_append, sightings_append]
      exact hslot
  | takeReport => exact heeded_of_takeReport hmanned hnext hsome hrun hm hhalt hparked
  | takeRequest =>
      exact absurd hparked (not_parked_of_takeRequest hmanned hnext hsome hm hhalt)
  | noticeLeft =>
      obtain ⟨seats, -, -, -, -, -, rfl⟩ := exists_of_noticeLeft hm hhalt
      exact absurd hparked.running p.dispatcher.onClose_phase_ne_running
  | ask request =>
      obtain ⟨-, rfl⟩ := eq_of_ask hm
      have hp : p.Parked := hparked.of_same rfl rfl rfl
      refine (hbefore hp).pass hm rfl rfl fun _ hslot => hslot.imp_right fun hless => ?_
      -- What was submitted just now is on its way.
      have hsent : submissions [.ask request] = [request].countP Request.isSubmission := rfl
      have hseen : sightings [.ask request] = 0 := rfl
      rw [submissions_append, sightings_append, List.countP_append]
      omega
  | seeWanted =>
      obtain rfl := eq_of_seeWanted hm
      have hp : p.Parked := hparked.of_same rfl rfl rfl
      refine (hbefore hp).pass hm rfl rfl fun hpaced _ => .inr ?_
      -- The signal that was received just now is not answered yet.
      have hless := hpaced.of_append.submissions_le
      have hsent : submissions [.seeWanted] = 0 := rfl
      have hseen : sightings [.seeWanted] = 1 := rfl
      rw [submissions_append, sightings_append]
      omega
  | leave =>
      obtain rfl := eq_of_leave hm
      have hp : p.Parked := hparked.of_same rfl rfl rfl
      refine (hbefore hp).pass hm rfl rfl fun _ hslot => ?_
      rw [submissions_append, sightings_append]
      exact hslot

variable {memory : σ} {queued : List Chunk} {closed : Bool} {counter : JobCounter}

theorem idle_start (crew : Crew σ) (workers : Nat) (memory : σ) (queued : List Chunk)
    (closed : Bool) (counter : JobCounter) :
    (prepared workers memory queued closed counter).start.dispatcher.idle = [] := by
  obtain ⟨hhalt, -⟩ := manned_start crew workers memory queued closed counter
  obtain ⟨seats, -, -, hstart⟩ := proceed_goes_on hhalt
  rw [Pool.start, hstart]
  exact (start_keeps _).1.trans (by rw [prepared_eq])

/-- The signal is heeded after every run. -/
theorem heeded_of_replay
    (hrun : (prepared workers memory queued closed counter).start.replay? crew moves = some p)
    (hhalt : p.halt = none) : Manned crew (max workers 1) p ∧
      (p.Parked → Heeded crew (prepared workers memory queued closed counter).start moves p) := by
  have hsome : 0 < max workers 1 := by omega
  induction moves using List.reverseRecOn generalizing p with
  | nil =>
      obtain rfl := Option.some.inj hrun
      obtain ⟨-, hmanned⟩ := manned_start crew workers memory queued closed counter
      refine ⟨hmanned, fun hparked => ?_⟩
      have hfirst := hparked.parked 0 (by rw [hmanned.seats]; exact hsome)
      rw [idle_start crew] at hfirst
      cases hfirst
  | append_singleton moves m ih =>
      rw [replay?_append] at hrun
      obtain ⟨before, hmoves, hlast⟩ := Option.bind_eq_some_iff.1 hrun
      have hm : before.move? crew m = some p := by simpa [replay?] using hlast
      obtain ⟨hgoing, hpasses⟩ := passes_of_move hm hhalt
      obtain ⟨hmanned, hheeded⟩ := ih hmoves hgoing
      have hnext := hmanned.passes hpasses
      exact ⟨hnext, heeded_of_move hmanned hnext hsome hmoves hheeded hm hhalt⟩

end

/-- A pool that waits for input holds nothing that is still to be parsed, and it has raised the
signal since it took up the last submission. Whoever submits one chunk for each signal received
therefore finds a signal in the slot or still owes the answer to one. -/
theorem signalled_while_waiting {crew : Crew σ} {workers : Nat} {memory : σ} {queued : List Chunk}
    {closed : Bool} {counter : JobCounter} {moves : List Move} {p : Pool σ}
    (hrun : (prepared workers memory queued closed counter).start.replay? crew moves = some p)
    (hwaits : p.AwaitsInput) :
    p.dispatcher.Finished ∧
      Signalled crew (prepared workers memory queued closed counter).start moves p ∧
      (OnePerSignal moves →
        p.dispatcher.inputWanted = true ∨ submissions moves < sightings moves) := by
  obtain ⟨hmanned, hheeded⟩ := heeded_of_replay hrun hwaits.going
  have hheeded := hheeded hwaits.toParked
  have hquiet := hmanned.isQuiet_of_parked (by omega) hwaits.toParked
  obtain ⟨hqueue, hflight⟩ := (Dispatcher.isQuiet_iff _).1 hquiet
  refine ⟨⟨hqueue, hflight, hheeded.remainders⟩, hheeded.signalled, fun hpaced => ?_⟩
  have hslot := hheeded.slot hpaced
  rw [hwaits.silent] at hslot
  exact hslot

/-- Two workers ask for input, half a file is submitted and handed back, and once it has been
parsed as it is both workers wait again. -/
theorem signalled_after_half :
    let half : Chunk := ⟨"f", ['b'], 1, 1, 0, true, false, true⟩
    let moves : List Move :=
      [.work 0, .work 1, .report 0, .report 1, .takeReport, .takeReport, .seeWanted,
        .ask (.submit half), .takeRequest, .work 1, .report 1, .takeReport, .report 1,
        .takeReport, .work 1, .report 1, .takeReport, .work 1, .report 1, .takeReport,
        .work 1, .report 1, .takeReport]
    let crew : Crew Unit := ⟨deferring, 0⟩
    ∃ p, (prepared 2 () [] false).start.replay? crew moves = some p ∧ p.AwaitsInput ∧
      OnePerSignal moves ∧ p.dispatcher.Finished ∧
        Signalled crew (prepared 2 () [] false).start moves p ∧
          (p.dispatcher.inputWanted = true ∨ submissions moves < sightings moves) := by
  intro half moves crew
  have hrun : ((prepared 2 () [] false).start.replay? crew moves).map
      (fun p => ((p.dispatcher.phase, p.dispatcher.idle), p.seats.length, p.halt, p.requests)) =
        some ((.running, [1, 0]), 2, none, []) := by decide +kernel
  obtain ⟨p, hp, hstate⟩ := Option.map_eq_some_iff.1 hrun
  simp only [Prod.mk.injEq] at hstate
  obtain ⟨⟨hphase, hidle⟩, hseats, hhalt, hrequests⟩ := hstate
  have hall : ∀ worker < p.seats.length, worker ∈ p.dispatcher.idle := by
    rw [hseats, hidle]
    decide
  have hwaits : p.AwaitsInput := ⟨⟨hphase, hall⟩, hhalt, hrequests⟩
  have hpaced : OnePerSignal moves := by decide
  obtain ⟨hfinished, hsignalled, hslot⟩ := signalled_while_waiting hp hwaits
  exact ⟨p, hp, hwaits, hpaced, hfinished, hsignalled, hslot hpaced⟩

end Pool

end ClonePrint
