import Mathlib.Data.List.Nodup
import ClonePrint.Proofs.Custody
import ClonePrint.Proofs.ExactlyOnce

/-!
# What every worker of a pool is about

Each worker of a running pool owes an answer to a job, owes an answer to being
told that there is none, waits, or was sent home. What lies in its inbox and what
it has reported agree with that. Since orders only go to workers that wait or
have just answered, they can always be delivered: a pool stops early only when a
worker is lost.
-/
namespace ClonePrint

variable {σ : Type}

/-- What a worker is about, seen from the dispatcher. It was given a job of a file, or was told
that there is none, and has not answered. -/
inductive Duty where
  | job (file : String)
  | noJob
  | parked
  | home
deriving Repr, DecidableEq

def Dispatch.duty : Dispatch → Duty
  | job j => .job j.payload.file
  | noJob => .noJob
  | close => .home

/-- How the seat of a worker looks, and what the worker has reported, while it is
about something. -/
inductive Seat.Serves (crew : Crew σ) : Seat → List Report → Duty → Prop
  | told (job : Job Chunk) : Serves crew ⟨some (.job job), [], true⟩ [] (.job job.payload.file)
  | answering {outbox news : List Report} {file : String} (found : List Fingerprint)
      (hnews : ∀ r ∈ news, r.isNews = true) :
      Serves crew ⟨none, outbox, true⟩ (news ++ [.said (.result file found)]) (.job file)
  | lost {outbox : List Report} {job : Job Chunk} {memory : σ} {crash : Crash}
      (ended : (Worker.runJob crew.parser crew.batch job memory).value = .error crash) :
      Serves crew ⟨none, outbox, false⟩
        [.crashed ("panicked on " ++ job.payload.file ++ ": " ++ crash.reason)]
        (.job job.payload.file)
  | called : Serves crew ⟨some .noJob, [], true⟩ [] .noJob
  | calling {outbox : List Report} : Serves crew ⟨none, outbox, true⟩ [.said .idle] .noJob
  | parked : Serves crew ⟨none, [], true⟩ [] .parked
  | leaving : Serves crew ⟨some .close, [], true⟩ [] .home
  | gone : Serves crew ⟨none, [], false⟩ [] .home

theorem Seat.Serves.of_told (crew : Crew σ) (what : Dispatch) :
    Seat.Serves crew ⟨some what, [], true⟩ [] what.duty := by
  cases what with
  | job job => exact .told job
  | noJob => exact .called
  | close => exact .leaving

/-- What a worker reports about a job is its result at the end, unless the worker
is lost. -/
theorem Seat.Serves.of_carryOut {crew : Crew σ} {what : Dispatch} {duty : Duty} (memory : σ)
    (h : Seat.Serves crew ⟨some what, [], true⟩ [] duty) :
    Seat.Serves crew
      ⟨none, (crew.carryOut what memory).value.1, (crew.carryOut what memory).value.2⟩
      (crew.carryOut what memory).value.1 duty := by
  cases h with
  | told job =>
      simp only [Crew.carryOut, Answer.map]
      cases hrun : (Worker.runJob crew.parser crew.batch job memory).value with
      | error crash => exact .lost hrun
      | ok replies =>
          obtain ⟨outcome, rfl⟩ := runJob_replies hrun
          simp only [Worker.replies, List.map_append]
          refine .answering outcome.found fun report hreport => ?_
          rcases List.mem_append.1 hreport with hwarn | hrest
          · simp only [List.map_map, List.mem_map, Function.comp_apply] at hwarn
            obtain ⟨line, -, rfl⟩ := hwarn
            rfl
          · simp only [List.mem_map, Option.mem_toList, Option.map_eq_some_iff] at hrest
            obtain ⟨reply, ⟨c, -, rfl⟩, rfl⟩ := hrest
            rfl
  | called => exact .calling
  | leaving => exact .gone

/-- Which workers owe an answer, and which were sent home. -/
structure Roster where
  jobs : List (Nat × String) := []
  called : List Nat := []
  home : List Nat := []

namespace Roster

/-- What every worker is about, given those that wait. -/
def duties (r : Roster) (waiting : List Nat) : List (Nat × Duty) :=
  r.jobs.map (fun given => (given.1, .job given.2)) ++ (r.called.map (·, .noJob) ++
    (waiting.map (·, .parked) ++ r.home.map (·, .home)))

def after (r : Roster) (orders : List (Nat × Dispatch)) : Roster where
  jobs := (jobsTold orders).map (fun given => (given.1, fileOfJob given)) ++ r.jobs
  called := calledIdle orders ++ r.called
  home := sentHome orders ++ r.home

theorem map_fst_duties (r : Roster) (waiting : List Nat) :
    (r.duties waiting).map Prod.fst =
      r.jobs.map Prod.fst ++ (r.called ++ (waiting ++ r.home)) := by
  simp [duties, Function.comp_def]

variable {r : Roster} {waiting : List Nat} {worker : Nat}

theorem mem_duties_job {file : String} :
    (worker, .job file) ∈ r.duties waiting ↔ (worker, file) ∈ r.jobs := by
  simp [duties]

theorem mem_duties_noJob : (worker, .noJob) ∈ r.duties waiting ↔ worker ∈ r.called := by
  simp [duties]

theorem mem_duties_parked : (worker, .parked) ∈ r.duties waiting ↔ worker ∈ waiting := by
  simp [duties]

theorem mem_duties_home : (worker, .home) ∈ r.duties waiting ↔ worker ∈ r.home := by
  simp [duties]

theorem nodup_jobs (h : ((r.duties waiting).map Prod.fst).Nodup) :
    (r.jobs.map Prod.fst).Nodup := by
  rw [map_fst_duties] at h
  exact (List.nodup_append.1 h).1

theorem nodup_waiting (h : ((r.duties waiting).map Prod.fst).Nodup) : waiting.Nodup := by
  rw [map_fst_duties] at h
  exact (List.nodup_append.1 (List.nodup_append.1 (List.nodup_append.1 h).2.1).2.1).1

/-- A worker is about what it was just told, or it waits, or it is still about the
same. -/
theorem mem_duties_after {orders : List (Nat × Dispatch)} {waiting' : List Nat} {duty : Duty}
    (h : (worker, duty) ∈ (r.after orders).duties waiting') (waiting : List Nat) :
    (∃ what, (worker, what) ∈ orders ∧ what.duty = duty) ∨ (duty = .parked ∧ worker ∈ waiting') ∨
      (duty ≠ .parked ∧ (worker, duty) ∈ r.duties waiting) := by
  cases duty with
  | job file =>
      rcases List.mem_append.1 (mem_duties_job.1 h) with hnew | hold
      · obtain ⟨given, hgiven, heq⟩ := List.mem_map.1 hnew
        obtain ⟨rfl, rfl⟩ := Prod.mk.inj heq
        exact .inl ⟨.job given.2, mem_jobsTold.1 hgiven, rfl⟩
      · exact .inr (.inr ⟨Duty.noConfusion, mem_duties_job.2 hold⟩)
  | noJob =>
      rcases List.mem_append.1 (mem_duties_noJob.1 h) with hnew | hold
      · exact .inl ⟨.noJob, mem_calledIdle.1 hnew, rfl⟩
      · exact .inr (.inr ⟨Duty.noConfusion, mem_duties_noJob.2 hold⟩)
  | parked => exact .inr (.inl ⟨rfl, mem_duties_parked.1 h⟩)
  | home =>
      rcases List.mem_append.1 (mem_duties_home.1 h) with hnew | hold
      · exact .inl ⟨.close, mem_sentHome.1 hnew, rfl⟩
      · exact .inr (.inr ⟨Duty.noConfusion, mem_duties_home.2 hold⟩)

/-- Telling workers at hand something changes what they are about, and nobody is
forgotten. -/
theorem map_fst_duties_after {orders : List (Nat × Dispatch)} {waiting' : List Nat}
    (hands : (orders.map Prod.fst ++ waiting').Perm waiting) :
    (((r.after orders).duties waiting').map Prod.fst).Perm ((r.duties waiting).map Prod.fst) := by
  have htold := map_fst_orders_perm orders
  rw [map_fst_duties, map_fst_duties, List.perm_iff_count]
  rw [List.perm_iff_count] at htold hands
  intro worker
  have htold := htold worker
  have hands := hands worker
  have hjobs : ((jobsTold orders).map fun given => (given.1, fileOfJob given)).map Prod.fst =
      (jobsTold orders).map Prod.fst := by
    rw [List.map_map]
    rfl
  simp only [after, List.map_append, hjobs, List.count_append] at htold hands ⊢
  omega

def relieve (worker : Nat) (r : Roster) : Roster :=
  { r with
    jobs := r.jobs.filter (·.1 ≠ worker)
    called := r.called.filter (· ≠ worker) }

theorem jobs_relieve_of_mem {file : String} (hnodup : ((r.duties waiting).map Prod.fst).Nodup)
    (hjob : (worker, file) ∈ r.jobs) : (r.relieve worker).jobs = r.jobs.erase (worker, file) := by
  have hjobs := nodup_jobs hnodup
  rw [relieve, hjobs.of_map.erase_eq_filter]
  refine List.filter_congr fun given hgiven => ?_
  have hiff : given.1 = worker ↔ given = (worker, file) :=
    ⟨fun heq => List.inj_on_of_nodup_map hjobs hgiven hjob heq, fun heq => by rw [heq]⟩
  refine Bool.eq_iff_iff.2 ?_
  simp [hiff]

theorem jobs_relieve_of_not_mem (hnone : ∀ file, (worker, file) ∉ r.jobs) :
    (r.relieve worker).jobs = r.jobs := by
  refine List.filter_eq_self.2 fun given hgiven => decide_eq_true fun heq => ?_
  exact hnone given.2 (heq ▸ hgiven)

theorem mem_duties_relieve {other : Nat} {duty : Duty} (hnowait : worker ∉ waiting)
    (hnohome : worker ∉ r.home)
    (h : (other, duty) ∈ (r.relieve worker).duties ([worker] ++ waiting)) :
    (other, duty) = (worker, .parked) ∨ other ≠ worker ∧ (other, duty) ∈ r.duties waiting := by
  cases duty with
  | job file =>
      obtain ⟨hmem, hne⟩ := List.mem_filter.1 (mem_duties_job.1 h)
      exact .inr ⟨of_decide_eq_true hne, mem_duties_job.2 hmem⟩
  | noJob =>
      obtain ⟨hmem, hne⟩ := List.mem_filter.1 (mem_duties_noJob.1 h)
      exact .inr ⟨of_decide_eq_true hne, mem_duties_noJob.2 hmem⟩
  | parked =>
      rcases List.mem_cons.1 (mem_duties_parked.1 h) with rfl | hmem
      · exact .inl rfl
      · exact .inr ⟨fun heq => hnowait (heq ▸ hmem), mem_duties_parked.2 hmem⟩
  | home =>
      have hmem : other ∈ r.home := (mem_duties_home (r := r.relieve worker)).1 h
      exact .inr ⟨fun heq => hnohome (heq ▸ hmem), mem_duties_home.2 hmem⟩

theorem map_fst_duties_relieve (hnodup : ((r.duties waiting).map Prod.fst).Nodup)
    (hmem : worker ∈ (r.duties waiting).map Prod.fst) (hnowait : worker ∉ waiting)
    (hnohome : worker ∉ r.home) :
    (((r.relieve worker).duties ([worker] ++ waiting)).map Prod.fst).Perm
      ((r.duties waiting).map Prod.fst) := by
  rw [List.perm_iff_count]
  intro other
  have hone := List.count_eq_one_of_mem hnodup hmem
  have hjobs : ((r.jobs.filter (·.1 ≠ worker)).map Prod.fst) =
      (r.jobs.map Prod.fst).filter (· ≠ worker) := by
    rw [List.filter_map]
    rfl
  rw [map_fst_duties] at hone
  rw [map_fst_duties, map_fst_duties, relieve, hjobs]
  by_cases hother : other = worker
  · subst hother
    have hwaits := List.count_eq_zero.2 hnowait
    have hhomes := List.count_eq_zero.2 hnohome
    have hnone (l : List Nat) : (l.filter (· ≠ other)).count other = 0 :=
      List.count_eq_zero.2 fun hin => of_decide_eq_true (List.mem_filter.1 hin).2 rfl
    simp only [List.count_append, List.cons_append, List.nil_append, List.count_cons_self,
      hnone] at hone ⊢
    omega
  · have hkept (l : List Nat) : (l.filter (· ≠ worker)).count other = l.count other :=
      List.count_filter (decide_eq_true hother)
    simp only [List.count_append, List.cons_append, List.nil_append,
      List.count_cons_of_ne (Ne.symm hother), hkept]

end Roster

namespace Pool

/-- The worker is about something, and its channels look like it. -/
def At (crew : Crew σ) (p : Pool σ) (worker : Nat) (duty : Duty) : Prop :=
  ∃ seat, p.seats[worker]? = some seat ∧ seat.Serves crew (p.voice worker) duty

/-- Every worker is about what the roster says. Those in `free` have just
answered. -/
structure Staffed (crew : Crew σ) (free : List Nat) (r : Roster) (p : Pool σ) : Prop where
  orders : p.dispatcher.orders = []
  everyone : ((r.duties (free ++ p.dispatcher.idle)).map Prod.fst).Perm
    (List.range p.seats.length)
  serves : ∀ entry ∈ r.duties (free ++ p.dispatcher.idle), p.At crew entry.1 entry.2
  workers : p.dispatcher.workers = p.seats.length
  closed : p.dispatcher.closed = r.home.length
  inFlight : p.dispatcher.inFlight.Perm (r.jobs.map Prod.snd)
  senders : ∀ entry ∈ p.reports, entry.1 < p.seats.length

section
variable {crew : Crew σ} {free : List Nat} {r : Roster} {p : Pool σ}

theorem Staffed.nodup (h : Staffed crew free r p) :
    ((r.duties (free ++ p.dispatcher.idle)).map Prod.fst).Nodup :=
  h.everyone.nodup_iff.2 List.nodup_range

theorem Staffed.duty_eq (h : Staffed crew free r p) {worker : Nat} {a b : Duty}
    (ha : (worker, a) ∈ r.duties (free ++ p.dispatcher.idle))
    (hb : (worker, b) ∈ r.duties (free ++ p.dispatcher.idle)) : a = b := by
  exact congrArg Prod.snd (List.inj_on_of_nodup_map h.nodup ha hb rfl)

theorem Staffed.exists_duty (h : Staffed crew free r p) {worker : Nat}
    (hworker : worker < p.seats.length) :
    ∃ duty, (worker, duty) ∈ r.duties (free ++ p.dispatcher.idle) := by
  obtain ⟨entry, hentry, rfl⟩ := List.mem_map.1 (h.everyone.mem_iff.2 (List.mem_range.2 hworker))
  exact ⟨entry.2, hentry⟩

theorem Staffed.lt_seats (h : Staffed crew free r p) {worker : Nat} {duty : Duty}
    (hduty : (worker, duty) ∈ r.duties (free ++ p.dispatcher.idle)) :
    worker < p.seats.length := by
  have hmem := List.mem_map_of_mem (f := Prod.fst) hduty
  exact List.mem_range.1 (h.everyone.mem_iff.1 hmem)

theorem At.of_parked {worker : Nat} (h : p.At crew worker .parked) :
    p.seats[worker]? = some ⟨none, [], true⟩ ∧ p.voice worker = [] := by
  obtain ⟨seat, hseat, hserves⟩ := h
  generalize hvoice : p.voice worker = voice at hserves
  cases hserves with
  | parked => exact ⟨hseat, rfl⟩

theorem getElem?_deliver {orders : List (Nat × Dispatch)} {seats seats' : List Seat} {worker : Nat}
    (h : deliver orders seats = .ok seats') (huntold : worker ∉ orders.map Prod.fst) :
    seats'[worker]? = seats[worker]? := by
  induction orders generalizing seats with
  | nil =>
      simp only [deliver, Except.ok.injEq] at h
      rw [h]
  | cons order orders ih =>
      obtain ⟨other, what⟩ := order
      simp only [List.map_cons, List.mem_cons, not_or] at huntold
      cases hseat : seats[other]? with
      | none => simp [deliver, hseat] at h
      | some seat =>
          simp only [deliver, hseat] at h
          split at h
          · cases h
          · split at h
            · cases h
            · rw [ih h huntold.2, List.getElem?_set_ne (Ne.symm huntold.1)]

theorem exists_deliver_eq_ok {orders : List (Nat × Dispatch)} {seats : List Seat}
    (hnodup : (orders.map Prod.fst).Nodup)
    (hfree : ∀ worker ∈ orders.map Prod.fst, seats[worker]? = some ⟨none, [], true⟩) :
    ∃ seats', deliver orders seats = .ok seats' ∧ seats'.length = seats.length ∧
      ∀ order ∈ orders, seats'[order.1]? = some ⟨some order.2, [], true⟩ := by
  induction orders generalizing seats with
  | nil => exact ⟨seats, rfl, rfl, fun _ h => absurd h List.not_mem_nil⟩
  | cons order orders ih =>
      obtain ⟨worker, what⟩ := order
      simp only [List.map_cons, List.nodup_cons] at hnodup
      obtain ⟨hnew, hnodup⟩ := hnodup
      have hseat := hfree worker (List.mem_cons_self ..)
      have hlt := (List.getElem?_eq_some_iff.1 hseat).1
      have hmore : ∀ other ∈ orders.map Prod.fst,
          (seats.set worker ⟨some what, [], true⟩)[other]? = some ⟨none, [], true⟩ := by
        intro other hother
        have hne : worker ≠ other := fun heq => hnew (heq ▸ hother)
        rw [List.getElem?_set_ne hne]
        exact hfree other (List.mem_cons_of_mem _ hother)
      obtain ⟨seats', hdeliver, hlength, htold⟩ := ih hnodup hmore
      refine ⟨seats', ?_, by rw [hlength, List.length_set], fun order horder => ?_⟩
      · rw [deliver, hseat]
        exact hdeliver
      · rcases List.mem_cons.1 horder with rfl | horder
        · rw [getElem?_deliver hdeliver hnew, List.getElem?_set_self hlt]
        · exact htold order horder

theorem voice_deliver {orders : List (Nat × Dispatch)} {q : Pool σ}
    (h : deliver orders p.seats = .ok q.seats) (hreports : q.reports = p.reports) (worker : Nat) :
    q.voice worker = p.voice worker := by
  have hboxes := congrArg (·[worker]?) (inboxJobs_deliver h).2
  simp only [List.getElem?_map] at hboxes
  rw [voice, voice, hreports, hboxes]

theorem At.told {worker : Nat} {what : Dispatch} {q : Pool σ}
    (hseat : q.seats[worker]? = some ⟨some what, [], true⟩) (hsilent : q.voice worker = []) :
    q.At crew worker what.duty := by
  refine ⟨_, hseat, ?_⟩
  rw [hsilent]
  exact .of_told crew what

/-- Whoever is told something or waits has just answered or waited before. -/
theorem Staffed.hands {others : List Nat} {d : Dispatcher} (h : Staffed crew others r p)
    (hemploys : Dispatcher.Employs free p.dispatcher d) :
    (d.orders.map Prod.fst ++ d.idle).Perm (free ++ p.dispatcher.idle) := by
  have hands := hemploys.hands
  rwa [h.orders, List.map_nil, List.nil_append] at hands

/-- The dispatcher reacts, and its orders are delivered. -/
theorem Staffed.react {d : Dispatcher} (h : Staffed crew free r p)
    (hemploys : Dispatcher.Employs free p.dispatcher d)
    (hflight : d.inFlight.Perm ((jobsTold d.orders).map fileOfJob ++ p.dispatcher.inFlight)) :
    ∃ seats, deliver d.orders p.seats = .ok seats ∧
      Staffed crew [] (r.after d.orders)
        { p with dispatcher := { d with orders := [] }, seats } := by
  have hands := h.hands hemploys
  obtain ⟨hnodup, -, hapart⟩ :=
    List.nodup_append.1 (hands.nodup_iff.2 (Roster.nodup_waiting h.nodup))
  have hparked : ∀ worker ∈ free ++ p.dispatcher.idle, p.At crew worker .parked :=
    fun worker hworker => h.serves (worker, .parked) (Roster.mem_duties_parked.2 hworker)
  -- Only workers at hand are told anything, so their inboxes are empty.
  have htoldParked : ∀ worker ∈ d.orders.map Prod.fst, p.At crew worker .parked :=
    fun worker hworker => hparked worker (hands.mem_iff.1 (List.mem_append_left _ hworker))
  obtain ⟨seats, hdeliver, hlength, htold⟩ := exists_deliver_eq_ok hnodup
    fun worker hworker => (htoldParked worker hworker).of_parked.1
  refine ⟨seats, hdeliver, ?_⟩
  have hvoice (worker : Nat) :
      ({ p with dispatcher := { d with orders := [] }, seats } : Pool σ).voice worker =
        p.voice worker :=
    voice_deliver (p := p) (q := { p with dispatcher := { d with orders := [] }, seats }) hdeliver
      rfl worker
  -- Whoever is told nothing keeps its seat and its voice.
  have hold {worker : Nat} {duty : Duty} (hat : p.At crew worker duty)
      (huntold : worker ∉ d.orders.map Prod.fst) :
      ({ p with dispatcher := { d with orders := [] }, seats } : Pool σ).At crew worker duty := by
    obtain ⟨seat, hseat, hserves⟩ := hat
    exact ⟨seat, (getElem?_deliver hdeliver huntold).trans hseat, by rwa [hvoice]⟩
  constructor
  · rfl
  · rw [List.nil_append, hlength]
    exact (Roster.map_fst_duties_after hands).trans h.everyone
  · rintro ⟨worker, duty⟩ hentry
    rcases Roster.mem_duties_after hentry (free ++ p.dispatcher.idle) with
      ⟨what, horder, rfl⟩ | ⟨rfl, hidle⟩ | ⟨hbusy, hbefore⟩
    · have hsilent := (htoldParked worker (List.mem_map_of_mem horder)).of_parked.2
      exact .told (htold _ horder) ((hvoice worker).trans hsilent)
    · exact hold (hparked worker (hands.mem_iff.1 (List.mem_append_right _ hidle)))
        fun hworker => hapart worker hworker worker hidle rfl
    · refine hold (h.serves _ hbefore) fun hworker => ?_
      have hwait := hands.mem_iff.1 (List.mem_append_left _ hworker)
      exact hbusy (h.duty_eq hbefore (Roster.mem_duties_parked.2 hwait))
  · rw [hlength]
    exact hemploys.workers.trans h.workers
  · have hclosed := hemploys.closed
    have hbefore := h.closed
    rw [h.orders] at hclosed
    simp only [Roster.after, List.length_append, sentHome, List.filter_nil, List.map_nil,
      List.length_nil] at hclosed ⊢
    omega
  · apply hflight.trans
    have hfiles : ((jobsTold d.orders).map fun given => (given.1, fileOfJob given)).map Prod.snd =
        (jobsTold d.orders).map fileOfJob := by simp [Function.comp_def]
    rw [Roster.after, List.map_append, hfiles]
    exact h.inFlight.append_left _
  · rw [hlength]
    exact h.senders

theorem voice_take {worker : Nat} {report : Report} {reports : List (Nat × Report)}
    {d : Dispatcher} (arrived : p.reports = (worker, report) :: reports) (other : Nat) :
    p.voice other = (if worker = other then [report] else []) ++
      ({ p with reports, dispatcher := d } : Pool σ).voice other := by
  simp only [voice, arrived, List.filter_cons]
  split <;> simp_all

theorem At.take {worker other : Nat} {report : Report} {reports : List (Nat × Report)}
    {d : Dispatcher} {duty : Duty} (h : p.At crew other duty)
    (arrived : p.reports = (worker, report) :: reports) (hne : other ≠ worker) :
    ({ p with reports, dispatcher := d } : Pool σ).At crew other duty := by
  obtain ⟨seat, hseat, hserves⟩ := h
  rw [voice_take (d := d) arrived, if_neg (Ne.symm hne), List.nil_append] at hserves
  exact ⟨seat, hseat, hserves⟩

/-- A worker that has answered is free for something else. -/
theorem Staffed.take_answer {worker : Nat} {reply : Reply} {reports : List (Nat × Report)}
    {duty : Duty} (h : Staffed crew [] r p) (arrived : p.reports = (worker, .said reply) :: reports)
    (hduty : (worker, duty) ∈ r.duties p.dispatcher.idle) (hbusy : duty ≠ .parked)
    (haway : duty ≠ .home)
    (hfree : ({ p with reports, dispatcher := p.dispatcher.noting reply } : Pool σ).At crew worker
      .parked)
    (hflight : (p.dispatcher.noting reply).inFlight.Perm ((r.relieve worker).jobs.map Prod.snd)) :
    Staffed crew [worker] (r.relieve worker)
      { p with reports, dispatcher := p.dispatcher.noting reply } := by
  have hidle : (p.dispatcher.noting reply).idle = p.dispatcher.idle := by cases reply <;> rfl
  have hnoted : (p.dispatcher.noting reply).orders = [] ∧
      (p.dispatcher.noting reply).workers = p.seats.length ∧
      (p.dispatcher.noting reply).closed = r.home.length := by
    cases reply <;> exact ⟨h.orders, h.workers, h.closed⟩
  have hnowait : worker ∉ p.dispatcher.idle := fun hmem =>
    hbusy (h.duty_eq hduty (Roster.mem_duties_parked.2 hmem))
  have hnohome : worker ∉ r.home := fun hmem =>
    haway (h.duty_eq hduty (Roster.mem_duties_home.2 hmem))
  constructor
  · exact hnoted.1
  · have hmem := List.mem_map_of_mem (f := Prod.fst) hduty
    refine List.Perm.trans ?_ h.everyone
    rw [hidle]
    exact Roster.map_fst_duties_relieve h.nodup hmem hnowait hnohome
  · rintro ⟨other, duty'⟩ hentry
    rw [hidle] at hentry
    rcases Roster.mem_duties_relieve hnowait hnohome hentry with heq | ⟨hne, hold⟩
    · cases heq
      exact hfree
    · exact (h.serves _ hold).take arrived hne
  · exact hnoted.2.1
  · exact hnoted.2.2
  · exact hflight
  · exact fun entry hentry => h.senders entry (arrived ▸ List.mem_cons_of_mem _ hentry)

/-- A worker that has more to say keeps its job. -/
theorem Staffed.take_news {worker : Nat} {report : Report} {reports : List (Nat × Report)}
    {duty : Duty} (h : Staffed crew [] r p) (arrived : p.reports = (worker, report) :: reports)
    (hduty : (worker, duty) ∈ r.duties p.dispatcher.idle)
    (hstill : ({ p with reports } : Pool σ).At crew worker duty) :
    Staffed crew [] r { p with reports } := by
  refine ⟨h.orders, h.everyone, ?_, h.workers, h.closed, h.inFlight, ?_⟩
  · rintro ⟨other, duty'⟩ hentry
    by_cases hother : other = worker
    · subst hother
      obtain rfl := h.duty_eq hentry hduty
      exact hstill
    · exact (h.serves _ hentry).take arrived hother
  · exact fun entry hentry => h.senders entry (arrived ▸ List.mem_cons_of_mem _ hentry)

/-- A reply is taken off the channel. Unless it is an answer, its worker still
owes one. -/
theorem Staffed.take {worker : Nat} {reply : Reply} {reports : List (Nat × Report)}
    (h : Staffed crew [] r p) (arrived : p.reports = (worker, .said reply) :: reports) :
    ∃ r', Staffed crew (if reply.isAnswer then [worker] else []) r'
        { p with reports, dispatcher := p.dispatcher.noting reply } ∧
      (reply.isAnswer = false → r'.jobs ≠ []) := by
  have hworker := h.senders (worker, .said reply) (by simp [arrived])
  obtain ⟨duty, hduty⟩ := h.exists_duty hworker
  obtain ⟨seat, hseat, hserves⟩ := h.serves _ hduty
  have hvoice := voice_take (d := p.dispatcher.noting reply) arrived worker
  rw [if_pos rfl, List.singleton_append] at hvoice
  generalize hsaid : p.voice worker = voice at hserves
  rw [hvoice] at hsaid
  have hsilent {outbox : List Report} (hseat : p.seats[worker]? = some ⟨none, outbox, true⟩)
      (hdone : ({ p with reports, dispatcher := p.dispatcher.noting reply } :
        Pool σ).voice worker = []) :
      ({ p with reports, dispatcher := p.dispatcher.noting reply } :
        Pool σ).At crew worker .parked := by
    have hbox := (List.append_eq_nil_iff.1 hdone).2
    simp only [hseat, Option.map_some, Option.getD_some] at hbox
    subst hbox
    exact ⟨_, hseat, by rw [hdone]; exact .parked⟩
  -- What the worker is about says what it can have reported first.
  cases hserves with
  | told | called | parked | leaving | gone => cases hsaid
  | lost => cases hsaid
  | calling =>
      obtain ⟨hreply, hdone⟩ := List.cons.inj hsaid
      obtain rfl := Report.said.inj hreply
      refine ⟨r.relieve worker, h.take_answer arrived hduty Duty.noConfusion Duty.noConfusion
        (hsilent hseat hdone) ?_, fun hanswer => by cases hanswer⟩
      rw [Roster.jobs_relieve_of_not_mem fun file hjob =>
        Duty.noConfusion (h.duty_eq hduty (Roster.mem_duties_job.2 hjob))]
      exact h.inFlight
  | @answering outbox news file found hnews =>
      cases news with
      | nil =>
          obtain ⟨hreply, hdone⟩ := List.cons.inj hsaid
          obtain rfl := Report.said.inj hreply
          refine ⟨r.relieve worker, h.take_answer arrived hduty Duty.noConfusion
            Duty.noConfusion (hsilent hseat hdone) ?_, fun hanswer => by cases hanswer⟩
          have hjob := Roster.mem_duties_job.1 hduty
          have herase := (List.perm_cons_erase hjob).map Prod.snd
          have hfiles := (h.inFlight.trans herase).erase file
          rw [List.map_cons, List.erase_cons_head] at hfiles
          rw [Roster.jobs_relieve_of_mem h.nodup hjob]
          exact hfiles
      | cons first news =>
          obtain ⟨hreply, hrest⟩ := List.cons.inj hsaid
          have hnews' := hnews first (List.mem_cons_self ..)
          rw [← hreply] at hnews'
          have hanswer : reply.isAnswer = false := by
            cases reply <;> first | rfl | cases hnews'
          have hnoted : p.dispatcher.noting reply = p.dispatcher := by
            cases reply <;> first | rfl | cases hanswer
          rw [hnoted] at hrest
          rw [hanswer, hnoted]
          refine ⟨r, h.take_news arrived hduty ⟨_, hseat, ?_⟩, fun _ => ?_⟩
          · rw [hrest]
            exact .answering found fun x hx => hnews x (List.mem_cons_of_mem _ hx)
          · exact List.ne_nil_of_mem (Roster.mem_duties_job.1 hduty)

theorem voice_afterWork {worker : Nat} {seat : Seat} (what : Dispatch)
    (seated : p.seats[worker]? = some seat) (other : Nat) :
    (p.afterWork crew worker seat what).voice other =
      p.voice other ++ if worker = other then (crew.carryOut what p.memory).value.1 else [] := by
  have hlt := (List.getElem?_eq_some_iff.1 seated).1
  by_cases hother : worker = other
  · subst hother
    simp [voice, afterWork, List.getElem?_set_self hlt, seated]
  · simp [voice, afterWork, hother]

theorem At.work {worker other : Nat} {seat : Seat} {what : Dispatch} {duty : Duty}
    (seated : p.seats[worker]? = some seat) (told : seat.inbox = some what)
    (h : p.At crew other duty) : (p.afterWork crew worker seat what).At crew other duty := by
  obtain ⟨seat', hseat, hserves⟩ := h
  by_cases hother : worker = other
  · subst hother
    obtain rfl : seat = seat' := Option.some.inj (seated.symm.trans hseat)
    have hlt := (List.getElem?_eq_some_iff.1 seated).1
    generalize hvoice : p.voice worker = voice at hserves
    have hnew : voice = [] ∧ seat = ⟨some what, [], true⟩ := by
      cases hserves <;> first | exact ⟨rfl, by cases told; rfl⟩ | cases told
    obtain ⟨rfl, rfl⟩ := hnew
    refine ⟨_, List.getElem?_set_self hlt, ?_⟩
    rw [voice_afterWork what seated, hvoice, List.nil_append, if_pos rfl]
    exact hserves.of_carryOut p.memory
  · refine ⟨seat', (List.getElem?_set_ne hother).trans hseat, ?_⟩
    rwa [voice_afterWork what seated, if_neg hother, List.append_nil]

theorem voice_afterReport {worker : Nat} {seat : Seat} {report : Report} {more : List Report}
    (seated : p.seats[worker]? = some seat) (speaks : seat.outbox = report :: more)
    (other : Nat) : (p.afterReport worker seat report more).voice other = p.voice other := by
  have hlt := (List.getElem?_eq_some_iff.1 seated).1
  by_cases hother : worker = other
  · subst hother
    simp [voice, afterReport, List.getElem?_set_self hlt, seated, speaks]
  · simp [voice, afterReport, hother]

theorem At.report {worker other : Nat} {seat : Seat} {report : Report} {more : List Report}
    {duty : Duty} (seated : p.seats[worker]? = some seat) (speaks : seat.outbox = report :: more)
    (h : p.At crew other duty) : (p.afterReport worker seat report more).At crew other duty := by
  obtain ⟨seat', hseat, hserves⟩ := h
  rw [← voice_afterReport seated speaks] at hserves
  by_cases hother : worker = other
  · subst hother
    obtain rfl : seat = seat' := Option.some.inj (seated.symm.trans hseat)
    have hlt := (List.getElem?_eq_some_iff.1 seated).1
    refine ⟨_, List.getElem?_set_self hlt, ?_⟩
    generalize (p.afterReport worker seat report more).voice worker = voice at hserves
    cases hserves with
    | told | called | parked | leaving | gone => cases speaks
    | answering found hnews => exact .answering found hnews
    | lost ended => exact .lost ended
    | calling => exact .calling
  · exact ⟨seat', (List.getElem?_set_ne hother).trans hseat, hserves⟩

/-- Moves of a worker change nothing for the dispatcher. -/
theorem Staffed.frame {q : Pool σ} (h : Staffed crew [] r p)
    (hdispatcher : q.dispatcher = p.dispatcher) (hlength : q.seats.length = p.seats.length)
    (hat : ∀ worker duty, p.At crew worker duty → q.At crew worker duty)
    (hsenders : ∀ entry ∈ q.reports, entry.1 < q.seats.length) : Staffed crew [] r q := by
  refine ⟨?_, ?_, ?_, ?_, ?_, ?_, hsenders⟩
  · rw [hdispatcher]
    exact h.orders
  · rw [hdispatcher, hlength]
    exact h.everyone
  · rw [hdispatcher]
    exact fun entry hentry => hat _ _ (h.serves entry hentry)
  · rw [hdispatcher, hlength]
    exact h.workers
  · rw [hdispatcher]
    exact h.closed
  · rw [hdispatcher]
    exact h.inFlight

theorem Staffed.work {worker : Nat} {seat : Seat} {what : Dispatch} (h : Staffed crew [] r p)
    (seated : p.seats[worker]? = some seat) (told : seat.inbox = some what) :
    Staffed crew [] r (p.afterWork crew worker seat what) := by
  have hlength : (p.afterWork crew worker seat what).seats.length = p.seats.length :=
    List.length_set
  refine h.frame rfl hlength (fun _ _ hat => hat.work seated told) ?_
  rw [hlength]
  exact h.senders

theorem Staffed.report {worker : Nat} {seat : Seat} {report : Report} {more : List Report}
    (h : Staffed crew [] r p) (seated : p.seats[worker]? = some seat)
    (speaks : seat.outbox = report :: more) :
    Staffed crew [] r (p.afterReport worker seat report more) := by
  have hlength : (p.afterReport worker seat report more).seats.length = p.seats.length :=
    List.length_set
  refine h.frame rfl hlength (fun _ _ hat => hat.report seated speaks) fun entry hentry => ?_
  rw [hlength]
  rcases List.mem_append.1 hentry with hold | hnew
  · exact h.senders entry hold
  · obtain rfl := List.mem_singleton.1 hnew
    exact (List.getElem?_eq_some_iff.1 seated).1

end

end Pool

end ClonePrint
