import ClonePrint.Proofs.Bookkeeping

/-!
# The loss of a worker comes to light

A worker that does not survive a job says so and nothing else. Its job stays in flight, so
the run cannot end well, and it is told nothing more, so no order fails. What is left is that
the dispatcher hears of the loss, and of a loss it always can hear: the only end of a run in
which workers were lost is the report of one of these losses.
-/
namespace ClonePrint

variable {σ : Type}

/-- A worker that did not survive its job. -/
structure Loss where
  worker : Nat
  job : Job Chunk
  crash : Crash
deriving Repr, DecidableEq

namespace Loss

def message (loss : Loss) : String :=
  "panicked on " ++ loss.job.payload.file ++ ": " ++ loss.crash.reason

/-- What a run comes to that hears of the loss. -/
def cause (loss : Loss) : Error := .workerCrashed loss.worker loss.message

end Loss

/-- What a worker is told may be the end of it. -/
def Crew.loss? (crew : Crew σ) (worker : Nat) (memory : σ) : Dispatch → Option Loss
  | .job job =>
      match (crew.parser.parseChunk job.payload (clearsCache crew.batch job.id) memory).value with
      | .error (.crash crash) => some ⟨worker, job, crash⟩
      | _ => none
  | _ => none

theorem Crew.worker_of_loss? {crew : Crew σ} {worker : Nat} {memory : σ} {what : Dispatch}
    {loss : Loss} (h : crew.loss? worker memory what = some loss) : loss.worker = worker := by
  cases what with
  | noJob | close => cases h
  | job job =>
      simp only [loss?] at h
      split at h
      · rw [← Option.some.inj h]
      · cases h

/-- A worker reports a loss exactly if it is one. -/
theorem Crew.crashed_mem_carryOut (crew : Crew σ) (worker : Nat) (memory : σ) (what : Dispatch)
    (message : String) : .crashed message ∈ (crew.carryOut what memory).value.1 ↔
      ∃ loss, crew.loss? worker memory what = some loss ∧ loss.message = message := by
  cases what with
  | noJob | close => simp [carryOut, loss?]
  | job job =>
      simp only [carryOut, loss?, Worker.runJob, Answer.map]
      cases hparse :
          (crew.parser.parseChunk job.payload (clearsCache crew.batch job.id) memory).value with
      | ok outcome => simp
      | error failure =>
          cases failure with
          | error cause => simp
          | crash crash => simp [Loss.message, eq_comm]

namespace Pool

def loss? (crew : Crew σ) (p : Pool σ) : Move → Option Loss
  | .work worker =>
      match p.seats[worker]? with
      | some ⟨some what, _, _⟩ => crew.loss? worker p.memory what
      | _ => none
  | _ => none

def losses (crew : Crew σ) (p : Pool σ) : List Move → List Loss
  | [] => []
  | m :: moves =>
      (p.loss? crew m).toList ++ ((p.move? crew m).map (losses crew · moves)).getD []

section
variable {crew : Crew σ} {workers : Nat} {p q : Pool σ} {m : Move} {moves more : List Move}

/-- Each loss is a job that was in the inbox of a worker and on which the parser crashed. -/
theorem exists_of_mem_losses {loss : Loss} (h : p.replay? crew moves = some q)
    (hloss : loss ∈ p.losses crew moves) : ∃ before after mid,
      moves = before ++ .work loss.worker :: after ∧ p.replay? crew before = some mid ∧
        mid.inbox? loss.worker = some (.job loss.job) ∧
          (crew.parser.parseChunk loss.job.payload (clearsCache crew.batch loss.job.id)
            mid.memory).value = .error (.crash loss.crash) := by
  induction moves generalizing p with
  | nil => cases hloss
  | cons m moves ih =>
      obtain ⟨next, hm, hnext⟩ := Option.bind_eq_some_iff.1 h
      rw [losses, hm] at hloss
      rcases List.mem_append.1 hloss with hnow | hlater
      · refine ⟨[], moves, p, ?_⟩
        cases m with
        | work worker =>
            simp only [loss?] at hnow
            split at hnow
            · rename_i what outbox present hseat
              cases what with
              | job job =>
                  simp only [Crew.loss?] at hnow
                  split at hnow
                  · rename_i crash hcrash
                    obtain rfl := Option.some.inj (Option.mem_toList.1 hnow)
                    exact ⟨rfl, rfl, by simp [inbox?, hseat], hcrash⟩
                  · cases hnow
              | noJob | close => cases hnow
            · cases hnow
        | report | takeReport | takeRequest | noticeLeft | ask | seeWanted | leave => cases hnow
      · obtain ⟨before, after, mid, rfl, hbefore, hmid⟩ := ih hnext hlater
        refine ⟨m :: before, after, mid, rfl, ?_, hmid⟩
        rw [replay?, hm, Option.bind_some, hbefore]

theorem losses_append (h : p.replay? crew moves = some q) (more : List Move) :
    p.losses crew (moves ++ more) = p.losses crew moves ++ q.losses crew more := by
  induction moves generalizing p with
  | nil =>
      obtain rfl := Option.some.inj h
      rfl
  | cons m moves ih =>
      obtain ⟨next, hm, hnext⟩ := Option.bind_eq_some_iff.1 h
      simp only [List.cons_append, losses, hm, Option.map_some, Option.getD_some, ih hnext,
        List.append_assoc]

/-- What holds at the start of a run and survives every move holds after it. -/
theorem losses_induction {holds : List Loss → Pool σ → Prop} (start : holds [] p)
    (step : ∀ {l p m q}, holds l p → p.move? crew m = some q →
      holds (l ++ (p.loss? crew m).toList) q)
    (h : p.replay? crew moves = some q) : holds (p.losses crew moves) q := by
  have run : ∀ (moves : List Move) (l : List Loss) (p : Pool σ), holds l p →
      p.replay? crew moves = some q → holds (l ++ p.losses crew moves) q := by
    intro moves
    induction moves with
    | nil =>
        intro l p hl hp
        obtain rfl := Option.some.inj hp
        rw [losses, List.append_nil]
        exact hl
    | cons m moves ih =>
        intro l p hl hp
        obtain ⟨next, hm, hnext⟩ := Option.bind_eq_some_iff.1 hp
        rw [losses, hm, ← List.append_assoc]
        exact ih _ next (step hl hm) hnext
  exact run moves [] p start h

theorem voice_proceed (d : Dispatcher) (p : Pool σ) (worker : Nat) :
    (p.proceed d).voice worker = p.voice worker := by
  unfold proceed
  split
  · rfl
  · rename_i seats hdeliver
    exact voice_deliver (p := p) (q := { p with dispatcher := { d with orders := [] }, seats })
      hdeliver rfl worker

theorem reports_proceed (d : Dispatcher) (p : Pool σ) : (p.proceed d).reports = p.reports := by
  unfold proceed
  split <;> rfl

theorem voice_handle (request : Request) (p : Pool σ) (worker : Nat) :
    (p.handle request).voice worker = p.voice worker := by
  cases request <;> exact voice_proceed _ p worker

/-- The dispatcher takes up a reply, or it hears of a loss, or it finds that everybody has
gone. -/
theorem takeReport_cases (h : p.move? crew .takeReport = some q) : p.isOver = false ∧
    ((∃ worker reply reports, p.reports = (worker, .said reply) :: reports ∧
        q.reports = reports ∧ ∀ other, p.voice other =
          (if worker = other then [.said reply] else []) ++ q.voice other) ∨
      (∃ worker message reports, p.reports = (worker, .crashed message) :: reports ∧
        q = { p with reports }.stop (.failed (.workerCrashed worker message))) ∨
      p.reports = [] ∧ q.halt ≠ none) := by
  simp only [move?] at h
  split at h
  · cases h
  · rename_i hgoing
    refine ⟨by simpa using hgoing, ?_⟩
    split at h
    · rename_i worker report reports arrived
      obtain rfl := Option.some.inj h
      cases report with
      | crashed message => exact .inr (.inl ⟨worker, message, reports, arrived, rfl⟩)
      | said reply =>
          obtain ⟨d, hreacts⟩ := p.dispatcher.exists_onReply_eq_ok worker reply
          simp only [receive, hreacts]
          refine .inl ⟨worker, reply, reports, arrived, reports_proceed d _, fun other => ?_⟩
          rw [voice_proceed]
          exact voice_take (d := p.dispatcher) arrived other
    · rename_i hsilent
      split at h
      · obtain rfl := Option.some.inj h
        exact .inr (.inr ⟨hsilent, by simp [stop]⟩)
      · cases h

/-- Whatever passes, the losses that are still to be heard of are those from before and
the one that the move brings. -/
theorem crashed_mem_voice_of_move (hm : p.move? crew m = some q) (hq : q.halt = none)
    (worker : Nat) (message : String) : .crashed message ∈ q.voice worker ↔
      .crashed message ∈ p.voice worker ∨
        ∃ loss, p.loss? crew m = some loss ∧ loss.worker = worker ∧ loss.message = message := by
  cases m with
  | work other =>
      obtain ⟨outbox, what, seated, rfl⟩ := exists_afterWork hm
      have hloss : p.loss? crew (.work other) = crew.loss? other p.memory what := by
        simp only [loss?, seated]
      rw [voice_afterWork what seated, List.mem_append, hloss]
      apply or_congr_right
      by_cases hother : other = worker
      · rw [if_pos hother, crew.crashed_mem_carryOut other]
        refine exists_congr fun loss => and_congr_right fun h => ?_
        exact (and_iff_right ((Crew.worker_of_loss? h).trans hother)).symm
      · rw [if_neg hother]
        refine iff_of_false List.not_mem_nil ?_
        rintro ⟨loss, h, hworker, -⟩
        exact hother ((Crew.worker_of_loss? h).symm.trans hworker)
  | report other =>
      obtain ⟨seat, report, more, seated, speaks, rfl⟩ := exists_afterReport hm
      simp [voice_afterReport seated speaks, loss?]
  | takeReport =>
      obtain ⟨-, ⟨other, reply, reports, -, -, hvoice⟩ | ⟨other, message, reports, -, rfl⟩ |
        ⟨-, hhalt⟩⟩ := takeReport_cases hm
      · rw [hvoice worker]
        split <;> simp [loss?]
      · simp [stop] at hq
      · exact absurd hq hhalt
  | takeRequest =>
      simp only [move?] at hm
      split at hm
      · cases hm
      · split at hm
        · cases hm
        · obtain rfl := Option.some.inj hm
          rw [voice_handle]
          simp [loss?, voice]
  | noticeLeft =>
      simp only [move?] at hm
      split at hm
      · cases hm
      · obtain rfl := Option.some.inj hm
        rw [voice_proceed]
        simp [loss?, voice]
  | ask request =>
      obtain ⟨-, rfl⟩ := eq_of_ask hm
      simp [loss?, voice]
  | seeWanted =>
      obtain rfl := eq_of_seeWanted hm
      simp [loss?, voice, update]
  | leave =>
      obtain rfl := eq_of_leave hm
      simp [loss?, voice]

theorem Manned.lt_of_mem_voice {worker : Nat} {report : Report} (h : Manned crew workers p)
    (hreport : report ∈ p.voice worker) : worker < p.seats.length := by
  obtain ⟨r, hstaffed, -⟩ := h.staffed
  rcases List.mem_append.1 hreport with hsent | hbox
  · obtain ⟨entry, hentry, -⟩ := List.mem_map.1 hsent
    obtain ⟨hmem, hworker⟩ := List.mem_filter.1 hentry
    rw [← of_decide_eq_true hworker]
    exact hstaffed.senders entry hmem
  · cases hseat : p.seats[worker]? with
    | none => simp [hseat] at hbox
    | some seat => exact (List.getElem?_eq_some_iff.1 hseat).1

/-- A lost worker says nothing else, and its job stays in flight. -/
theorem Manned.lost {worker : Nat} {message : String} (h : Manned crew workers p)
    (hlost : .crashed message ∈ p.voice worker) :
    p.voice worker = [.crashed message] ∧ p.dispatcher.inFlight ≠ [] := by
  have hworker := h.lt_of_mem_voice hlost
  obtain ⟨r, hstaffed, -⟩ := h.staffed
  obtain ⟨duty, hduty⟩ := hstaffed.exists_duty hworker
  obtain ⟨seat, -, hserves⟩ := hstaffed.serves _ hduty
  generalize p.voice worker = voice at hserves hlost
  cases hserves with
  | told | called | parked | leaving | gone => cases hlost
  | calling => simp at hlost
  | @answering outbox news file found hnews =>
      rcases List.mem_append.1 hlost with hmem | hmem
      · cases hnews _ hmem
      · simp at hmem
  | @lost outbox job memory crash ended =>
      obtain rfl := Report.crashed.inj (List.mem_singleton.1 hlost)
      refine ⟨rfl, fun hnone => ?_⟩
      have hjob := List.mem_map_of_mem (f := Prod.snd) (Roster.mem_duties_job.1 hduty)
      have hflight := hstaffed.inFlight.mem_iff.2 hjob
      rw [hnone] at hflight
      cases hflight

/-- A pool that has stopped stays as it is. -/
theorem stopped_of_move {halt : Halt} (hm : p.move? crew m = some q) (hhalt : p.halt = some halt) :
    q.halt = some halt ∧ q.dispatcher.phase = p.dispatcher.phase := by
  have hover : p.isOver = true := by simp [isOver, hhalt]
  cases m with
  | work worker =>
      obtain ⟨outbox, what, -, rfl⟩ := exists_afterWork hm
      exact ⟨hhalt, rfl⟩
  | report worker =>
      obtain ⟨seat, report, more, -, -, rfl⟩ := exists_afterReport hm
      exact ⟨hhalt, rfl⟩
  | takeReport | takeRequest | noticeLeft => simp [move?, hover] at hm
  | ask request => simp [move?, Pool.ask, hover, Except.toOption] at hm
  | seeWanted =>
      obtain rfl := eq_of_seeWanted hm
      exact ⟨hhalt, rfl⟩
  | leave =>
      obtain rfl := eq_of_leave hm
      exact ⟨hhalt, rfl⟩

/-- How a run stands that may have lost workers: it goes on and every loss is still to be
heard of, or it has heard of one of them and stopped. -/
inductive Bereft (crew : Crew σ) (workers : Nat) (losses : List Loss) (p : Pool σ) : Prop
  | going (halt : p.halt = none) (manned : Manned crew workers p)
      (unheard : ∀ worker message, .crashed message ∈ p.voice worker ↔
        ∃ loss ∈ losses, loss.worker = worker ∧ loss.message = message)
  | stopped {loss : Loss} (lost : loss ∈ losses) (staff : loss.worker < workers)
      (halt : p.halt = some (.failed loss.cause)) (phase : p.dispatcher.phase ≠ .done)

theorem Bereft.move {losses : List Loss} (h : Bereft crew workers losses p)
    (hm : p.move? crew m = some q) : Bereft crew workers (losses ++ (p.loss? crew m).toList) q := by
  cases h with
  | stopped lost staff halt phase =>
      obtain ⟨hhalt, hphase⟩ := stopped_of_move hm halt
      exact .stopped (List.mem_append_left _ lost) staff hhalt (hphase ▸ phase)
  | going halt manned unheard =>
      rcases manned.goes_on halt hm with hgoes | ⟨rfl, worker, message, reports, arrived⟩
      · refine .going hgoes (manned.passes (passes_of_move hm hgoes).2) fun worker message => ?_
        rw [crashed_mem_voice_of_move hm hgoes, unheard]
        simp [or_and_right, exists_or]
      -- The dispatcher hears of a loss, and it is one that the run has seen.
      · have hvoice := voice_take (d := p.dispatcher) arrived worker
        obtain ⟨loss, hloss, rfl, rfl⟩ := (unheard worker message).1 (by simp [hvoice])
        obtain ⟨r, hstaffed, -⟩ := manned.staffed
        have hstaff := hstaffed.senders (loss.worker, .crashed loss.message) (by simp [arrived])
        rw [manned.seats] at hstaff
        obtain ⟨hgoing, hcases⟩ := takeReport_cases hm
        have hphase : p.dispatcher.phase ≠ .done := phase_ne_done hgoing
        rcases hcases with ⟨_, _, _, hother, -⟩ | ⟨_, _, _, hsame, rfl⟩ | ⟨hnone, -⟩
        · cases arrived.symm.trans hother
        · cases arrived.symm.trans hsame
          exact .stopped (List.mem_append_left _ hloss) hstaff rfl hphase
        · cases arrived.symm.trans hnone

theorem bereft_start (crew : Crew σ) (workers : Nat) (memory : σ) (queued : List Chunk)
    (closed : Bool) (counter : JobCounter) :
    Bereft crew (max workers 1) [] (prepared workers memory queued closed counter).start := by
  obtain ⟨hhalt, hmanned⟩ := manned_start crew workers memory queued closed counter
  refine .going hhalt hmanned fun worker message => ?_
  rw [start, voice_proceed, prepared_eq]
  by_cases hworker : worker < max workers 1 <;> simp [voice, ofWorkers, hworker]

end

section
variable {crew : Crew σ} {workers : Nat} {memory : σ} {queued : List Chunk} {closed : Bool}
  {counter : JobCounter} {moves : List Move} {q : Pool σ}

theorem bereft_of_replay
    (hrun : (prepared workers memory queued closed counter).start.replay? crew moves = some q) :
    Bereft crew (max workers 1)
      ((prepared workers memory queued closed counter).start.losses crew moves) q :=
  losses_induction (bereft_start crew workers memory queued closed counter)
    (fun h hm => h.move hm) hrun

/-- A run that has lost a worker does not end well. -/
theorem phase_ne_done_of_losses
    (hrun : (prepared workers memory queued closed counter).start.replay? crew moves = some q)
    (hlost : (prepared workers memory queued closed counter).start.losses crew moves ≠ []) :
    q.dispatcher.phase ≠ .done := by
  cases bereft_of_replay hrun with
  | stopped lost staff halt phase => exact phase
  | going halt manned unheard =>
      have hacc := run_induction (Accounted counter queued) Accounted.start
        (fun _ _ _ _ h hp => h.passes hp) hrun halt
      obtain ⟨loss, hloss⟩ := List.exists_mem_of_ne_nil _ hlost
      have hvoice := (unheard loss.worker loss.message).2 ⟨loss, hloss, rfl, rfl⟩
      exact fun hdone => (manned.lost hvoice).2 (hacc.finished hdone).inFlight

/-- While reports are taken up nobody is lost. -/
theorem losses_of_listening {p : Pool σ} {moves : List Move}
    (h : ∀ m ∈ moves, m = .takeReport ∨ ∃ worker, m = .report worker) :
    p.losses crew moves = [] := by
  induction moves generalizing p with
  | nil => rfl
  | cons m moves ih =>
      have hnow : p.loss? crew m = none := by
        obtain rfl | ⟨worker, rfl⟩ := h m (by simp) <;> rfl
      rw [losses, hnow]
      cases p.move? crew m with
      | none => rfl
      | some next => exact ih fun m hm => h m (List.mem_cons_of_mem _ hm)

/-- A loss that was sent is heard of after the reports in front of it, or another one is. -/
theorem exists_halt_of_sent {worker : Nat} {message : String}
    (hrun : (prepared workers memory queued closed counter).start.replay? crew moves = some q)
    (hlost : (prepared workers memory queued closed counter).start.losses crew moves ≠ [])
    (hhalt : q.halt = none) (hsent : (worker, .crashed message) ∈ q.reports) :
    ∃ n last, q.replay? crew (List.replicate n .takeReport) = some last ∧ last.halt ≠ none := by
  generalize hreports : q.reports = reports at hsent
  induction reports generalizing moves q with
  | nil => cases hsent
  | cons entry reports ih =>
      obtain ⟨other, report⟩ := entry
      have hgoing : q.isOver = false := by
        simp [isOver, hhalt, phase_ne_done_of_losses hrun hlost]
      have hm : q.move? crew .takeReport = some ({ q with reports }.receive other report) := by
        simp [move?, hgoing, hreports]
      generalize ({ q with reports }.receive other report) = next at hm
      by_cases hnext : next.halt = none
      · obtain ⟨-, ⟨_, _, _, hsame, hmore, -⟩ | ⟨_, _, _, -, rfl⟩ | ⟨-, hstop⟩⟩ :=
          takeReport_cases hm
        · cases hreports.symm.trans hsame
          have hsent' : (worker, .crashed message) ∈ reports := by simpa using hsent
          obtain ⟨n, last, hlast, hstop⟩ := ih (replay?_concat hrun hm)
            (by rw [losses_append hrun]; simp [hlost]) hnext hmore hsent'
          refine ⟨n + 1, last, ?_, hstop⟩
          rw [List.replicate_succ, replay?, hm, Option.bind_some, hlast]
        · simp [stop] at hnext
        · exact absurd hnext hstop
      · exact ⟨1, next, by simp [replay?, hm], hnext⟩

/-- Once it is lost, a worker needs at most one move until its loss is sent. -/
theorem exists_halt_of_unheard {worker : Nat} {message : String}
    (hrun : (prepared workers memory queued closed counter).start.replay? crew moves = some q)
    (hlost : (prepared workers memory queued closed counter).start.losses crew moves ≠ [])
    (hhalt : q.halt = none) (hvoice : q.voice worker = [.crashed message]) :
    ∃ more last, (∀ m ∈ more, m = .takeReport ∨ ∃ worker, m = .report worker) ∧
      q.replay? crew more = some last ∧ last.halt ≠ none := by
  rw [voice, List.append_eq_singleton_iff] at hvoice
  rcases hvoice with ⟨-, hbox⟩ | ⟨hreports, -⟩
  · obtain ⟨seat, seated, hspeaks⟩ : ∃ seat, q.seats[worker]? = some seat ∧
        seat.outbox = [.crashed message] := by
      cases hseat : q.seats[worker]? with
      | none => simp [hseat] at hbox
      | some seat => exact ⟨seat, rfl, by simpa [hseat] using hbox⟩
    have hm : q.move? crew (.report worker) =
        some (q.afterReport worker seat (.crashed message) []) := by
      simp [move?, seated, hspeaks, afterReport]
    have hlost' : (prepared workers memory queued closed counter).start.losses crew
        (moves ++ [.report worker]) ≠ [] := by
      rw [losses_append hrun]
      exact List.append_ne_nil_of_left_ne_nil hlost _
    have hsent : (worker, .crashed message) ∈
        (q.afterReport worker seat (.crashed message) []).reports :=
      List.mem_append_right _ (List.mem_singleton.2 rfl)
    obtain ⟨n, last, hlast, hstop⟩ := exists_halt_of_sent (replay?_concat hrun hm) hlost' hhalt hsent
    refine ⟨.report worker :: List.replicate n .takeReport, last, ?_, ?_, hstop⟩
    · intro m hm
      rcases List.mem_cons.1 hm with rfl | hm
      · exact .inr ⟨worker, rfl⟩
      · exact .inl (List.eq_of_mem_replicate hm)
    · rw [replay?, hm, Option.bind_some, hlast]
  · have hmem : .crashed message ∈ (q.reports.filter (·.1 = worker)).map Prod.snd := by
      simp [hreports]
    obtain ⟨⟨other, report⟩, hentry, rfl⟩ := List.mem_map.1 hmem
    obtain ⟨hsent, -⟩ := List.mem_filter.1 hentry
    obtain ⟨n, last, hlast, hstop⟩ := exists_halt_of_sent hrun hlost hhalt hsent
    exact ⟨_, last, fun m hm => .inl (List.eq_of_mem_replicate hm), hlast, hstop⟩

/-- What a run comes to that has lost workers. It stops only because it hears of one of the
losses, and while it goes on it needs nobody's help to hear of one. -/
structure Surfaces (crew : Crew σ) (workers : Nat) (losses : List Loss) (q : Pool σ) : Prop where
  unfinished : q.dispatcher.phase ≠ .done
  halt : ∀ halt, q.halt = some halt → ∃ loss ∈ losses, loss.worker < workers ∧
    halt = .failed (.workerCrashed loss.worker loss.message)
  outcome : ∀ result, q.outcome? = some result → ∃ loss ∈ losses, loss.worker < workers ∧
    result = .error (.workerCrashed loss.worker loss.message)
  coming : q.halt = none → ∃ more last,
    (∀ m ∈ more, m = .takeReport ∨ ∃ worker, m = .report worker) ∧
      q.replay? crew more = some last ∧ ∃ loss ∈ losses,
        last.outcome? = some (.error (.workerCrashed loss.worker loss.message))

theorem Bereft.exists_cause {losses : List Loss} {halt : Halt}
    (h : Bereft crew workers losses q) (hhalt : q.halt = some halt) : ∃ loss ∈ losses,
      loss.worker < workers ∧ halt = .failed (.workerCrashed loss.worker loss.message) := by
  cases h with
  | going hnone => cases hhalt.symm.trans hnone
  | @stopped loss hloss staff hstop =>
      exact ⟨loss, hloss, staff, Option.some.inj (hhalt.symm.trans hstop)⟩

/-- The loss of a worker always comes to light, and nothing else ends the run: whatever the
parser does otherwise, whatever is queued or arrives, however the moves are ordered. -/
theorem losses_surface
    (hrun : (prepared workers memory queued closed counter).start.replay? crew moves = some q)
    (hlost : (prepared workers memory queued closed counter).start.losses crew moves ≠ []) :
    Surfaces crew (max workers 1)
      ((prepared workers memory queued closed counter).start.losses crew moves)
      q := by
  have hphase := phase_ne_done_of_losses hrun hlost
  have hbereft := bereft_of_replay hrun
  refine ⟨hphase, fun halt hhalt => hbereft.exists_cause hhalt, fun result houtcome => ?_,
    fun hhalt => ?_⟩
  · cases hhalt : q.halt with
    | none => simp [outcome?, hhalt, hphase] at houtcome
    | some halt =>
        obtain ⟨loss, hloss, hstaff, rfl⟩ := hbereft.exists_cause hhalt
        simp only [outcome?, hhalt, Option.some.injEq] at houtcome
        exact ⟨loss, hloss, hstaff, houtcome.symm⟩
  · cases hbereft with
    | stopped _ _ hstop _ => cases hhalt.symm.trans hstop
    | going _ manned unheard =>
        obtain ⟨loss, hloss⟩ := List.exists_mem_of_ne_nil _ hlost
        have hvoice := (unheard loss.worker loss.message).2 ⟨loss, hloss, rfl, rfl⟩
        obtain ⟨more, last, hmore, hlast, hstop⟩ :=
          exists_halt_of_unheard hrun hlost hhalt (manned.lost hvoice).1
        have hrun' : (prepared workers memory queued closed counter).start.replay? crew
            (moves ++ more) = some last := by
          rw [replay?_append, hrun, Option.bind_some, hlast]
        have hlosses := losses_append hrun more
        rw [losses_of_listening hmore, List.append_nil] at hlosses
        obtain ⟨halt, hhalt'⟩ := Option.ne_none_iff_exists'.1 hstop
        obtain ⟨loss', hloss', -, rfl⟩ := (bereft_of_replay hrun').exists_cause hhalt'
        rw [hlosses] at hloss'
        exact ⟨more, last, hmore, hlast, loss', hloss', by simp only [outcome?, hhalt']⟩

end

/-- A parser that finds nothing and does not survive one of the files. -/
def exploding : Parser Unit where
  language := .python
  splits := false
  parseFile _ _ _ _ := ⟨.ok [], (), []⟩
  parseChunk c _ _ :=
    ⟨if c.file = "explode.py" then .error (.crash ⟨"front-end exploded"⟩) else .ok (.resolved []),
      (), []⟩
  itemStarts _ _ := ⟨none, (), []⟩
  clear := id

/-- One worker is lost while the other one answers, is told that there is nothing left and
says so. -/
theorem loss_surfaces_behind_answers :
    let queued : List Chunk := [.whole "calm.py" [], .whole "explode.py" []]
    let moves : List Move :=
      [.work 1, .work 0, .report 0, .takeReport, .work 0, .report 0, .report 1, .takeReport,
        .takeReport]
    let crew : Crew Unit := ⟨exploding, 0⟩
    let lost : List Loss := [⟨1, ⟨.whole "explode.py" [], 1⟩, ⟨"front-end exploded"⟩⟩]
    ∃ q, (prepared 2 () queued true).start.replay? crew moves = some q ∧
      (prepared 2 () queued true).start.losses crew moves = lost ∧
      q.outcome? = some (.error (.workerCrashed 1 "panicked on explode.py: front-end exploded")) ∧
      Surfaces crew (max 2 1) lost q := by
  intro queued moves crew lost
  have hrun : ((prepared 2 () queued true).start.replay? crew moves).map Pool.halt =
      some (some (.failed (.workerCrashed 1 "panicked on explode.py: front-end exploded"))) := by
    decide +kernel
  have hlost : (prepared 2 () queued true).start.losses crew moves = lost := by decide +kernel
  obtain ⟨q, hq, hhalt⟩ := Option.map_eq_some_iff.1 hrun
  have hsurfaces := losses_surface hq (by rw [hlost]; exact List.cons_ne_nil _ _)
  rw [hlost] at hsurfaces
  exact ⟨q, hq, hlost, by rw [outcome?, hhalt], hsurfaces⟩

end Pool

end ClonePrint
