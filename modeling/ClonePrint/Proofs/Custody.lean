import ClonePrint.Proofs.Buffering
import ClonePrint.Proofs.Journal

/-!
# Whom the dispatcher tells what

A worker is at hand when it waits without a job or has just given its answer.
Every reaction of the dispatcher tells each worker at hand at most one thing, and
those that are told nothing keep waiting. Between two reactions no worker waits
while there is a job, and once every worker was sent home the run is over.
-/
namespace ClonePrint

def calledIdle (orders : List (Nat × Dispatch)) : List Nat :=
  (orders.filter (·.2 = .noJob)).map Prod.fst

def sentHome (orders : List (Nat × Dispatch)) : List Nat :=
  (orders.filter (·.2 = .close)).map Prod.fst

theorem calledIdle_append (a b : List (Nat × Dispatch)) :
    calledIdle (a ++ b) = calledIdle a ++ calledIdle b := by
  simp only [calledIdle, List.filter_append, List.map_append]

theorem sentHome_append (a b : List (Nat × Dispatch)) :
    sentHome (a ++ b) = sentHome a ++ sentHome b := by
  simp only [sentHome, List.filter_append, List.map_append]

theorem sentHome_close (workers : List Nat) : sentHome (workers.map (·, .close)) = workers := by
  induction workers with
  | nil => rfl
  | cons worker more ih =>
      rw [List.map_cons, ← List.singleton_append, sentHome_append, ih]
      rfl

theorem mem_jobsTold {orders : List (Nat × Dispatch)} {given : Nat × Job Chunk} :
    given ∈ jobsTold orders ↔ (given.1, .job given.2) ∈ orders := by
  simp only [jobsTold, List.mem_filterMap, Option.map_eq_some_iff, Prod.exists]
  constructor
  · rintro ⟨worker, what, hmem, job, hjob, rfl⟩
    cases what with
    | job j =>
        rw [Dispatch.job?, Option.some.injEq] at hjob
        rwa [← hjob]
    | noJob | close => cases hjob
  · intro hmem
    exact ⟨given.1, .job given.2, hmem, given.2, rfl, rfl⟩

theorem mem_calledIdle {orders : List (Nat × Dispatch)} {worker : Nat} :
    worker ∈ calledIdle orders ↔ (worker, .noJob) ∈ orders := by
  simp [calledIdle]

theorem mem_sentHome {orders : List (Nat × Dispatch)} {worker : Nat} :
    worker ∈ sentHome orders ↔ (worker, .close) ∈ orders := by
  simp [sentHome]

/-- Whoever is told something gets a job, or is told that there is none, or is
sent home. -/
theorem map_fst_orders_perm (orders : List (Nat × Dispatch)) :
    (orders.map Prod.fst).Perm
      ((jobsTold orders).map Prod.fst ++ (calledIdle orders ++ sentHome orders)) := by
  induction orders with
  | nil => exact .refl _
  | cons order orders ih =>
      obtain ⟨worker, what⟩ := order
      rw [List.perm_iff_count] at ih ⊢
      intro other
      have hrest := ih other
      rw [← List.singleton_append, jobsTold_append, calledIdle_append, sentHome_append]
      simp only [List.map_append, List.count_append] at hrest ⊢
      cases what <;>
        simp only [jobsTold, calledIdle, sentHome, Dispatch.job?, List.filterMap_cons,
          List.filterMap_nil, List.filter_cons, List.filter_nil, Option.map_some, Option.map_none,
          List.map_cons, List.map_nil, List.count_cons, List.count_nil, decide_true,
          reduceCtorEq, decide_false, ↓reduceIte, Bool.false_eq_true] at hrest ⊢ <;>
        omega

/-- A reply after which the worker waits for what it is told next. -/
def Reply.isAnswer : Reply → Bool
  | result .. | idle => true
  | _ => false

namespace Dispatcher

/-- From `d` to `d'` each worker at hand is told at most one thing. Those in
`free` have just given their answer. -/
structure Employs (free : List Nat) (d d' : Dispatcher) : Prop where
  hands : (d'.orders.map Prod.fst ++ d'.idle).Perm (free ++ (d.orders.map Prod.fst ++ d.idle))
  closed : d'.closed + (sentHome d.orders).length = d.closed + (sentHome d'.orders).length
  workers : d'.workers = d.workers

theorem Employs.refl (d : Dispatcher) : Employs [] d d := ⟨.refl _, rfl, rfl⟩

theorem Employs.trans {free free' : List Nat} {a b c : Dispatcher} (h : Employs free a b)
    (g : Employs free' b c) : Employs (free' ++ free) a c where
  hands := by
    rw [List.append_assoc]
    exact g.hands.trans (h.hands.append_left free')
  closed := by
    have hb := h.closed
    have hc := g.closed
    omega
  workers := g.workers.trans h.workers

theorem tell_employs {what : Dispatch} (hwhat : what ≠ .close) (worker : Nat) (d : Dispatcher) :
    Employs [worker] d (d.tell worker what) := by
  constructor
  · simp only [tell, List.map_append, List.map_cons, List.map_nil, List.append_assoc]
    exact List.perm_middle
  · simp [tell, sentHome, hwhat]
  · rfl

theorem dispatchNext_employs (worker : Nat) (d : Dispatcher) :
    Employs [worker] d (d.dispatchNext worker) := by
  unfold dispatchNext
  split
  · exact tell_employs Dispatch.noConfusion worker d
  · rename_i job queue _
    have hjob : Dispatch.job job ≠ .close := Dispatch.noConfusion
    have htell := tell_employs hjob worker
      { d with queue, inFlight := job.payload.file :: d.inFlight }
    exact ⟨htell.hands, htell.closed, rfl⟩

theorem dispatchNext_idle (worker : Nat) (d : Dispatcher) :
    (d.dispatchNext worker).idle = d.idle := by
  unfold dispatchNext
  split <;> rfl

theorem wake_employs (workers : List Nat) (d : Dispatcher) :
    Employs [] { d with idle := workers } (wake workers d) := by
  induction workers generalizing d with
  | nil => exact Employs.refl _
  | cons worker more ih =>
      rw [wake]
      split
      · exact Employs.refl _
      · have hnext := dispatchNext_employs worker { d with idle := more }
        have hsame : dispatchNext worker { d with idle := more } =
            { dispatchNext worker d with idle := more } := by
          unfold dispatchNext
          simp only [tell]
          split <;> rfl
        rw [hsame] at hnext
        have hall := hnext.trans (ih (d.dispatchNext worker))
        exact ⟨hall.hands.trans (by simpa using List.perm_middle.symm), hall.closed, hall.workers⟩

theorem wakeIdle_employs (d : Dispatcher) : Employs [] d d.wakeIdle := wake_employs d.idle d

/-- No worker keeps waiting while there is a job. -/
theorem wake_waiting (workers : List Nat) (d : Dispatcher)
    (h : (wake workers d).queue.jobs ≠ []) : (wake workers d).idle = [] := by
  induction workers generalizing d with
  | nil => rfl
  | cons worker more ih =>
      rw [wake] at h ⊢
      split at h
      · rename_i hempty
        simp [JobQueue.isEmpty] at hempty
        exact absurd hempty h
      · rename_i hbusy
        rw [if_neg hbusy]
        exact ih _ h

theorem enqueueAll_employs (cs : List Chunk) (d : Dispatcher) : Employs [] d (d.enqueueAll cs) := by
  rw [enqueueAll_eq]
  exact ⟨.refl _, rfl, rfl⟩

theorem closeIdle_employs (d : Dispatcher) : Employs [] d d.closeIdle := by
  rw [closeIdle_eq]
  constructor
  · have hall : (d.idle.reverse.map fun worker => (worker, Dispatch.close)).map Prod.fst =
        d.idle.reverse := by
      simp [Function.comp_def]
    rw [List.map_append, hall, List.append_nil, List.nil_append]
    exact d.idle.reverse_perm.append_left _
  · simp only [sentHome_append, sentHome_close, List.length_append, List.length_reverse]
    omega
  · rfl

theorem settle_employs (d : Dispatcher) : Employs [] d d.settle := by
  unfold settle
  split
  · exact Employs.refl d
  · split
    · have hqueued := enqueueAll_employs d.remainders.leftovers { d with remainders := {} }
      have hwoken := hqueued.trans (wakeIdle_employs _)
      exact ⟨hwoken.hands, hwoken.closed, hwoken.workers⟩
    · split
      · exact closeIdle_employs d
      · exact Employs.refl d

theorem onReply_employs {worker : Nat} {reply : Reply} {d d' : Dispatcher}
    (h : d.onReply worker reply = .ok d') :
    Employs (if reply.isAnswer then [worker] else []) d d' := by
  cases reply with
  | result file found =>
      simp only [onReply, Except.ok.injEq] at h
      rw [← h]
      have hnext := dispatchNext_employs worker
        { d with found := d.found ++ found, inFlight := d.inFlight.erase file }
      exact ⟨hnext.hands, hnext.closed, hnext.workers⟩
  | remainder c =>
      rw [onReply, onRemainder] at h
      cases hi : d.remainders.insert c with
      | error cause => simp [hi, Except.map] at h
      | ok parts =>
          simp only [hi, Except.map, Except.ok.injEq] at h
          rw [← h]
          have hqueued := enqueueAll_employs parts.1 { d with remainders := parts.2 }
          have hwoken := hqueued.trans (wakeIdle_employs _)
          exact ⟨hwoken.hands, hwoken.closed, hwoken.workers⟩
  | log level line =>
      simp only [onReply, Except.ok.injEq] at h
      rw [← h]
      exact Employs.refl d
  | idle =>
      simp only [onReply, Except.ok.injEq] at h
      rw [← h]
      have hparked : Employs [worker] d (d.parked worker) := ⟨List.perm_middle, rfl, rfl⟩
      exact hparked.trans ((wakeIdle_employs _).trans (settle_employs _))

theorem onClose_employs (d : Dispatcher) : Employs [] d d.onClose := by
  have hsettled := settle_employs d.close
  exact ⟨hsettled.hands, hsettled.closed, hsettled.workers⟩

theorem onRequest_employs (request : Request) (d : Dispatcher) :
    Employs [] d (d.onRequest request) := by
  cases request with
  | submit c =>
      rw [onRequest, onSubmit]
      split
      · exact (enqueueAll_employs [c] d).trans (wakeIdle_employs _)
      · exact Employs.refl d
  | close => exact onClose_employs d

theorem start_employs (d : Dispatcher) : Employs (List.range d.workers) d d.start := by
  have hall : ∀ (workers : List Nat) (d : Dispatcher),
      Employs workers d (workers.foldl (fun d worker => d.dispatchNext worker) d) := by
    intro workers
    induction workers with
    | nil => exact Employs.refl
    | cons worker more ih =>
        intro d
        have hmore := (dispatchNext_employs worker d).trans (ih (d.dispatchNext worker))
        exact ⟨hmore.hands.trans (List.perm_append_comm.append_right _), hmore.closed,
          hmore.workers⟩
  exact hall _ d

/-- What holds of the bookkeeping between two reactions. Once every worker was sent home the run
is over. -/
structure Rested (d : Dispatcher) : Prop where
  waiting : d.queue.jobs ≠ [] → d.idle = []
  ended : d.closed = d.workers → d.phase = .done
  stocked : d.remainders.Stocked

theorem wake_closed (workers : List Nat) (d : Dispatcher) :
    (wake workers d).closed = d.closed := by
  induction workers generalizing d with
  | nil => rfl
  | cons worker more ih =>
      rw [wake]
      split
      · rfl
      · rw [ih, dispatchNext]
        split <;> rfl

theorem wakeIdle_rested {d : Dispatcher} (hended : d.closed = d.workers → d.phase = .done)
    (stocked : d.remainders.Stocked) : d.wakeIdle.Rested := by
  have hkept := d.wakeIdle_handsOut
  constructor
  · exact wake_waiting _ _
  · rw [hkept.phase, wakeIdle, wake_closed, (wake_employs d.idle d).workers]
    exact hended
  · rw [hkept.remainders]
    exact stocked

theorem Rested.requeue {d : Dispatcher} (h : d.Rested) {r : Remainders} (hr : r.Stocked)
    (cs : List Chunk) : ({ d with remainders := r }.enqueueAll cs).wakeIdle.Rested := by
  rw [enqueueAll_eq]
  exact wakeIdle_rested h.ended hr

theorem Rested.settle {d : Dispatcher} (h : d.Rested) : d.settle.Rested := by
  unfold Dispatcher.settle
  split
  · exact h
  · split
    · exact h.requeue (fun _ hentry => absurd hentry List.not_mem_nil) _
    · split
      · rw [closeIdle_eq]
        constructor
        · exact fun _ => rfl
        · intro hall
          simp only at hall ⊢
          rw [if_pos hall]
        · exact h.stocked
      · exact h

/-- A dispatcher that has settled and accepts nothing more keeps no worker
waiting unless there is something to wait for. -/
theorem Rested.settle_idle {d : Dispatcher} (h : d.Rested) (hphase : d.settle.phase = .draining)
    (hquiet : d.settle.isQuiet = true) : d.settle.idle = [] := by
  unfold Dispatcher.settle at hphase hquiet ⊢
  split
  · rename_i hbusy
    rw [if_pos hbusy] at hquiet
    simp [hquiet] at hbusy
  · rename_i hstill
    rw [if_neg hstill] at hphase hquiet
    split
    · rename_i hleft
      rw [if_pos hleft] at hquiet
      have hsome := h.stocked.leftovers_ne_nil (by simpa using hleft)
      by_cases hidle : d.idle = []
      · rw [wakeIdle, enqueueAll_eq]
        simp only [hidle]
        rfl
      -- A job goes out to one of the idle workers, so the pool is not quiet.
      · have hsame : ({ d with remainders := {} }.enqueueAll d.remainders.leftovers).idle =
            d.idle := by rw [enqueueAll_eq]
        rw [wakeIdle, isQuiet_wake (hsame.symm ▸ hidle), isQuiet_iff, enqueueAll_eq] at hquiet
        have hnone := (List.append_eq_nil_iff.1 hquiet.1).2
        have hlength := congrArg (fun jobs => (jobs.map Job.payload)) hnone
        simp only [Job.map_payload_numbered, List.map_nil] at hlength
        exact absurd hlength hsome
    · rename_i hnothing
      rw [if_neg hnothing] at hphase
      split
      · rw [closeIdle_eq]
      · rename_i hrunning
        rw [if_neg hrunning] at hphase
        exact absurd hphase hrunning

theorem Rested.onIdle {d : Dispatcher} (h : d.Rested) (worker : Nat) :
    (d.onIdle worker).Rested :=
  (wakeIdle_rested (d := d.parked worker) h.ended h.stocked).settle

theorem Rested.onReply {worker : Nat} {reply : Reply} {d d' : Dispatcher} (h : d.Rested)
    (hreacts : d.onReply worker reply = .ok d') : d'.Rested := by
  cases reply with
  | result file found =>
      simp only [Dispatcher.onReply, Except.ok.injEq] at hreacts
      rw [← hreacts]
      have hidle := dispatchNext_idle worker
        { d with found := d.found ++ found, inFlight := d.inFlight.erase file }
      constructor
      · intro hqueue
        rw [onResult, hidle]
        apply h.waiting
        intro hnil
        simp [onResult, dispatchNext, JobQueue.dequeue?, hnil, tell] at hqueue
      · rw [onResult, dispatchNext]
        split <;> exact h.ended
      · rw [(onResult_handsOut worker file found d).remainders]
        exact h.stocked
  | remainder c =>
      rw [Dispatcher.onReply, onRemainder] at hreacts
      cases hi : d.remainders.insert c with
      | error cause => simp [hi, Except.map] at hreacts
      | ok parts =>
          simp only [hi, Except.map, Except.ok.injEq] at hreacts
          rw [← hreacts]
          exact h.requeue (h.stocked.insert hi) parts.1
  | log level line =>
      simp only [Dispatcher.onReply, Except.ok.injEq] at hreacts
      rw [← hreacts]
      exact h
  | idle =>
      simp only [Dispatcher.onReply, Except.ok.injEq] at hreacts
      rw [← hreacts]
      exact h.onIdle worker

theorem Rested.close {d : Dispatcher} (h : d.Rested) : d.close.Rested := by
  constructor
  · exact h.waiting
  · intro hall
    simp only [Dispatcher.close, h.ended hall, reduceCtorEq, ↓reduceIte]
  · exact h.stocked

theorem Rested.onRequest {d : Dispatcher} (h : d.Rested) (request : Request) :
    (d.onRequest request).Rested := by
  cases request with
  | submit c =>
      rw [Dispatcher.onRequest, onSubmit]
      split
      · exact h.requeue h.stocked [c]
      · exact h
  | close => exact h.close.settle

theorem exists_onReply_eq_ok (worker : Nat) (reply : Reply) (d : Dispatcher) :
    ∃ d', d.onReply worker reply = .ok d' := by
  cases reply with
  | remainder c =>
      obtain ⟨joined, r, hi⟩ := Remainders.exists_insert_eq_ok c d.remainders
      exact ⟨_, by rw [onReply, onRemainder, hi]; rfl⟩
  | result file found => exact ⟨_, rfl⟩
  | log level line => exact ⟨_, rfl⟩
  | idle => exact ⟨_, rfl⟩

end Dispatcher

end ClonePrint
