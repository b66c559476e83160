import ClonePrint.Pool.Dispatcher

/-!
# What the dispatcher does with its queue

Every reaction of the dispatcher is made of two kinds of steps. Chunks enter the
queue at its end, under consecutive numbers, and jobs leave it from the front
and go out to workers. The jobs that have gone out followed by the jobs that
still wait are therefore one stream, which only ever grows at its end.
-/
namespace ClonePrint

/-- Jobs for the given payloads, under consecutive numbers. -/
def Job.numbered {α : Type} : Nat → List α → List (Job α)
  | _, [] => []
  | n, payload :: more => ⟨payload, n⟩ :: numbered (n + 1) more

theorem Job.numbered_append {α : Type} (n : Nat) (a b : List α) :
    numbered n (a ++ b) = numbered n a ++ numbered (n + a.length) b := by
  induction a generalizing n with
  | nil => simp [numbered]
  | cons x a ih =>
      have h : n + 1 + a.length = n + (a.length + 1) := by omega
      simp only [List.cons_append, numbered, ih, List.length_cons, h]

theorem Job.map_payload_numbered {α : Type} (n : Nat) (a : List α) :
    (numbered n a).map Job.payload = a := by
  induction a generalizing n with
  | nil => rfl
  | cons x a ih => simp only [numbered, List.map_cons, ih]

def Dispatch.job? : Dispatch → Option (Job Chunk)
  | job j => some j
  | _ => none

def jobsTold (orders : List (Nat × Dispatch)) : List (Nat × Job Chunk) :=
  orders.filterMap fun order => order.2.job?.map (order.1, ·)

def fileOfJob (given : Nat × Job Chunk) : String := given.2.payload.file

@[simp] theorem jobsTold_nil : jobsTold [] = [] := rfl

theorem jobsTold_append (a b : List (Nat × Dispatch)) :
    jobsTold (a ++ b) = jobsTold a ++ jobsTold b := List.filterMap_append

namespace Dispatcher

/-- The jobs that are going out, and then those that still wait. -/
def stream (d : Dispatcher) : List (Job Chunk) :=
  (jobsTold d.orders).map Prod.snd ++ d.queue.jobs

/-- From `d` to `d'` jobs may leave the queue and go out, and nothing else that
matters to a file happens. -/
structure HandsOut (d d' : Dispatcher) : Prop where
  stream : d'.stream = d.stream
  inFlight : ∀ files, d.inFlight.Perm ((jobsTold d.orders).map fileOfJob ++ files) →
    d'.inFlight.Perm ((jobsTold d'.orders).map fileOfJob ++ files)
  counter : d'.counter = d.counter
  remainders : d'.remainders = d.remainders
  found : d'.found = d.found
  phase : d'.phase = d.phase

theorem HandsOut.refl (d : Dispatcher) : HandsOut d d :=
  ⟨rfl, fun _ h => h, rfl, rfl, rfl, rfl⟩

theorem HandsOut.trans {a b c : Dispatcher} (h : HandsOut a b) (g : HandsOut b c) :
    HandsOut a c where
  stream := g.stream.trans h.stream
  inFlight files hf := g.inFlight files (h.inFlight files hf)
  counter := g.counter.trans h.counter
  remainders := g.remainders.trans h.remainders
  found := g.found.trans h.found
  phase := g.phase.trans h.phase

/-- Telling a worker that there is no job, or to go home, moves no job. -/
theorem tell_handsOut {what : Dispatch} (h : what.job? = none) (worker : Nat) (d : Dispatcher) :
    HandsOut d (d.tell worker what) := by
  have hjobs : jobsTold (d.tell worker what).orders = jobsTold d.orders := by
    simp [tell, jobsTold, h]
  refine ⟨?_, fun files hf => ?_, rfl, rfl, rfl, rfl⟩
  · rw [stream, hjobs]
    rfl
  · rw [hjobs]
    exact hf

theorem dispatchNext_handsOut (worker : Nat) (d : Dispatcher) :
    HandsOut d (d.dispatchNext worker) := by
  cases hq : d.queue.jobs with
  | nil =>
      have h : d.dispatchNext worker = d.tell worker .noJob := by
        simp [dispatchNext, JobQueue.dequeue?, hq]
      rw [h]
      exact tell_handsOut rfl worker d
  | cons job more =>
      have h : d.dispatchNext worker =
          { d with
            queue := ⟨more⟩
            inFlight := job.payload.file :: d.inFlight
            orders := d.orders ++ [(worker, .job job)] } := by
        simp [dispatchNext, JobQueue.dequeue?, hq, tell]
      have hjobs : jobsTold (d.dispatchNext worker).orders =
          jobsTold d.orders ++ [(worker, job)] := by
        rw [h]
        simp [jobsTold, Dispatch.job?]
      rw [h] at hjobs ⊢
      refine ⟨?_, fun files hf => ?_, rfl, rfl, rfl, rfl⟩
      · simp only [stream, hjobs, hq, List.map_append, List.map_cons, List.map_nil,
          List.append_assoc, List.cons_append, List.nil_append]
      · rw [hjobs]
        simp only [List.map_append, List.map_cons, List.map_nil, List.append_assoc,
          List.cons_append, List.nil_append]
        exact (hf.cons _).trans List.perm_middle.symm

theorem wake_handsOut (workers : List Nat) (d : Dispatcher) : HandsOut d (wake workers d) := by
  induction workers generalizing d with
  | nil => exact ⟨rfl, fun _ h => h, rfl, rfl, rfl, rfl⟩
  | cons worker more ih =>
      rw [wake]
      split
      · exact ⟨rfl, fun _ h => h, rfl, rfl, rfl, rfl⟩
      · exact (dispatchNext_handsOut worker d).trans (ih _)

theorem wakeIdle_handsOut (d : Dispatcher) : HandsOut d d.wakeIdle := wake_handsOut d.idle d

theorem start_handsOut (d : Dispatcher) : HandsOut d d.start := by
  have h : ∀ (workers : List Nat) (d : Dispatcher),
      HandsOut d (workers.foldl (fun d worker => d.dispatchNext worker) d) := by
    intro workers
    induction workers with
    | nil => exact HandsOut.refl
    | cons worker more ih =>
        intro d
        exact (dispatchNext_handsOut worker d).trans (ih _)
  exact h _ d

/-- Queued chunks stand behind the others, under the next numbers. -/
theorem enqueueAll_eq (cs : List Chunk) (d : Dispatcher) :
    d.enqueueAll cs =
      { d with
        queue := ⟨d.queue.jobs ++ Job.numbered d.counter.next cs⟩
        counter := ⟨d.counter.next + cs.length⟩ } := by
  induction cs generalizing d with
  | nil => simp [enqueueAll, Job.numbered]
  | cons c cs ih =>
      have h : d.enqueueAll (c :: cs) = (d.enqueue c).enqueueAll cs := rfl
      rw [h, ih]
      simp only [enqueue, JobQueue.enqueue, JobCounter.take, Job.numbered, List.append_assoc,
        List.cons_append, List.nil_append, List.length_cons]
      congr 2
      omega

/-- From `d` to `d'` the chunks enter the queue and jobs go out. -/
structure Serves (cs : List Chunk) (d d' : Dispatcher) : Prop where
  stream : d'.stream = d.stream ++ Job.numbered d.counter.next cs
  inFlight : ∀ files, d.inFlight.Perm ((jobsTold d.orders).map fileOfJob ++ files) →
    d'.inFlight.Perm ((jobsTold d'.orders).map fileOfJob ++ files)
  counter : d'.counter.next = d.counter.next + cs.length

theorem HandsOut.serves {d d' : Dispatcher} (h : HandsOut d d') : Serves [] d d' where
  stream := by rw [h.stream, Job.numbered, List.append_nil]
  inFlight := h.inFlight
  counter := by rw [h.counter, List.length_nil, Nat.add_zero]

/-- Chunks are queued, and then jobs are handed out. -/
theorem HandsOut.serves_enqueueAll {cs : List Chunk} {d d' : Dispatcher}
    (h : HandsOut (d.enqueueAll cs) d') : Serves cs d d' := by
  rw [enqueueAll_eq] at h
  refine ⟨?_, h.inFlight, by rw [h.counter]⟩
  rw [h.stream]
  simp only [Dispatcher.stream, List.append_assoc]

/-- The chunks that settling takes out of the buffer. -/
def flushed (d : Dispatcher) : List Chunk :=
  if d.isQuiet then d.remainders.leftovers else []

/-- Nothing is queued, in flight or held back. -/
structure Finished (d : Dispatcher) : Prop where
  queue : d.queue.jobs = []
  inFlight : d.inFlight = []
  remainders : d.remainders.files = []

theorem isQuiet_iff (d : Dispatcher) :
    d.isQuiet = true ↔ d.queue.jobs = [] ∧ d.inFlight = [] := by
  simp [isQuiet, JobQueue.isEmpty]

/-- Sending the idle workers home writes down one order for each of them. -/
theorem closeIdle_eq (d : Dispatcher) :
    d.closeIdle =
      { d with
        idle := []
        closed := d.closed + d.idle.length
        orders := d.orders ++ d.idle.reverse.map (·, .close)
        phase := if d.closed + d.idle.length = d.workers then .done else d.phase } := by
  have h : ∀ workers : List Nat, workers.foldr (fun worker d => d.tell worker .close) d =
      { d with orders := d.orders ++ workers.reverse.map (·, .close) } := by
    intro workers
    induction workers with
    | nil => simp
    | cons worker more ih =>
        rw [List.foldr_cons, ih]
        simp only [tell, List.reverse_cons, List.map_append, List.map_cons, List.map_nil,
          List.append_assoc]
  rw [closeIdle, h]

theorem jobsTold_close (workers : List Nat) : jobsTold (workers.map (·, .close)) = [] := by
  simp [jobsTold, Dispatch.job?]

theorem leftovers_of_isEmpty {r : Remainders} (h : r.isEmpty = true) : r.leftovers = [] := by
  have hr : r.files = [] := by simpa [Remainders.isEmpty] using h
  simp [Remainders.leftovers, hr]

/-- From `d` to `d'` the dispatcher settles: what waits in the buffer of a quiet
pool enters the queue, and a run ends only when nothing is left. -/
structure Settles (d d' : Dispatcher) : Prop where
  serves : Serves d.flushed d d'
  found : d'.found = d.found
  remainders : d'.remainders = if d.isQuiet then {} else d.remainders
  phase : d'.phase = d.phase ∨ (d.phase = .draining ∧ d'.phase = .done ∧ d'.Finished)

theorem settle_of_not_isQuiet {d : Dispatcher} (h : d.isQuiet = false) : Settles d d.settle := by
  have hd : d.settle = d := by simp [settle, h]
  have hflushed : d.flushed = [] := by simp [flushed, h]
  rw [hd]
  refine ⟨?_, rfl, by simp [h], .inl rfl⟩
  rw [hflushed]
  exact (HandsOut.refl d).serves

theorem settle_of_leftovers {d : Dispatcher} (h : d.isQuiet = true)
    (hr : d.remainders.isEmpty = false) : Settles d d.settle := by
  have hd : d.settle = ({ d with remainders := {} }.enqueueAll d.remainders.leftovers).wakeIdle := by
    simp [settle, h, hr]
  have hflushed : d.flushed = d.remainders.leftovers := by simp [flushed, h]
  have hw := ({ d with remainders := {} }.enqueueAll d.remainders.leftovers).wakeIdle_handsOut
  have hs := hw.serves_enqueueAll
  rw [hd]
  refine ⟨?_, ?_, ?_, .inl ?_⟩
  · rw [hflushed]
    exact ⟨hs.stream, hs.inFlight, hs.counter⟩
  · rw [hw.found, enqueueAll_eq]
  · rw [hw.remainders, enqueueAll_eq, h]
    rfl
  · rw [hw.phase, enqueueAll_eq]

theorem settle_of_isEmpty {d : Dispatcher} (h : d.isQuiet = true)
    (hr : d.remainders.isEmpty = true) : Settles d d.settle := by
  have hfiles : d.remainders.files = [] := by simpa [Remainders.isEmpty] using hr
  have hrem : d.remainders = {} := congrArg Remainders.mk hfiles
  have hflushed : d.flushed = [] := by simp [flushed, h, leftovers_of_isEmpty hr]
  by_cases hphase : d.phase = .draining
  · have hd : d.settle = d.closeIdle := by simp [settle, h, hr, hphase]
    have hjobs : jobsTold d.closeIdle.orders = jobsTold d.orders := by
      rw [closeIdle_eq, jobsTold_append, jobsTold_close, List.append_nil]
    have hqueue : d.closeIdle.queue = d.queue := by rw [closeIdle_eq]
    have hflight : d.closeIdle.inFlight = d.inFlight := by rw [closeIdle_eq]
    have hremainders : d.closeIdle.remainders = d.remainders := by rw [closeIdle_eq]
    obtain ⟨hq, hf⟩ := d.isQuiet_iff.1 h
    rw [hd]
    refine ⟨?_, by rw [closeIdle_eq], by rw [hremainders, h]; exact hrem, ?_⟩
    · rw [hflushed]
      refine ⟨?_, fun files hp => ?_, by rw [closeIdle_eq]; rfl⟩
      · rw [stream, hjobs, hqueue, Job.numbered, List.append_nil, stream]
      · rw [hflight, hjobs]
        exact hp
    · by_cases hall : d.closed + d.idle.length = d.workers
      · refine .inr ⟨hphase, by simp [closeIdle_eq, hall], by rw [hqueue, hq], by rw [hflight, hf], ?_⟩
        rw [hremainders]
        exact hfiles
      · exact .inl (by simp [closeIdle_eq, hall])
  · have hd : d.settle = d := by simp [settle, h, hr, hphase]
    rw [hd]
    refine ⟨?_, rfl, by rw [h]; exact hrem, .inl rfl⟩
    rw [hflushed]
    exact (HandsOut.refl d).serves

theorem settle_settles (d : Dispatcher) : Settles d d.settle := by
  cases h : d.isQuiet with
  | false => exact settle_of_not_isQuiet h
  | true =>
      cases hr : d.remainders.isEmpty with
      | false => exact settle_of_leftovers h hr
      | true => exact settle_of_isEmpty h hr

/-- Chunks that the buffer gives up enter the queue. -/
theorem onRemainder_serves {c : Chunk} {d d' : Dispatcher} (h : d.onRemainder c = .ok d') :
    ∃ joined remainders, d.remainders.insert c = .ok (joined, remainders) ∧
      Serves joined d d' ∧ d'.remainders = remainders ∧ d'.found = d.found ∧
      d'.phase = d.phase := by
  rw [onRemainder] at h
  cases hi : d.remainders.insert c with
  | error cause => simp [hi, Except.map] at h
  | ok parts =>
      obtain ⟨joined, remainders⟩ := parts
      simp only [hi, Except.map, Except.ok.injEq] at h
      subst h
      have hw := ({ d with remainders }.enqueueAll joined).wakeIdle_handsOut
      have hs := hw.serves_enqueueAll
      exact ⟨joined, remainders, rfl, ⟨hs.stream, hs.inFlight, hs.counter⟩,
        by rw [hw.remainders, enqueueAll_eq], by rw [hw.found, enqueueAll_eq],
        by rw [hw.phase, enqueueAll_eq]⟩

theorem onResult_handsOut (worker : Nat) (file : String) (found : List Fingerprint)
    (d : Dispatcher) :
    HandsOut { d with found := d.found ++ found, inFlight := d.inFlight.erase file }
      (d.onResult worker file found) :=
  dispatchNext_handsOut worker _

/-- The dispatcher with one more idle worker, which may want more input. -/
def parked (worker : Nat) (d : Dispatcher) : Dispatcher :=
  { d with
    idle := worker :: d.idle
    inputWanted := d.inputWanted || (d.queue.isEmpty && d.phase.acceptsInput) }

theorem dispatchNext_inFlight_ne_nil (worker : Nat) {d : Dispatcher} (h : d.inFlight ≠ []) :
    (d.dispatchNext worker).inFlight ≠ [] := by
  unfold dispatchNext
  split
  · exact h
  · simp [tell]

theorem wake_inFlight_ne_nil (workers : List Nat) {d : Dispatcher} (h : d.inFlight ≠ []) :
    (wake workers d).inFlight ≠ [] := by
  induction workers generalizing d with
  | nil => exact h
  | cons worker more ih =>
      rw [wake]
      split
      · exact h
      · exact ih (dispatchNext_inFlight_ne_nil worker h)

/-- With an idle worker and something in the queue a job goes out, so waking the
workers never makes a pool quiet. -/
theorem isQuiet_wake {workers : List Nat} (hne : workers ≠ []) (d : Dispatcher) :
    (wake workers d).isQuiet = d.isQuiet := by
  obtain ⟨worker, more, rfl⟩ := List.exists_cons_of_ne_nil hne
  cases hq : d.queue.jobs with
  | nil => simp [wake, isQuiet, JobQueue.isEmpty, hq]
  | cons job jobs =>
      have hleft : (wake (worker :: more) d).inFlight ≠ [] := by
        rw [wake, if_neg (by simp [JobQueue.isEmpty, hq])]
        apply wake_inFlight_ne_nil
        simp [dispatchNext, JobQueue.dequeue?, hq, tell]
      have hfalse : (wake (worker :: more) d).isQuiet = false :=
        Bool.eq_false_iff.2 fun h => hleft ((isQuiet_iff _).1 h).2
      rw [hfalse]
      simp [isQuiet, JobQueue.isEmpty, hq]

/-- A worker that has nothing to do gets a job or waits, and then the dispatcher
settles. -/
theorem onIdle_settles (worker : Nat) (d : Dispatcher) : Settles d (d.onIdle worker) := by
  have hparked : HandsOut d (d.parked worker) := ⟨rfl, fun _ h => h, rfl, rfl, rfl, rfl⟩
  have hw := hparked.trans (d.parked worker).wakeIdle_handsOut
  have hquiet : (d.parked worker).wakeIdle.isQuiet = d.isQuiet :=
    isQuiet_wake (List.cons_ne_nil worker d.idle) (d.parked worker)
  have hs := settle_settles (d.parked worker).wakeIdle
  have hflushed : (d.parked worker).wakeIdle.flushed = d.flushed := by
    rw [flushed, hquiet, hw.remainders, flushed]
  have hserves := hs.serves
  rw [hflushed] at hserves
  refine ⟨⟨?_, fun files hf => ?_, ?_⟩, ?_, ?_, ?_⟩
  · exact hserves.stream.trans (by rw [hw.stream, hw.counter])
  · exact hserves.inFlight files (hw.inFlight files hf)
  · exact hserves.counter.trans (by rw [hw.counter])
  · exact hs.found.trans hw.found
  · exact hs.remainders.trans (by rw [hquiet, hw.remainders])
  · have hp := hs.phase
    rw [hw.phase] at hp
    exact hp

theorem onSubmit_serves (c : Chunk) (d : Dispatcher) :
    Serves (if d.phase.acceptsInput then [c] else []) d (d.onSubmit c) ∧
      (d.onSubmit c).remainders = d.remainders ∧ (d.onSubmit c).found = d.found ∧
      (d.onSubmit c).phase = d.phase := by
  unfold onSubmit
  split
  · have hw := (d.enqueueAll [c]).wakeIdle_handsOut
    exact ⟨hw.serves_enqueueAll, hw.remainders.trans (by rw [enqueueAll_eq]),
      hw.found.trans (by rw [enqueueAll_eq]), hw.phase.trans (by rw [enqueueAll_eq])⟩
  · exact ⟨(HandsOut.refl d).serves, rfl, rfl, rfl⟩

/-- Once it is closed a dispatcher does not run on. -/
theorem close_phase (d : Dispatcher) : d.close.phase ≠ .running := by
  cases h : d.phase <;> simp [close, h]

theorem onClose_settles (d : Dispatcher) : Settles d.close d.onClose := settle_settles d.close

end Dispatcher

end ClonePrint
