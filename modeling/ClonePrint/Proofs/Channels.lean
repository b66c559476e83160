import ClonePrint.Proofs.Journal

/-!
# What is on its way between the dispatcher and its workers

Jobs lie in the inboxes of workers, reports lie in their outboxes or have been
sent. Each move shifts some of them. Orders that can be delivered go into empty
inboxes, and what a worker says about a job it says before its result.
-/
namespace ClonePrint

variable {σ : Type}

theorem flatMap_set_perm {α β : Type} {l : List α} {i : Nat} {a : α} (h : l[i]? = some a) (b : α)
    (f : α → List β) : ((l.set i b).flatMap f ++ f a).Perm (l.flatMap f ++ f b) := by
  induction l generalizing i with
  | nil => simp at h
  | cons x l ih =>
      cases i with
      | zero =>
          simp only [List.getElem?_cons_zero, Option.some.injEq] at h
          subst h
          simp only [List.set_cons_zero, List.flatMap_cons, List.append_assoc]
          apply (List.perm_append_comm_assoc _ _ _).trans
          exact (List.perm_append_comm.append_left _).trans (List.perm_append_comm_assoc _ _ _)
      | succ i =>
          simp only [List.set_cons_succ, List.flatMap_cons, List.append_assoc]
          exact (ih (by simpa using h)).append_left _

namespace Report

def result? : Report → Option (String × List Fingerprint)
  | said (.result file found) => some (file, found)
  | _ => none

def remainder? : Report → Option Chunk
  | said reply => reply.remainder?
  | crashed _ => none

def line? : Report → Option String
  | said reply => reply.line?
  | crashed _ => none

/-- The report says something about a job that is not its result. -/
def isNews : Report → Bool
  | said (.remainder _) | said (.log ..) => true
  | _ => false

end Report

def resultsIn (reports : List Report) : List (String × List Fingerprint) :=
  reports.filterMap Report.result?

theorem resultsIn_append (a b : List Report) :
    resultsIn (a ++ b) = resultsIn a ++ resultsIn b := List.filterMap_append

theorem resultsIn_said_warnings (lines : List String) :
    resultsIn ((lines.map Reply.warning).map .said) = [] := by
  simp [resultsIn, Report.result?, Reply.warning]

/-- A job that ends is answered like one whose file could be parsed: messages, at
most one remainder, one result. -/
theorem runJob_replies {p : Parser σ} {batch : Nat} {job : Job Chunk} {memory : σ}
    {replies : List Reply} (h : (Worker.runJob p batch job memory).value = .ok replies) :
    ∃ outcome, replies = Worker.replies job.payload.file outcome := by
  simp only [Worker.runJob, Answer.map] at h
  split at h
  · rename_i outcome _
    exact ⟨outcome, (Except.ok.inj h).symm⟩
  · rename_i cause _
    refine ⟨{ warnings := [skippingFile job.payload.file cause] }, ?_⟩
    rw [← Except.ok.inj h]
    rfl
  · cases h

theorem resultsIn_said_replies (file : String) (outcome : Outcome) :
    resultsIn ((Worker.replies file outcome).map .said) = [(file, outcome.found)] := by
  rw [Worker.replies, List.map_append, List.map_append, resultsIn_append, resultsIn_append,
    resultsIn_said_warnings]
  cases outcome.remainder <;> rfl

theorem flatMap_found_replies (file : String) (outcome : Outcome) :
    (Worker.replies file outcome).flatMap Reply.found = outcome.found := by
  have hwarn (lines : List String) : (lines.map Reply.warning).flatMap Reply.found = [] := by
    simp [Reply.found, Reply.warning]
  rw [Worker.replies, List.flatMap_append, List.flatMap_append, hwarn]
  cases outcome.remainder <;> simp [Reply.found]

/-- What a worker reports, apart from being idle or lost, is what it replies. -/
theorem filterMap_carryOut {α : Type} (f : Report → Option α) (hidle : f (.said .idle) = none)
    (hlost : ∀ message, f (.crashed message) = none) (crew : Crew σ) (worker : Nat) (memory : σ)
    (what : Dispatch) : (crew.carryOut what memory).value.1.filterMap f =
      (Journal.ofWork crew worker memory what).replies.filterMap fun reply => f (.said reply) := by
  cases what with
  | job job =>
      simp only [Crew.carryOut, Answer.map, Journal.ofWork]
      cases (Worker.runJob crew.parser crew.batch job memory).value with
      | ok replies => exact List.filterMap_map
      | error crash => simp [hlost]
  | noJob => simp [Crew.carryOut, Journal.ofWork, hidle]
  | close => rfl

/-- A job is answered with one result for its file, or it is lost. -/
theorem carryOut_files (crew : Crew σ) (worker : Nat) (memory : σ) (what : Dispatch) :
    (resultsIn (crew.carryOut what memory).value.1).map Prod.fst ++
        (Journal.ofWork crew worker memory what).lost.map (·.payload.file) =
      (((what.job?).map (worker, ·)).toList).map fileOfJob := by
  cases what with
  | job job =>
      simp only [Crew.carryOut, Answer.map, Journal.ofWork]
      cases hrun : (Worker.runJob crew.parser crew.batch job memory).value with
      | ok replies =>
          obtain ⟨outcome, rfl⟩ := runJob_replies hrun
          simp [resultsIn_said_replies, Dispatch.job?, fileOfJob]
      | error crash => simp [resultsIn, Report.result?, Dispatch.job?, fileOfJob]
  | noJob | close => rfl

theorem carryOut_found (crew : Crew σ) (worker : Nat) (memory : σ) (what : Dispatch) :
    (Journal.ofWork crew worker memory what).replies.flatMap Reply.found =
      (resultsIn (crew.carryOut what memory).value.1).flatMap Prod.snd := by
  cases what with
  | job job =>
      simp only [Crew.carryOut, Answer.map, Journal.ofWork]
      cases hrun : (Worker.runJob crew.parser crew.batch job memory).value with
      | ok replies =>
          obtain ⟨outcome, rfl⟩ := runJob_replies hrun
          simp [resultsIn_said_replies, flatMap_found_replies]
      | error crash => rfl
  | noJob | close => rfl

/-- Whatever is said about a job is said before its result. -/
def Concludes : List Report → Prop
  | [] => True
  | r :: more => (r.isNews = true → resultsIn more ≠ []) ∧ Concludes more

theorem Concludes.append {a b : List Report} (ha : Concludes a) (hb : Concludes b) :
    Concludes (a ++ b) := by
  induction a with
  | nil => exact hb
  | cons r a ih =>
      refine ⟨fun h => ?_, ih ha.2⟩
      rw [List.append_eq, resultsIn_append]
      exact List.append_ne_nil_of_left_ne_nil (ha.1 h) _

theorem Concludes.isNews_eq_false {reports : List Report} (h : Concludes reports)
    (hnone : resultsIn reports = []) {r : Report} (hr : r ∈ reports) : r.isNews = false := by
  induction reports with
  | nil => cases hr
  | cons x more ih =>
      have hmore : resultsIn more = [] := by
        rw [← List.singleton_append, resultsIn_append, List.append_eq_nil_iff] at hnone
        exact hnone.2
      rcases List.mem_cons.1 hr with rfl | hr
      · exact Bool.eq_false_iff.2 fun hnews => h.1 hnews hmore
      · exact ih h.2 hmore hr

theorem concludes_replies (file : String) (outcome : Outcome) :
    Concludes ((Worker.replies file outcome).map .said) := by
  have hfront : ∀ front : List Report, Concludes (front ++ [.said (.result file outcome.found)]) := by
    intro front
    induction front with
    | nil => exact ⟨fun h => (Bool.false_ne_true h).elim, trivial⟩
    | cons r front ih =>
        refine ⟨fun _ => ?_, ih⟩
        rw [List.append_eq, resultsIn_append]
        exact List.append_ne_nil_of_right_ne_nil _ (List.cons_ne_nil _ _)
  rw [Worker.replies, List.map_append]
  exact hfront _

namespace Pool

def inboxJob (entry : Seat × Nat) : List (Nat × Job Chunk) :=
  ((entry.1.inbox.bind Dispatch.job?).map (entry.2, ·)).toList

def inboxJobs (seats : List Seat) : List (Nat × Job Chunk) := seats.zipIdx.flatMap inboxJob

theorem inboxJobs_set {seats : List Seat} {worker : Nat} {seat : Seat}
    (h : seats[worker]? = some seat) (new : Seat) :
    (inboxJobs (seats.set worker new) ++ inboxJob (seat, worker)).Perm
      (inboxJobs seats ++ inboxJob (new, worker)) := by
  have hzip : seats.zipIdx[worker]? = some (seat, worker) := by
    simp [List.getElem?_zipIdx, h]
  have hset : (seats.set worker new).zipIdx = seats.zipIdx.set worker (new, worker) := by
    apply List.ext_getElem?
    intro i
    simp only [List.getElem?_zipIdx, List.getElem?_set, Nat.zero_add, List.length_zipIdx]
    split
    · subst worker
      split <;> simp
    · rfl
  rw [inboxJobs, hset]
  exact flatMap_set_perm hzip (new, worker) inboxJob

theorem inboxJobs_replicate (workers : Nat) : inboxJobs (List.replicate workers {}) = [] := by
  refine List.flatMap_eq_nil_iff.2 fun entry hentry => ?_
  have hseat := List.eq_of_mem_replicate (List.fst_mem_of_mem_zipIdx hentry)
  rw [inboxJob, hseat]
  rfl

/-- A worker that takes up what it was told empties its inbox. -/
theorem inboxJobs_afterWork (crew : Crew σ) {p : Pool σ} {worker : Nat} {seat : Seat}
    {what : Dispatch} (seated : p.seats[worker]? = some seat) (told : seat.inbox = some what) :
    (inboxJobs p.seats).Perm (((what.job?).map (worker, ·)).toList ++
      inboxJobs (p.afterWork crew worker seat what).seats) := by
  have hset := inboxJobs_set seated
    { inbox := none
      outbox := seat.outbox ++ (crew.carryOut what p.memory).value.1
      present := (crew.carryOut what p.memory).value.2 }
  have htold : inboxJob (seat, worker) = ((what.job?).map (worker, ·)).toList := by
    simp [inboxJob, told]
  have hnone (new : Seat) (hnew : new.inbox = none) : inboxJob (new, worker) = [] := by
    simp [inboxJob, hnew]
  rw [htold, hnone _ rfl, List.append_nil] at hset
  exact hset.symm.trans List.perm_append_comm

theorem inboxJobs_afterReport {p : Pool σ} {worker : Nat} {seat : Seat} {r : Report}
    {more : List Report} (seated : p.seats[worker]? = some seat) :
    (inboxJobs (p.afterReport worker seat r more).seats).Perm (inboxJobs p.seats) :=
  (List.perm_append_right_iff _).1 (inboxJobs_set seated { seat with outbox := more })

/-- Orders that can be delivered lie in the inboxes afterwards. -/
theorem inboxJobs_deliver {orders : List (Nat × Dispatch)} {seats seats' : List Seat}
    (h : deliver orders seats = .ok seats') :
    (inboxJobs seats').Perm (jobsTold orders ++ inboxJobs seats) ∧
      seats'.map Seat.outbox = seats.map Seat.outbox := by
  induction orders generalizing seats with
  | nil =>
      simp only [deliver, Except.ok.injEq] at h
      subst h
      exact ⟨.refl _, rfl⟩
  | cons order orders ih =>
      obtain ⟨worker, what⟩ := order
      cases hseat : seats[worker]? with
      | none => simp [deliver, hseat] at h
      | some seat =>
          simp only [deliver, hseat] at h
          split at h
          · cases h
          · split at h
            · cases h
            · rename_i hempty
              have hnone : inboxJob (seat, worker) = [] := by
                have : seat.inbox = none := by simpa using hempty
                simp [inboxJob, this]
              have hset := inboxJobs_set hseat { seat with inbox := some what }
              rw [hnone, List.append_nil] at hset
              obtain ⟨hjobs, hboxes⟩ := ih h
              constructor
              · have htold : jobsTold ((worker, what) :: orders) =
                    inboxJob ({ seat with inbox := some what }, worker) ++ jobsTold orders := by
                  cases what <;> rfl
                rw [htold]
                have hmoved := hjobs.trans (hset.append_left _)
                rw [← List.append_assoc] at hmoved
                refine hmoved.trans (List.perm_append_comm.trans ?_)
                rw [List.append_assoc]
              · rw [hboxes, List.map_set]
                apply List.ext_getElem?
                intro i
                rw [List.getElem?_set]
                split
                · subst worker
                  obtain ⟨hlt, hget⟩ := List.getElem?_eq_some_iff.1 hseat
                  simp [hlt, hget]
                · rfl

/-- Everything that was reported and not taken up yet. -/
def pending (p : Pool σ) : List Report :=
  p.reports.map Prod.snd ++ p.seats.flatMap Seat.outbox

theorem outboxes_set {seats : List Seat} {worker : Nat} {seat : Seat}
    (h : seats[worker]? = some seat) (new : Seat) :
    ((seats.set worker new).flatMap Seat.outbox ++ seat.outbox).Perm
      (seats.flatMap Seat.outbox ++ new.outbox) :=
  flatMap_set_perm h new Seat.outbox

theorem pending_afterWork (crew : Crew σ) (what : Dispatch) {p : Pool σ} {worker : Nat}
    {seat : Seat} (seated : p.seats[worker]? = some seat) :
    (p.afterWork crew worker seat what).pending.Perm
      (p.pending ++ (crew.carryOut what p.memory).value.1) := by
  have hset := outboxes_set seated
    { inbox := none
      outbox := seat.outbox ++ (crew.carryOut what p.memory).value.1
      present := (crew.carryOut what p.memory).value.2 }
  rw [List.perm_iff_count]
  intro r
  have hcount := hset.count_eq r
  simp only [pending, afterWork, List.count_append] at hcount ⊢
  omega

theorem pending_afterReport {p : Pool σ} {worker : Nat} {seat : Seat} {r : Report}
    {more : List Report} (seated : p.seats[worker]? = some seat)
    (speaks : seat.outbox = r :: more) :
    (p.afterReport worker seat r more).pending.Perm p.pending := by
  have hset := outboxes_set seated { seat with outbox := more }
  rw [List.perm_iff_count]
  intro x
  have hcount := hset.count_eq x
  rw [speaks] at hcount
  simp only [pending, afterReport, List.map_append, List.map_cons, List.map_nil, List.count_append,
    List.count_cons, List.count_nil] at hcount ⊢
  omega

theorem pending_deliver {orders : List (Nat × Dispatch)} {p q : Pool σ}
    (h : deliver orders p.seats = .ok q.seats) (hreports : q.reports = p.reports) :
    q.pending = p.pending := by
  simp only [pending, hreports, List.flatMap_def, (inboxJobs_deliver h).2]

/-- What one worker reported and the dispatcher has not taken up yet, in order. -/
def voice (p : Pool σ) (worker : Nat) : List Report :=
  (p.reports.filter (·.1 = worker)).map Prod.snd ++
    ((p.seats[worker]?).map Seat.outbox).getD []

/-- Every pending report is in the voice of some worker. -/
theorem exists_mem_voice {p : Pool σ} {r : Report} (h : r ∈ p.pending) :
    ∃ worker, r ∈ p.voice worker := by
  rcases List.mem_append.1 h with h | h
  · obtain ⟨⟨worker, r⟩, hr, rfl⟩ := List.mem_map.1 h
    exact ⟨worker, List.mem_append_left _
      (List.mem_map.2 ⟨(worker, r), List.mem_filter.2 ⟨hr, by simp⟩, rfl⟩)⟩
  · obtain ⟨seat, hseat, hr⟩ := List.mem_flatMap.1 h
    obtain ⟨worker, hworker⟩ := List.getElem?_of_mem hseat
    exact ⟨worker, List.mem_append_right _ (by simpa [hworker] using hr)⟩

theorem mem_pending_of_mem_voice {p : Pool σ} {worker : Nat} {r : Report}
    (h : r ∈ p.voice worker) : r ∈ p.pending := by
  rcases List.mem_append.1 h with h | h
  · obtain ⟨entry, hentry, rfl⟩ := List.mem_map.1 h
    exact List.mem_append_left _ (List.mem_map.2 ⟨entry, (List.mem_filter.1 hentry).1, rfl⟩)
  · cases hseat : p.seats[worker]? with
    | none => simp [hseat] at h
    | some seat =>
        simp only [hseat, Option.map_some, Option.getD_some] at h
        exact List.mem_append_right _
          (List.mem_flatMap.2 ⟨seat, List.mem_of_getElem? hseat, h⟩)

end Pool

end ClonePrint
