import Mathlib.Algebra.GroupWithZero.Nat
import ClonePrint.Proofs.Bookkeeping
import ClonePrint.Proofs.Coverage

/-!
# How many jobs a run has

Every chunk that enters a pool from outside pays for two jobs: its own, and half of
a share in a later one. A part that is handed back keeps one of them. Joining takes
two parts or more for one chunk, and a leftover is parsed once and never handed
back, so no job is ever unpaid.
-/
namespace ClonePrint

def Request.chunk? : Request → Option Chunk
  | submit c => some c
  | close => none

theorem Request.length_accepted_le (requests : List Request) :
    (accepted requests).length ≤ (requests.filterMap chunk?).length := by
  induction requests with
  | nil => exact Nat.le_refl 0
  | cons request requests ih =>
      cases request with
      | submit c => exact Nat.succ_le_succ ih
      | close => exact Nat.zero_le _

/-- The chunk is parsed on its own, whatever becomes of it. -/
def Chunk.isFinal (c : Chunk) : Bool := c.isClosed && !c.provisional

/-- How many jobs a chunk that awaits a worker may still cost. -/
def Chunk.credit (c : Chunk) : Nat := if c.isFinal then 1 else 2

theorem Chunk.credit_le (c : Chunk) : c.credit ≤ 2 := by
  unfold credit
  split <;> omega

theorem Chunk.sum_credit_le (cs : List Chunk) : (cs.map credit).sum ≤ 2 * cs.length := by
  induction cs with
  | nil => exact Nat.le_refl 0
  | cons c cs ih =>
      have hc := c.credit_le
      simp only [List.map_cons, List.sum_cons, List.length_cons]
      omega

theorem Remainders.isFinal_of_mem_leftovers {r : Remainders} {c : Chunk} (h : c ∈ r.leftovers) :
    c.isFinal = true := by
  obtain ⟨d, -, rfl⟩ := List.mem_map.1 (r.leftovers_perm.mem_iff.1 h)
  rfl

theorem Remainders.sum_credit_leftovers (r : Remainders) :
    (r.leftovers.map Chunk.credit).sum = r.chunks.length := by
  have hones : r.leftovers.map Chunk.credit = List.replicate r.leftovers.length 1 := by
    refine List.eq_replicate_iff.2 ⟨List.length_map _, fun n hn => ?_⟩
    obtain ⟨c, hc, rfl⟩ := List.mem_map.1 hn
    rw [Chunk.credit, if_pos (isFinal_of_mem_leftovers hc)]
  rw [hones, List.sum_replicate_nat, Nat.mul_one, r.leftovers_perm.length_eq, List.length_map]

theorem filterMap_remainder_replies (file : String) (outcome : Outcome) :
    (Worker.replies file outcome).filterMap Reply.remainder? = outcome.remainder.toList := by
  have hwarn : (outcome.warnings.map Reply.warning).filterMap Reply.remainder? = [] := by
    simp [Reply.remainder?, Reply.warning]
  rw [Worker.replies, List.filterMap_append, List.filterMap_append, hwarn]
  cases outcome.remainder <;> rfl

namespace TokenTree

variable {p : TokenTree}

theorem remainder_of_isFinal {c : Chunk} {outcome : Outcome} (hfinal : c.isFinal = true)
    (h : p.outcome c = .ok outcome) : outcome.remainder = none := by
  simp only [Chunk.isFinal, Bool.and_eq_true, Bool.not_eq_true'] at hfinal
  rw [TokenTree.outcome, if_pos hfinal.1, parseClosed] at h
  split at h
  · rw [← Except.ok.inj h]
    rfl
  · rw [hfinal.2, if_neg Bool.false_ne_true] at h
    cases h

/-- A job and what is handed back from it are paid for by its chunk. -/
theorem length_remainders_lt {job : Job Chunk} {batch : Nat} {memory : Memory}
    {replies : List Reply} (h : (Worker.runJob p.toParser batch job memory).value = .ok replies) :
    (replies.filterMap Reply.remainder?).length < job.payload.credit := by
  simp only [Worker.runJob, toParser, Answer.map] at h
  split at h
  · rename_i outcome houtcome
    rw [← Except.ok.inj h, filterMap_remainder_replies, Chunk.credit]
    split
    · rename_i hfinal
      rw [remainder_of_isFinal hfinal houtcome]
      exact Nat.one_pos
    · have hone : outcome.remainder.toList.length ≤ 1 := by cases outcome.remainder <;> simp
      omega
  · rw [← Except.ok.inj h, Chunk.credit]
    split
    · exact Nat.one_pos
    · exact Nat.two_pos
  · cases h

end TokenTree

namespace Pool

variable {p : TokenTree} {batch workers : Nat} {memory : Memory} {queued : List Chunk}
  {closed : Bool} {counter : JobCounter} {j k : Journal} {q q' : Pool Memory}

/-- How many jobs the chunks in a pool may still cost. -/
def jobsToCome (q : Pool Memory) : Nat := (q.awaiting.map Chunk.credit).sum + q.held.length

theorem sum_credit_perm {a b : List Chunk} (h : a.Perm b) :
    (a.map Chunk.credit).sum = (b.map Chunk.credit).sum := (h.map Chunk.credit).sum_nat

/-- No move costs more than what was paid. -/
theorem Shift.jobsToCome_le (h : Shift ⟨p.toParser, batch⟩ q k q') :
    k.taken.length + q'.jobsToCome ≤ q.jobsToCome + 2 * (k.chunksFrom .submitted).length := by
  cases h with
  | still unworked entered awaiting held =>
      rw [unworked.taken, jobsToCome, jobsToCome, sum_credit_perm awaiting, held.length_eq]
      simp
  | parse worker job work awaiting held =>
      have hpaid : (k.replies.filterMap Reply.remainder?).length < job.payload.credit := by
        rw [work, Journal.ofWork]
        split
        · rename_i replies hrun
          exact TokenTree.length_remainders_lt hrun
        · unfold Chunk.credit
          split <;> simp
      have htaken : k.taken.length = 1 := by
        rw [work, Journal.ofWork_taken]
        rfl
      have hawaiting := sum_credit_perm awaiting
      have hheld := held.length_eq
      rw [List.map_cons, List.sum_cons] at hawaiting
      rw [List.length_append] at hheld
      simp only [jobsToCome]
      omega
  | join c joined merged alone unworked entered inserts awaiting held =>
      have hjoined := Chunk.sum_credit_le joined
      -- Two parts or more are joined to one chunk, and each of them still had one job.
      have hpairs := inserts.pairs
      have hawaiting := sum_credit_perm awaiting
      have hheld := held.length_eq
      rw [List.map_append, List.sum_append] at hawaiting
      rw [List.length_append] at hheld
      simp only [jobsToCome, unworked.taken, List.length_nil]
      omega
  | flush unworked quiet entered awaiting held =>
      have hleft := q.dispatcher.remainders.sum_credit_leftovers
      have hawaiting := sum_credit_perm awaiting
      have hheld := held.length_eq
      rw [List.map_append, List.sum_append] at hawaiting
      rw [List.length_append] at hheld
      simp only [jobsToCome, unworked.taken, List.length_nil]
      omega
  | submit c unworked entered awaiting held =>
      have hone : (k.chunksFrom .submitted).length = 1 := by
        rw [Journal.chunksFrom, entered]
        rfl
      have hawaiting := sum_credit_perm awaiting
      have hheld := held.length_eq
      have hc := c.credit_le
      rw [List.map_cons, List.sum_cons] at hawaiting
      simp only [jobsToCome, unworked.taken, List.length_nil]
      omega

/-- All jobs so far and all jobs to come are paid for by the chunks from outside. -/
def Paid (queued : List Chunk) (j : Journal) (q : Pool Memory) : Prop :=
  j.taken.length + q.jobsToCome ≤ 2 * (queued.length + (j.chunksFrom .submitted).length)

theorem Paid.shift (h : Paid queued j q) (hshift : Shift ⟨p.toParser, batch⟩ q k q') :
    Paid queued (j ++ k) q' := by
  have hstep := hshift.jobsToCome_le
  rw [Paid] at h ⊢
  rw [Journal.append_taken, Journal.chunksFrom_append, List.length_append, List.length_append]
  omega

/-- A job that went out was taken up or lies in an inbox, where its chunk counts. -/
theorem Paid.handed_le (h : Paid queued j q) (hsteady : Steady counter queued j q) :
    j.handed.length ≤ 2 * (queued.length + (j.chunksFrom .submitted).length) := by
  have hhanded := hsteady.accounted.handed.length_eq
  have hpositive (cs : List Chunk) : cs.length ≤ (cs.map Chunk.credit).sum := by
    induction cs with
    | nil => exact Nat.le_refl 0
    | cons c cs ih =>
        have hc : 1 ≤ c.credit := by
          unfold Chunk.credit
          split <;> omega
        simp only [List.map_cons, List.sum_cons, List.length_cons]
        omega
  have hinbox := hpositive q.awaiting
  rw [Paid, jobsToCome] at h
  rw [List.length_append] at hhanded
  rw [awaiting, List.length_append, List.length_map, List.length_map, ← awaiting] at hinbox
  omega

/-- While a run goes on every job is paid for. What a run that has stopped did is
bounded all the same. -/
structure Bounded (p : TokenTree) (batch workers : Nat) (queued : List Chunk) (closed : Bool)
    (counter : JobCounter) (j : Journal) (q : Pool Memory) : Prop where
  handed : j.handed.length ≤ 2 * (queued.length + (j.asked.filterMap Request.chunk?).length)
  steady : q.halt = none → Steady counter queued j q
  paid : q.halt = none → Paid queued j q
  heeds : q.halt = none → Heeds closed j q
  manned : q.halt = none → Manned ⟨p.toParser, batch⟩ workers q

theorem Heeds.length_submitted_le (h : Heeds closed j q) :
    (j.chunksFrom .submitted).length ≤ (j.asked.filterMap Request.chunk?).length := by
  have haccepted := Request.length_accepted_le j.heard
  rw [h.submitted, h.asked, List.filterMap_append, List.length_append]
  split
  · exact Nat.zero_le _
  · omega

theorem Bounded.of_going (hsteady : Steady counter queued j q) (hpaid : Paid queued j q)
    (hheeds : Heeds closed j q) (hmanned : Manned ⟨p.toParser, batch⟩ workers q) :
    Bounded p batch workers queued closed counter j q := by
  have hhanded := hpaid.handed_le hsteady
  have hsubmitted := hheeds.length_submitted_le
  exact ⟨by omega, fun _ => hsteady, fun _ => hpaid, fun _ => hheeds, fun _ => hmanned⟩

/-- A pool that has stopped hands nothing out and does not go on. -/
theorem move_of_halt {σ : Type} {crew : Crew σ} {p q : Pool σ} {m : Move} (hhalt : p.halt ≠ none)
    (hm : p.move? crew m = some q) : (p.observe crew m).handed = [] ∧ q.halt ≠ none := by
  have hover : p.isOver = true := by
    simp [isOver, Option.isSome_iff_ne_none, hhalt]
  refine ⟨?_, fun hgoes => hhalt (passes_of_move hm hgoes).1⟩
  cases m with
  | takeReport | takeRequest | noticeLeft => simp [move?, hover] at hm
  | work worker =>
      simp only [observe]
      split
      · exact Journal.ofWork_handed ..
      · rfl
  | report | ask | seeWanted | leave => rfl

theorem Bounded.move {m : Move} (h : Bounded p batch workers queued closed counter j q)
    (hm : q.move? ⟨p.toParser, batch⟩ m = some q') :
    Bounded p batch workers queued closed counter (j ++ q.observe ⟨p.toParser, batch⟩ m) q' := by
  -- A move that leaves the pool stopped hands nothing out.
  have hstops (hnone : (q.observe ⟨p.toParser, batch⟩ m).handed = []) (hhalt : q'.halt ≠ none) :
      Bounded p batch workers queued closed counter (j ++ q.observe ⟨p.toParser, batch⟩ m) q' := by
    refine ⟨?_, fun h => absurd h hhalt, fun h => absurd h hhalt, fun h => absurd h hhalt,
      fun h => absurd h hhalt⟩
    have hhanded := h.handed
    rw [Journal.append_handed, Journal.append_asked, hnone, List.append_nil,
      List.filterMap_append, List.length_append]
    omega
  by_cases hhalt : q.halt = none
  · by_cases hgoes : q'.halt = none
    · obtain ⟨-, hpasses⟩ := passes_of_move hm hgoes
      obtain ⟨hsteady, hshift⟩ := (h.steady hhalt).passes hpasses
      exact .of_going hsteady ((h.paid hhalt).shift hshift) ((h.heeds hhalt).passes hpasses)
        ((h.manned hhalt).passes hpasses)
    · rcases (h.manned hhalt).goes_on hhalt hm with hnone | ⟨rfl, worker, message, reports, hreports⟩
      · exact absurd hnone hgoes
      · exact hstops (by rw [observe, hreports]) hgoes
  · obtain ⟨hnone, hgoes⟩ := move_of_halt hhalt hm
    exact hstops hnone hgoes

/-- A run parses at most twice as many chunks as were queued or submitted, whatever the
front end says, and also when it is cut short. A leftover hands nothing back. -/
theorem length_handed_le {p : TokenTree} {batch workers : Nat} {memory : Memory}
    {queued : List Chunk} {closed : Bool} {counter : JobCounter} {moves : List Move}
    {q : Pool Memory}
    (hrun : (prepared workers memory queued closed counter).start.replay? ⟨p.toParser, batch⟩
      moves = some q) :
    ((prepared workers memory queued closed counter).journal ⟨p.toParser, batch⟩
          moves).handed.length ≤
        2 * (queued.length + ((asks moves).filterMap Request.chunk?).length) ∧
      ∀ (r : Remainders), ∀ c ∈ r.leftovers, ∀ (clear : Bool) (memory : Memory) (outcome : Outcome),
        (p.toParser.parseChunk c clear memory).value = .ok outcome → outcome.remainder = none := by
  constructor
  · obtain ⟨hhalt, hmanned⟩ := manned_start ⟨p.toParser, batch⟩ workers memory queued closed
      counter
    obtain ⟨hsteady, hawaiting, hheld⟩ := Steady.start hhalt
    have hpaid : Paid queued
        { handed :=
            jobsTold (prepared workers memory queued closed counter).dispatcher.start.orders }
        (prepared workers memory queued closed counter).start := by
      have hcredit := Chunk.sum_credit_le queued
      rw [Paid, jobsToCome, sum_credit_perm hawaiting, hheld, List.length_nil, List.length_nil]
      omega
    have hbounded := replay_induction (Bounded p batch (max workers 1) queued closed counter)
      (.of_going hsteady hpaid (Heeds.start hhalt) hmanned)
      (fun _ _ _ _ h hm => h.move hm) hrun
    have hhanded := hbounded.handed
    rwa [journal_asked hrun] at hhanded
  · intro r c hc clear memory outcome hparse
    exact TokenTree.remainder_of_isFinal (Remainders.isFinal_of_mem_leftovers hc) hparse

/-- The bound is reached: a single chunk is handed back, flushed and parsed again. -/
theorem two_jobs_for_one_chunk :
    let queued : List Chunk := [⟨"f", ['a'], 0, 0, 0, false, true, true⟩]
    let turn : List Move := [.work 0, .report 0, .takeReport]
    let moves : List Move := turn ++ [.report 0, .takeReport] ++ turn ++ turn ++ turn
    let p := prepared 1 {} queued true
    let crew : Crew Memory := ⟨itemizing.toParser, 0⟩
    ∃ q, p.start.replay? crew moves = some q ∧ q.outcome? = some (.ok []) ∧
      (p.journal crew moves).handed.length = 2 ∧
      (p.journal crew moves).handed.length ≤
        2 * (queued.length + ((asks moves).filterMap Request.chunk?).length) := by
  intro queued turn moves p crew
  have hrun : (p.start.replay? crew moves).map
      (fun q => (q.halt, q.dispatcher.phase, q.dispatcher.found)) = some (none, .done, []) := by
    decide +kernel
  have htwo : (p.journal crew moves).handed.length = 2 := by decide +kernel
  obtain ⟨q, hq, hok⟩ := exists_outcome_eq_ok hrun
  exact ⟨q, hq, hok, htwo, (length_handed_le hq).1⟩

end Pool

end ClonePrint
