import Mathlib.Data.List.TakeWhile
import ClonePrint.Proofs.Bookkeeping
import ClonePrint.Proofs.WireFormat

/-!
# A worker behind lines and a worker of a pool

A worker of a pool carries out what it is told until it leaves. The same worker may be
served its dispatches as lines. Then its replies go out as lines, and read back they are
what the worker of the pool reports.
-/
namespace ClonePrint

open Worker (serve)

variable {σ : Type}

/-- How a worker answers: messages about a job, at most one remainder and one result for
the file of the job, or that it is idle. A worker that is sent away says nothing. -/
inductive Dispatch.Answered : Dispatch → List Reply → Prop
  | job (job : Job Chunk) (lines : List String) (remainder : Option Chunk)
      (found : List Fingerprint) :
      Answered (.job job) (lines.map .warning ++ (remainder.map Reply.remainder).toList ++
        [.result job.payload.file found])
  | noJob : Answered .noJob [.idle]

def Outcome.Fits (outcome : Outcome) : Prop :=
  (∀ f ∈ outcome.found, f.Fits) ∧ ∀ c ∈ outcome.remainder, c.Fits

/-- Whatever a parser makes of a chunk, its numbers are as wide as the wire allows. -/
def Parser.FitsOn (p : Parser σ) (chunk : Chunk) : Prop :=
  ∀ clear memory outcome, (p.parseChunk chunk clear memory).value = .ok outcome → outcome.Fits

/-- What a worker of a pool does while it is told one thing after the other. -/
def Crew.attend (crew : Crew σ) (memory : σ) : List Dispatch → Answer σ (List Report)
  | [] => { value := [], memory }
  | what :: ds =>
      let answer := crew.carryOut what memory
      if answer.value.2 then
        let rest := attend crew answer.memory ds
        { value := answer.value.1 ++ rest.value
          memory := rest.memory
          notices := answer.notices ++ rest.notices }
      else { value := answer.value.1, memory := answer.memory, notices := answer.notices }

section
variable {p : Parser σ} {crew : Crew σ} {batch : Nat} {memory : σ}

theorem fits_replies {file : String} {outcome : Outcome} (h : outcome.Fits) :
    ∀ reply ∈ Worker.replies file outcome, reply.Fits := by
  intro reply hreply
  unfold Worker.replies at hreply
  simp only [List.mem_append, List.mem_map, Option.mem_toList, Option.map_eq_some_iff,
    List.mem_singleton] at hreply
  rcases hreply with (⟨line, -, rfl⟩ | ⟨c, hc, rfl⟩) | rfl
  · trivial
  · exact h.2 c hc
  · exact h.1

theorem runJob_fits {job : Job Chunk} (h : p.FitsOn job.payload) {replies : List Reply}
    (hrun : (Worker.runJob p batch job memory).value = .ok replies) :
    ∀ reply ∈ replies, reply.Fits := by
  simp only [Worker.runJob, Answer.map] at hrun
  split at hrun
  · rename_i outcome hparse
    obtain rfl := Except.ok.inj hrun
    exact fits_replies (h _ _ _ hparse)
  · obtain rfl := Except.ok.inj hrun
    simp [Reply.Fits, Reply.warning]
  · cases hrun

/-- A worker that is not sent away answers and stays. -/
theorem carryOut_answers (calm : crew.parser.NeverCrashes) (memory : σ) {what : Dispatch}
    (hopen : what ≠ .close) :
    ∃ replies, (crew.carryOut what memory).value = (replies.map .said, true) ∧
      what.Answered replies ∧
      ((∀ job, what = .job job → crew.parser.FitsOn job.payload) →
        ∀ reply ∈ replies, reply.Fits) := by
  cases what with
  | job job =>
      cases hrun : (Worker.runJob crew.parser crew.batch job memory).value with
      | error crash => exact absurd hrun (calm.runJob _ _ _ _)
      | ok replies =>
          refine ⟨replies, ?_, ?_, fun h => runJob_fits (h job rfl) hrun⟩
          · simp only [Crew.carryOut, Answer.map, hrun]
          · obtain ⟨outcome, rfl⟩ := runJob_replies hrun
            exact .job job outcome.warnings outcome.remainder outcome.found
  | noJob => exact ⟨[.idle], rfl, .noJob, fun _ => by simp [Reply.Fits]⟩
  | close => exact absurd rfl hopen

end

namespace Crew

variable {crew : Crew σ} {memory : σ} {ds : List Dispatch}

theorem attend_cons {what : Dispatch} {reports : List Report}
    (h : (crew.carryOut what memory).value = (reports, true)) :
    crew.attend memory (what :: ds) =
      { value := reports ++ (crew.attend (crew.carryOut what memory).memory ds).value
        memory := (crew.attend (crew.carryOut what memory).memory ds).memory
        notices := (crew.carryOut what memory).notices ++
          (crew.attend (crew.carryOut what memory).memory ds).notices } := by
  rw [attend]
  simp only [h, if_true]

/-- Nothing that comes after it was sent away reaches a worker. -/
theorem attend_close (calm : crew.parser.NeverCrashes) (hopen : .close ∉ ds)
    (more : List Dispatch) : crew.attend memory (ds ++ .close :: more) = crew.attend memory ds := by
  induction ds generalizing memory with
  | nil => rfl
  | cons what ds ih =>
      have hwhat : what ≠ .close := (List.ne_of_not_mem_cons hopen).symm
      have hds : .close ∉ ds := List.not_mem_of_not_mem_cons hopen
      obtain ⟨replies, hanswer, -⟩ := carryOut_answers calm memory hwhat
      rw [List.cons_append, attend_cons hanswer, attend_cons hanswer, ih hds]

/-- The answers that a worker of a pool gives, one for each thing that it is told. -/
structure Gives (crew : Crew σ) (memory : σ) (ds : List Dispatch) (answers : List (List Reply)) :
    Prop where
  reported : (crew.attend memory ds).value = answers.flatten.map .said
  answered : List.Forall₂ Dispatch.Answered ds answers
  fits : (∀ job, .job job ∈ ds → crew.parser.FitsOn job.payload) →
    ∀ reply ∈ answers.flatten, reply.Fits

theorem Gives.cons {what : Dispatch} {replies : List Reply} {answers : List (List Reply)}
    (hanswer : (crew.carryOut what memory).value = (replies.map .said, true))
    (hwhat : what.Answered replies)
    (hfits : (∀ job, what = .job job → crew.parser.FitsOn job.payload) →
      ∀ reply ∈ replies, reply.Fits)
    (h : crew.Gives (crew.carryOut what memory).memory ds answers) :
    crew.Gives memory (what :: ds) (replies :: answers) := by
  constructor
  · rw [attend_cons hanswer, h.reported, List.flatten_cons, List.map_append]
  · exact .cons hwhat h.answered
  · intro hall reply hreply
    rw [List.flatten_cons, List.mem_append] at hreply
    rcases hreply with hreply | hreply
    · exact hfits (fun job hjob => hall job (by simp [hjob])) reply hreply
    · exact h.fits (fun job hjob => hall job (by simp [hjob])) reply hreply

end Crew

namespace Pool

/-- A worker is told something and takes it up. -/
def tell? (crew : Crew σ) (worker : Nat) (p : Pool σ) (what : Dispatch) : Option (Pool σ) :=
  match deliver [(worker, what)] p.seats with
  | .ok seats => { p with seats }.move? crew (.work worker)
  | .error _ => none

theorem tell?_eq (crew : Crew σ) {worker : Nat} {p : Pool σ} {outbox : List Report}
    (h : p.seats[worker]? = some ⟨none, outbox, true⟩) (what : Dispatch) :
    ∃ q, p.tell? crew worker what = some q ∧
      q.memory = (crew.carryOut what p.memory).memory ∧
      q.notices = p.notices ++ (crew.carryOut what p.memory).notices ∧
      q.seats[worker]? = some ⟨none, outbox ++ (crew.carryOut what p.memory).value.1,
        (crew.carryOut what p.memory).value.2⟩ := by
  obtain ⟨hlt, -⟩ := List.getElem?_eq_some_iff.1 h
  have hdeliver : deliver [(worker, what)] p.seats =
      .ok (p.seats.set worker ⟨some what, outbox, true⟩) := by
    simp [deliver, h]
  rw [tell?, hdeliver]
  simp [move?, hlt]

/-- A worker that has left is told nothing more. -/
theorem tell?_eq_none (crew : Crew σ) {worker : Nat} {p : Pool σ} {outbox : List Report}
    (h : p.seats[worker]? = some ⟨none, outbox, false⟩) (what : Dispatch) :
    p.tell? crew worker what = none := by
  have hdeliver : deliver [(worker, what)] p.seats =
      .error (.failed (.pool ("worker " ++ toString worker ++ " hung up"))) := by
    simp [deliver, h]
  rw [tell?, hdeliver]

/-- The outbox of a worker that is told one thing after the other fills with what `attend`
says. -/
theorem outbox_of_tell {crew : Crew σ} (calm : crew.parser.NeverCrashes) {worker : Nat}
    {p : Pool σ} {outbox : List Report} (h : p.seats[worker]? = some ⟨none, outbox, true⟩)
    {ds : List Dispatch} (hopen : .close ∉ ds) :
    ∃ q, ds.foldlM (tell? crew worker) p = some q ∧
      q.memory = (crew.attend p.memory ds).memory ∧
      q.notices = p.notices ++ (crew.attend p.memory ds).notices ∧
      q.seats[worker]? = some ⟨none, outbox ++ (crew.attend p.memory ds).value, true⟩ := by
  induction ds generalizing p outbox with
  | nil => exact ⟨p, rfl, rfl, (List.append_nil _).symm, by simpa [Crew.attend] using h⟩
  | cons what ds ih =>
      have hwhat : what ≠ .close := (List.ne_of_not_mem_cons hopen).symm
      have hds : .close ∉ ds := List.not_mem_of_not_mem_cons hopen
      obtain ⟨replies, hanswer, -⟩ := carryOut_answers calm p.memory hwhat
      obtain ⟨q, hq, hmemory, hnotices, hseat⟩ := tell?_eq crew h what
      rw [hanswer] at hseat
      obtain ⟨r, hr, hmemory', hnotices', hseat'⟩ := ih hseat hds
      refine ⟨r, ?_, ?_, ?_, ?_⟩
      · rw [List.foldlM_cons, hq]
        exact hr
      · rw [hmemory', hmemory, Crew.attend_cons hanswer]
      · rw [hnotices', hmemory, hnotices, Crew.attend_cons hanswer, List.append_assoc]
      · rw [hseat', hmemory, Crew.attend_cons hanswer, List.append_assoc]

end Pool

namespace Worker

variable {crew : Crew σ} {memory : σ} {ds : List Dispatch}

/-- A service that begins with some jobs, replies and notices. -/
def Served.behind (jobs : Nat) (replies : List Reply) (notices : List Notice) (s : Served σ) :
    Served σ :=
  { s with
    jobs := jobs + s.jobs
    output := replies.map Wire.encodeLine ++ s.output
    notices := notices ++ s.notices }

theorem Served.behind_behind (jobs more : Nat) (replies others : List Reply)
    (notices news : List Notice) (s : Served σ) :
    (s.behind more others news).behind jobs replies notices =
      s.behind (jobs + more) (replies ++ others) (notices ++ news) := by
  simp [behind, Nat.add_assoc]

/-- What several lines tell a worker. -/
inductive Tells : List Text → List Dispatch → Prop
  | nil : Tells [] []
  | blank {line : Text} {lines : List Text} {ds : List Dispatch}
      (h : Text.isAllBlank line = true) : Tells lines ds → Tells (line :: lines) ds
  | cons {line : Text} {lines : List Text} {what : Dispatch} {ds : List Dispatch}
      (h : Text.isAllBlank line = false) (hread : Wire.decodeLine? line = some what) :
      Tells lines ds → Tells (line :: lines) (what :: ds)

theorem serve_blank (p : Parser σ) (batch : Nat) (memory : σ) {line : Text}
    (h : Text.isAllBlank line = true) (lines : List (Option Text)) :
    serve p batch memory (some line :: lines) = serve p batch memory lines := by
  rw [serve, if_pos h]

theorem serve_close (p : Parser σ) (batch : Nat) (memory : σ) {line : Text}
    (h : Text.isAllBlank line = false) (hread : Wire.decodeLine? line = some Dispatch.close)
    (lines : List (Option Text)) : serve p batch memory (some line :: lines) = { memory } := by
  rw [serve, if_neg (by simp [h]), hread]

theorem serve_invalid (p : Parser σ) (batch : Nat) (memory : σ) {line : Text}
    (h : Text.isAllBlank line = false) (hread : Wire.decodeLine? (α := Dispatch) line = none)
    (lines : List (Option Text)) : serve p batch memory (some line :: lines) =
      { memory, failure := some (.error (.protocol "invalid message")) } := by
  rw [serve, if_neg (by simp [h]), hread]

/-- A line that tells a worker something is answered before the next one is read. -/
theorem serve_cons {line : Text} {what : Dispatch} {replies : List Reply}
    (h : Text.isAllBlank line = false) (hread : Wire.decodeLine? line = some what)
    (hopen : what ≠ .close)
    (hanswer : (crew.carryOut what memory).value = (replies.map .said, true))
    (lines : List (Option Text)) :
    serve crew.parser crew.batch memory (some line :: lines) =
      (serve crew.parser crew.batch (crew.carryOut what memory).memory lines).behind
        what.job?.toList.length replies (crew.carryOut what memory).notices := by
  rw [serve, if_neg (by simp [h]), hread]
  cases what with
  | job job =>
      simp only [Crew.carryOut, Answer.map] at hanswer ⊢
      cases hrun : (runJob crew.parser crew.batch job memory).value with
      | error crash => simp [hrun] at hanswer
      | ok sent =>
          have hinjective : Function.Injective Report.said := fun _ _ => Report.said.inj
          rw [hrun] at hanswer
          obtain rfl := hinjective.list_map (Prod.mk.inj hanswer).1
          simp [Served.behind, Dispatch.job?, Nat.add_comm]
  | noJob =>
      cases replies with
      | nil => cases hanswer
      | cons reply more =>
          obtain ⟨hreply, hmore⟩ := List.cons.inj (Prod.mk.inj hanswer).1
          obtain rfl := Report.said.inj hreply
          obtain rfl := List.map_eq_nil_iff.1 hmore.symm
          simp [Served.behind, Dispatch.job?, Crew.carryOut]
  | close => exact absurd rfl hopen

/-- Lines that tell a worker to go on are answered as they are in a pool. -/
theorem serve_append (calm : crew.parser.NeverCrashes) {texts : List Text} (h : Tells texts ds)
    (hopen : .close ∉ ds) (memory : σ) (rest : List (Option Text)) :
    ∃ answers, crew.Gives memory ds answers ∧
      serve crew.parser crew.batch memory (texts.map some ++ rest) =
        (serve crew.parser crew.batch (crew.attend memory ds).memory rest).behind
          (ds.filterMap Dispatch.job?).length answers.flatten (crew.attend memory ds).notices := by
  induction h generalizing memory with
  | nil => exact ⟨[], ⟨rfl, .nil, by simp⟩, by simp [Served.behind, Crew.attend]⟩
  | blank hblank _ ih =>
      rw [List.map_cons, List.cons_append, serve_blank _ _ _ hblank]
      exact ih hopen memory
  | @cons line lines what ds hline hread _ ih =>
      have hwhat : what ≠ .close := (List.ne_of_not_mem_cons hopen).symm
      have hds : .close ∉ ds := List.not_mem_of_not_mem_cons hopen
      obtain ⟨replies, hanswer, hanswered, hfits⟩ := carryOut_answers calm memory hwhat
      obtain ⟨answers, hgives, hserve⟩ := ih hds (crew.carryOut what memory).memory
      refine ⟨replies :: answers, hgives.cons hanswer hanswered hfits, ?_⟩
      rw [List.map_cons, List.cons_append, serve_cons hline hread hwhat hanswer, hserve,
        Served.behind_behind, Crew.attend_cons hanswer]
      cases hjob : what.job? <;> simp [hjob, Nat.add_comm]

/-- Blank lines mean nothing. -/
theorem serve_filter (p : Parser σ) (batch : Nat) (memory : σ) (lines : List (Option Text)) :
    serve p batch memory lines =
      serve p batch memory (lines.filter fun line => !line.any Text.isAllBlank) := by
  induction lines generalizing memory with
  | nil => rfl
  | cons line lines ih =>
      cases line with
      | none => rfl
      | some line =>
          cases hblank : Text.isAllBlank line with
          | true => rw [serve_blank _ _ _ hblank, List.filter_cons_of_neg (by simp [hblank]), ih]
          | false =>
              rw [List.filter_cons_of_pos (by simp [hblank]), serve, serve]
              simp only [← ih]

/-- A service went the way of a worker in a pool. -/
structure Served.Follows (served : Served σ) (failure : Option Failure) (heard : List Dispatch)
    (attended : Answer σ (List Report)) (answers : List (List Reply)) : Prop where
  failure : served.failure = failure
  jobs : served.jobs = (heard.filterMap Dispatch.job?).length
  memory : served.memory = attended.memory
  notices : served.notices = attended.notices
  reported : attended.value = answers.flatten.map .said
  output : served.output = answers.flatten.map Wire.encodeLine
  answered : List.Forall₂ Dispatch.Answered heard answers

/-- What ends a service ends it behind all the answers that were due. -/
theorem follows_of_tells (calm : crew.parser.NeverCrashes) {texts : List Text}
    (h : Tells texts ds) (hopen : .close ∉ ds) (memory : σ) (rest : List (Option Text))
    {failure : Option Failure}
    (hrest : ∀ memory, serve crew.parser crew.batch memory rest = { memory, failure }) :
    ∃ answers, crew.Gives memory ds answers ∧
      (serve crew.parser crew.batch memory (texts.map some ++ rest)).Follows failure ds
        (crew.attend memory ds) answers := by
  obtain ⟨answers, hgives, hserve⟩ := serve_append calm h hopen memory rest
  refine ⟨answers, hgives, ?_⟩
  rw [hserve, hrest]
  constructor
  · rfl
  · rfl
  · rfl
  · exact List.append_nil _
  · exact hgives.reported
  · exact List.append_nil _
  · exact hgives.answered

/-- A line that is not text ends a service as well. -/
theorem serve_not_text (calm : crew.parser.NeverCrashes) {texts : List Text} (h : Tells texts ds)
    (hopen : .close ∉ ds) (memory : σ) (rest : List (Option Text)) :
    ∃ answers, (serve crew.parser crew.batch memory (texts.map some ++ none :: rest)).Follows
      (some (.error (.io "stream did not contain valid UTF-8"))) ds (crew.attend memory ds)
        answers := by
  obtain ⟨answers, -, hfollows⟩ := follows_of_tells calm h hopen memory (none :: rest)
    fun memory => rfl
  exact ⟨answers, hfollows⟩

/-- The lines of several dispatches tell a worker just these. -/
theorem tells_write (h : ∀ what ∈ ds, what.Fits) :
    Tells (ds.map fun what => (Wire.Encoded.toJson what).write) ds := by
  induction ds with
  | nil => exact .nil
  | cons what ds ih =>
      have hwhat := Wire.faithful_dispatch (h what (by simp))
      exact .cons hwhat.isAllBlank_write hwhat.decodeLine?_write (ih fun d hd => h d (by simp [hd]))

theorem takeWhile_of_open (hopen : .close ∉ ds) : ds.takeWhile (· ≠ .close) = ds := by
  rw [List.takeWhile_eq_self_iff]
  intro what hwhat
  have hne : what ≠ .close := fun h => hopen (h ▸ hwhat)
  simpa using hne

/-- Dispatches that are sent as lines are served as a worker of a pool carries them out. -/
theorem serve_encoded (calm : crew.parser.NeverCrashes) (hfits : ∀ what ∈ ds, what.Fits)
    (memory : σ) :
    ∃ answers, crew.Gives memory (ds.takeWhile (· ≠ .close)) answers ∧
      (serve crew.parser crew.batch memory
        (decodeLines (Text.bytes (ds.flatMap Wire.encodeLine)))).Follows
          none (ds.takeWhile (· ≠ .close)) (crew.attend memory ds) answers := by
  rw [Wire.decodeLines_encodeLine fun what hwhat => Wire.faithful_dispatch (hfits what hwhat)]
  -- what stands behind the first dispatch that sends the worker away is not looked at
  by_cases hclose : .close ∈ ds
  · obtain ⟨heard, more, rfl, hopen⟩ := List.eq_append_cons_of_mem hclose
    have hend : Wire.Faithful Dispatch.close := Wire.faithful_dispatch trivial
    have htells := tells_write fun what (hwhat : what ∈ heard) => hfits what (by simp [hwhat])
    have hheard : (heard ++ .close :: more).takeWhile (· ≠ .close) = heard := by
      rw [List.takeWhile_append, takeWhile_of_open hopen]
      simp
    rw [hheard, Crew.attend_close calm hopen, List.map_append, List.map_cons, List.map_append,
      List.map_cons]
    exact follows_of_tells calm htells hopen memory _ fun memory =>
      serve_close _ _ memory hend.isAllBlank_write hend.decodeLine?_write _
  · have hserve := follows_of_tells calm (tells_write hfits) hclose memory []
      fun memory => rfl
    rw [List.append_nil] at hserve
    rwa [takeWhile_of_open hclose]

end Worker

namespace Crew

/-- A worker that is served lines does what a worker of a pool does. Its output is read
back as the replies that the other one reports, up to the first dispatch that sends it
away. Blank lines mean nothing. A line that cannot be read ends the service with an error
behind the answers to everything before it. -/
theorem serve_follows_attend (crew : Crew σ) (memory : σ) (calm : crew.parser.NeverCrashes) :
    (∀ ds : List Dispatch, (∀ what ∈ ds, what.Fits) →
      (∀ job, .job job ∈ ds → crew.parser.FitsOn job.payload) →
      ∃ answers,
        let served := serve crew.parser crew.batch memory
          (Worker.decodeLines (Text.bytes (ds.flatMap Wire.encodeLine)))
        served.Follows none (ds.takeWhile (· ≠ .close)) (crew.attend memory ds) answers ∧
          (Worker.decodeLines (Text.bytes served.output.flatten)).map (·.bind Wire.decodeLine?) =
            answers.flatten.map some) ∧
    (∀ lines, serve crew.parser crew.batch memory lines =
      serve crew.parser crew.batch memory
        (lines.filter fun line => !line.any Text.isAllBlank)) ∧
    ∀ texts ds bad rest, Worker.Tells texts ds → .close ∉ ds → Text.isAllBlank bad = false →
      Wire.decodeLine? (α := Dispatch) bad = none →
        ∃ answers, (serve crew.parser crew.batch memory
          (texts.map some ++ some bad :: rest)).Follows
            (some (.error (.protocol "invalid message"))) ds (crew.attend memory ds) answers := by
  refine ⟨fun ds hfits hanswers => ?_, Worker.serve_filter _ _ memory, ?_⟩
  · obtain ⟨answers, hgives, hfollows⟩ := Worker.serve_encoded calm hfits memory
    refine ⟨answers, hfollows, ?_⟩
    have hreplies : ∀ reply ∈ answers.flatten, Wire.Faithful reply := by
      intro reply hreply
      apply Wire.faithful_reply
      apply hgives.fits _ reply hreply
      intro job hjob
      exact hanswers job (List.takeWhile_subset _ hjob)
    rw [hfollows.output, ← List.flatMap_def, Wire.decodeLines_encodeLine hreplies, List.map_map,
      List.map_map]
    apply List.map_congr_left
    intro reply hreply
    exact (hreplies reply hreply).decodeLine?_write
  · intro texts ds bad rest htells hopen hblank hbad
    obtain ⟨answers, -, hfollows⟩ := Worker.follows_of_tells calm htells hopen memory _
      fun memory => Worker.serve_invalid _ _ memory hblank hbad rest
    exact ⟨answers, hfollows⟩

end Crew

/-- A parser that hands back what it is given, counts its calls and refuses what is
empty. -/
def returning : Parser Nat where
  language := .java
  splits := false
  parseFile _ _ _ n := ⟨.ok [], n + 1, []⟩
  parseChunk c _ n :=
    ⟨if c.text.isEmpty then .error (.error (.parse "empty"))
      else .ok ⟨[⟨"h", c.file, "f", 1, 1⟩], some c, ["half"]⟩, n + 1, []⟩
  itemStarts _ n := ⟨none, n, []⟩
  clear := id

/-- Two jobs, of which one fails, before a worker is sent away; and a line that cannot be
read behind a blank one. -/
theorem Crew.serve_follows_attend_returning :
    let crew : Crew Nat := ⟨returning, 2⟩
    let half : Chunk := ⟨"a", ['\n'], 0, 0, 0, false, true, true⟩
    let ds : List Dispatch := [.job ⟨half, 0⟩, .noJob, .job ⟨.whole "b" [], 1⟩, .close, .noJob]
    let replies : List Reply :=
      [.log .warn "half", .remainder half, .result "a" [⟨"h", "a", "f", 1, 1⟩], .idle,
       .log .warn "Error while parsing file b, skipping: Parse error: empty", .result "b" []]
    let served := serve crew.parser crew.batch 0
      (Worker.decodeLines (Text.bytes (ds.flatMap Wire.encodeLine)))
    let failed := serve crew.parser crew.batch 0
      ([[' '], (Wire.dispatchJson .noJob).write].map some ++ some ['x'] :: [none])
    (served.failure = none ∧ served.jobs = 2 ∧ served.memory = 2 ∧
      (Worker.decodeLines (Text.bytes served.output.flatten)).map (·.bind Wire.decodeLine?) =
        replies.map some) ∧
      failed.failure = some (.error (.protocol "invalid message")) ∧
      failed.output = [Wire.encodeLine Reply.idle] := by
  intro crew half ds replies
  dsimp only
  have hinjective : Function.Injective (List.map Report.said) :=
    Function.Injective.list_map fun _ _ => Report.said.inj
  have hcalm : crew.parser.NeverCrashes := by
    intro chunk clear memory crash h
    simp only [crew, returning] at h
    split at h <;> cases h
  have hfits : ∀ what ∈ ds, what.Fits := by decide
  have hanswers : ∀ job, .job job ∈ ds → crew.parser.FitsOn job.payload := by
    intro job hjob clear memory outcome h
    simp only [crew, returning] at h
    split at h
    · cases h
    · obtain rfl := Except.ok.inj h
      constructor
      · simp [Fingerprint.Fits, Json.maxWord]
      · intro c hc
        cases hc
        exact (hfits _ hjob).1
  obtain ⟨hserve, -, hbad⟩ := Crew.serve_follows_attend crew 0 hcalm
  obtain ⟨answers, hfollows, hread⟩ := hserve ds hfits hanswers
  have hvalue : (crew.attend 0 ds).value = replies.map .said := by decide
  have hreplies : answers.flatten = replies := hinjective (hfollows.reported.symm.trans hvalue)
  rw [hreplies] at hread
  have hnoJob : ∀ what ∈ [Dispatch.noJob], what.Fits := by decide
  have htells : Worker.Tells [[' '], (Wire.dispatchJson .noJob).write] [.noJob] :=
    .blank (by decide) (Worker.tells_write hnoJob)
  obtain ⟨others, hfailed⟩ := hbad _ _ ['x'] [none] htells (by decide) (by decide) (by decide)
  have hothers : others.flatten = [.idle] := hinjective (hfailed.reported.symm.trans rfl)
  have houtput := hfailed.output
  rw [hothers] at houtput
  exact ⟨⟨hfollows.failure, hfollows.jobs, hfollows.memory, hread⟩, hfailed.failure, houtput⟩

end ClonePrint
