import ClonePrint.Backlog
import ClonePrint.Parser.TokenTree
import ClonePrint.Proofs.Flow

/-!
# One file after the other, or all through a pool

A parser whose answers do not depend on earlier calls has one verdict on each file. A
backlog that is parsed file by file reports the verdicts in the order of the files. A pool
runs one job for each file and nothing comes back from it, so the results and the messages
that arrive are those of the files in some order. A broken file costs its own warning
either way.
-/
namespace ClonePrint

variable {σ : Type}

/-- A parser says the same about a file in every call. -/
structure Parser.Repeats (p : Parser σ)
    (verdict : String → Text → Except Error (List Fingerprint))
    (remarks : String → Text → List Notice) : Prop where
  value (file : String) (text : Text) (clear : Bool) (memory : σ) :
    (p.parseFile file text clear memory).value = (verdict file text).mapError .error
  notices (file : String) (text : Text) (clear : Bool) (memory : σ) :
    (p.parseFile file text clear memory).notices = remarks file text

/-- A parser that works on syntax trees, or takes every chunk for a whole file. -/
inductive Parser.IsPlain : {σ : Type} → Parser σ → Prop
  | tokenTree (t : TokenTree) : IsPlain t.toParser
  | chunkAsFile {σ : Type} (p : Parser σ) (h : p.parseChunk = Parser.chunkAsFile p.parseFile) :
      IsPlain p

section

variable (verdict : String → Text → Except Error (List Fingerprint))
  (remarks : String → Text → List Notice)

/-- What is found in a file, nothing if it is broken. -/
def SourceFile.records (f : SourceFile) : List Fingerprint :=
  match verdict f.name f.text with
  | .ok found => found
  | .error _ => []

def SourceFile.warnings (f : SourceFile) : List String :=
  match verdict f.name f.text with
  | .ok _ => []
  | .error cause => [skippingFile f.name cause]

def SourceFile.notices (f : SourceFile) : List Notice :=
  remarks f.name f.text ++ (f.warnings verdict).map .warning

end

variable {p : Parser σ} {verdict : String → Text → Except Error (List Fingerprint)}
  {remarks : String → Text → List Notice}

namespace Backlog

theorem map_fst_markBatches (batch left : Nat) (files : List SourceFile) :
    (markBatches batch left files).map Prod.fst = files := by
  induction files generalizing left with
  | nil => rfl
  | cons f more ih =>
      rw [markBatches]
      split_ifs
      · rw [List.map_cons, ih]
      · rw [List.map_cons, ih]

/-- Parsing one file after the other reports what each of them holds. -/
theorem parseEach_eq (h : p.Repeats verdict remarks) (memory : σ)
    (marked : List (SourceFile × Bool)) :
    (parseEach p memory marked).value =
        .ok ((marked.map Prod.fst).flatMap (·.records verdict)) ∧
      (parseEach p memory marked).notices =
        (marked.map Prod.fst).flatMap (·.notices verdict remarks) := by
  induction marked generalizing memory with
  | nil => exact ⟨rfl, rfl⟩
  | cons entry more ih =>
      obtain ⟨f, clear⟩ := entry
      obtain ⟨hvalue, hnotices⟩ := ih (p.parseFile f.name f.text clear memory).memory
      have hfirst := h.value f.name f.text clear memory
      have hremarks := h.notices f.name f.text clear memory
      rw [parseEach, List.map_cons, List.flatMap_cons, List.flatMap_cons]
      cases hverdict : verdict f.name f.text with
      | ok found =>
          rw [hverdict] at hfirst
          simp only [hfirst, Except.mapError, hvalue, hnotices, hremarks, Except.map]
          simp [SourceFile.records, SourceFile.notices, SourceFile.warnings, hverdict]
      | error cause =>
          rw [hverdict] at hfirst
          simp only [hfirst, Except.mapError, hvalue, hnotices, hremarks]
          simp [SourceFile.records, SourceFile.notices, SourceFile.warnings, hverdict]

end Backlog

namespace Parser

theorem map_shifted_zero (found : List Fingerprint) :
    found.map (Fingerprint.shifted 0) = found := by
  induction found with
  | nil => rfl
  | cons f more ih => rw [List.map_cons, ih]; rfl

/-- A parser that works on syntax trees has one verdict on each file. -/
theorem repeats_tokenTree (t : TokenTree) :
    t.toParser.Repeats (fun file text => t.parseStrict file text 0) fun _ _ => [] := by
  constructor
  · intros; rfl
  · intros; rfl

theorem parseStrict_of_repeats {t : TokenTree} (h : t.toParser.Repeats verdict remarks)
    (file : String) (text : Text) : t.parseStrict file text 0 = verdict file text := by
  have hvalue : (t.parseStrict file text 0).mapError Failure.error =
      (verdict file text).mapError .error := h.value file text false {}
  cases hstrict : t.parseStrict file text 0 <;> cases hverdict : verdict file text <;>
    simp_all [Except.mapError]

/-- A whole file in one chunk is answered with the verdict on it. -/
theorem value_parseChunk (hplain : p.IsPlain) (h : p.Repeats verdict remarks) (f : SourceFile)
    (clear : Bool) (memory : σ) : (p.parseChunk f.chunk clear memory).value =
      ((verdict f.name f.text).map .resolved).mapError .error := by
  cases hplain with
  | tokenTree t =>
      have hstrict : t.parseStrict f.chunk.file f.chunk.text f.chunk.lineOffset =
          verdict f.name f.text := parseStrict_of_repeats h f.name f.text
      have hclosed : f.chunk.isClosed = true := rfl
      change t.outcome f.chunk = _
      rw [TokenTree.outcome, if_pos hclosed, TokenTree.parseClosed, hstrict]
      cases verdict f.name f.text <;> rfl
  | chunkAsFile p hchunk =>
      rw [hchunk]
      change Except.map _ (p.parseFile f.name f.text clear memory).value = _
      rw [h.value]
      cases verdict f.name f.text with
      | error cause => rfl
      | ok found =>
          have hfound : found.map (Fingerprint.shifted f.chunk.lineOffset) = found :=
            map_shifted_zero found
          simp [Except.map, Except.mapError, hfound]

theorem notices_parseChunk (hplain : p.IsPlain) (h : p.Repeats verdict remarks) (c : Chunk)
    (clear : Bool) (memory : σ) :
    (p.parseChunk c clear memory).notices = remarks c.file c.text := by
  cases hplain with
  | tokenTree t => exact h.notices c.file c.text false {}
  | chunkAsFile p hchunk =>
      rw [hchunk]
      exact h.notices c.file c.text clear memory

end Parser

def SourceFile.ofChunk (c : Chunk) : SourceFile := ⟨c.file, c.text⟩

def SourceFile.replies (verdict : String → Text → Except Error (List Fingerprint))
    (f : SourceFile) : List Reply :=
  (f.warnings verdict).map .warning ++ [.result f.name (f.records verdict)]

theorem SourceFile.flatMap_found_replies (f : SourceFile) :
    (f.replies verdict).flatMap Reply.found = f.records verdict := by
  rw [replies, records, warnings]
  cases verdict f.name f.text <;> simp [Reply.found, Reply.warning]

theorem SourceFile.filterMap_line?_replies (f : SourceFile) :
    (f.replies verdict).filterMap Reply.line? = f.warnings verdict := by
  rw [replies, warnings]
  cases verdict f.name f.text <;> simp [Reply.line?, Reply.warning]

theorem SourceFile.filterMap_remainder?_replies (f : SourceFile) :
    (f.replies verdict).filterMap Reply.remainder? = [] := by
  rw [replies, warnings]
  cases verdict f.name f.text <;> simp [Reply.remainder?, Reply.warning]

def Journal.filesTaken (j : Journal) : List SourceFile :=
  j.taken.map fun given => .ofChunk given.2.payload

namespace Pool

/-- A worker that takes up a whole file replies with the verdict on it. -/
theorem ofWork_chunk {crew : Crew σ} (hplain : crew.parser.IsPlain)
    (h : crew.parser.Repeats verdict remarks) {f : SourceFile} {job : Job Chunk}
    (hjob : job.payload = f.chunk) (worker : Nat) (memory : σ) :
    Journal.ofWork crew worker memory (.job job) =
      { taken := [(worker, job)], replies := f.replies verdict } := by
  have hvalue := Parser.value_parseChunk hplain h f (clearsCache crew.batch job.id) memory
  rw [Journal.ofWork, Worker.runJob, hjob]
  simp only [Answer.map, hvalue]
  rw [SourceFile.replies, SourceFile.records, SourceFile.warnings]
  cases verdict f.name f.text <;> rfl

/-- Only whole files are in the pool, nothing is handed back, and what the workers
replied are the verdicts on the files that they took up. -/
structure Undivided (verdict : String → Text → Except Error (List Fingerprint))
    (files : List SourceFile) (j : Journal) (p : Pool σ) : Prop where
  entered : j.entered = []
  awaiting : ∀ c ∈ p.awaiting, c ∈ files.map SourceFile.chunk
  held : p.held = []
  replies : j.replies = j.filesTaken.flatMap (·.replies verdict)

/-- As long as no chunk arrives from outside the files stay whole. -/
theorem Undivided.shift {crew : Crew σ} {files : List SourceFile} {j k : Journal} {p q : Pool σ}
    (hplain : crew.parser.IsPlain) (hrepeats : crew.parser.Repeats verdict remarks)
    (h : Undivided verdict files j p) (hclosed : k.chunksFrom .submitted = [])
    (hshift : Shift crew p k q) : Undivided verdict files (j ++ k) q := by
  have hunworked (hk : Unworked k) :
      (j ++ k).replies = (j ++ k).filesTaken.flatMap (·.replies verdict) := by
    rw [Journal.append_replies, Journal.filesTaken, Journal.append_taken, hk.replies, hk.taken,
      List.append_nil, List.append_nil]
    exact h.replies
  cases hshift with
  | still unworked entered awaiting held remainders =>
      constructor
      · rw [Journal.append_entered, h.entered, entered, List.append_nil]
      · exact fun c hc => h.awaiting c (awaiting.mem_iff.1 hc)
      · exact List.perm_nil.1 (h.held ▸ held)
      · exact hunworked unworked
  | parse worker job work awaiting held remainders =>
      obtain ⟨f, hf, hjob⟩ := List.mem_map.1 (h.awaiting job.payload (awaiting.mem_iff.2 (by simp)))
      rw [ofWork_chunk hplain hrepeats hjob.symm] at work
      subst work
      rw [h.held, SourceFile.filterMap_remainder?_replies] at held
      constructor
      · rw [Journal.append_entered, h.entered, List.append_nil]
      · exact fun c hc => h.awaiting c (awaiting.mem_iff.2 (by simp [hc]))
      · exact List.perm_nil.1 held
      · simp [Journal.filesTaken, h.replies, ← hjob, SourceFile.ofChunk, SourceFile.chunk,
          Chunk.whole]
  | join c joined merged alone unworked entered inserts awaiting held waiting =>
      rw [h.held] at waiting
      exact absurd waiting.length_le (by simp)
  | flush unworked quiet entered awaiting held remainders =>
      rw [h.held, List.nil_perm, List.append_eq_nil_iff] at held
      have hnone := p.dispatcher.remainders.leftovers_perm
      rw [held.1, List.map_nil, List.perm_nil] at hnone
      rw [hnone] at entered awaiting
      constructor
      · rw [Journal.append_entered, h.entered, entered, List.map_nil, List.append_nil]
      · exact fun c hc => h.awaiting c (awaiting.mem_iff.1 hc)
      · exact held.2
      · exact hunworked unworked
  | submit c unworked entered awaiting held remainders =>
      simp [Journal.chunksFrom, entered] at hclosed

theorem undivided_of_replay {crew : Crew σ} {workers : Nat} {memory : σ} {files : List SourceFile}
    {counter : JobCounter} {moves : List Move} {q : Pool σ} (hplain : crew.parser.IsPlain)
    (hrepeats : crew.parser.Repeats verdict remarks)
    (hrun : (prepared workers memory (files.map SourceFile.chunk) true counter).start.replay? crew
      moves = some q)
    (hhalt : q.halt = none) (hdone : q.dispatcher.phase = .done) :
    Undivided verdict files
      ((prepared workers memory (files.map SourceFile.chunk) true counter).journal crew moves)
      q := by
  have hclosed := submitted_of_replay hrun hhalt hdone
  rw [if_pos rfl] at hclosed
  have hholds := shift_induction
    (fun j p => j.chunksFrom .submitted = [] → Undivided verdict files j p) ?_ ?_ hrun hhalt
  · exact hholds.2 hclosed
  · intro handed p hawaiting hheld _
    exact ⟨rfl, fun c hc => hawaiting.mem_iff.1 hc, hheld, rfl⟩
  · intro j k p q _ hbefore hshift hnone
    rw [Journal.chunksFrom_append, List.append_eq_nil_iff] at hnone
    exact (hbefore hnone.1).shift hplain hrepeats hnone.2 hshift

/-- A run over whole files that ends well has taken up each of them once. -/
theorem filesTaken_perm {files : List SourceFile} {counter : JobCounter} {j : Journal} {q : Pool σ}
    (hsteady : Steady counter (files.map SourceFile.chunk) j q) (hquiet : Quiet j q)
    (hwhole : Undivided verdict files j q) : j.filesTaken.Perm files := by
  have hawaiting := hquiet.awaiting
  rw [awaiting, List.append_eq_nil_iff, List.map_eq_nil_iff, List.map_eq_nil_iff] at hawaiting
  have hhanded := hsteady.accounted.handed
  have hstream := hsteady.accounted.stream
  rw [hawaiting.2, List.append_nil] at hhanded
  rw [hawaiting.1, hwhole.entered, List.map_nil, List.append_nil, List.append_nil] at hstream
  have hpayloads : (j.handed.map Prod.snd).map Job.payload = files.map SourceFile.chunk := by
    rw [hstream, Job.map_payload_numbered]
  have hfiles : (j.handed.map fun given => SourceFile.ofChunk given.2.payload) = files := by
    have hback := congrArg (List.map SourceFile.ofChunk) hpayloads
    rw [List.map_map, List.map_map, List.map_map] at hback
    exact hback.trans (List.map_id files)
  have htaken := hhanded.symm.map fun given => SourceFile.ofChunk given.2.payload
  rwa [hfiles] at htaken

/-- Through a pool the files are reported in some order. -/
theorem perm_of_replay {crew : Crew σ} {workers : Nat} {memory : σ} {files : List SourceFile}
    {counter : JobCounter} {moves : List Move} {q : Pool σ} {found : List Fingerprint}
    (hplain : crew.parser.IsPlain)
    (hrepeats : crew.parser.Repeats verdict remarks)
    (hrun : (prepared workers memory (files.map SourceFile.chunk) true counter).start.replay? crew
      moves = some q)
    (hok : q.outcome? = some (.ok found)) :
    found.Perm (files.flatMap (·.records verdict)) ∧
      q.notices.Perm (files.flatMap (·.notices verdict remarks)) := by
  obtain ⟨hhalt, hdone, rfl⟩ := outcome_eq_ok_iff.1 hok
  obtain ⟨hsteady, hquiet, -⟩ := ended_of_replay hrun hhalt hdone
  have hwhole := undivided_of_replay hplain hrepeats hrun hhalt hdone
  have htaken := filesTaken_perm hsteady hquiet hwhole
  constructor
  · have hfound := hsteady.accounted.found
    rw [hquiet.results, hwhole.replies, List.flatMap_nil, List.append_nil, List.flatMap_assoc]
      at hfound
    simp only [SourceFile.flatMap_found_replies] at hfound
    exact hfound.symm.trans (htaken.flatMap_right _)
  · have hremarks : Remarks crew fun c => remarks c.file c.text :=
      Parser.notices_parseChunk hplain hrepeats
    have hremarked := remarked_of_replay hremarks hrun hhalt
    rw [Remarked, hquiet.unseen, hwhole.replies, List.map_nil, List.append_nil,
      List.filterMap_flatMap, List.map_flatMap] at hremarked
    simp only [SourceFile.filterMap_line?_replies] at hremarked
    have hown (j : Journal) : j.taken.flatMap (fun given =>
        remarks given.2.payload.file given.2.payload.text) =
          j.filesTaken.flatMap fun f => remarks f.name f.text := by
      rw [Journal.filesTaken, List.flatMap_map]
      rfl
    rw [hown] at hremarked
    refine (hremarked.trans List.perm_append_comm).trans ?_
    exact (List.flatMap_append_perm ..).trans (htaken.flatMap_right _)

end Pool

namespace Backlog

theorem allChunks_eq {splitter : Splitter} {files : List SourceFile}
    (hwhole : ∀ f ∈ files, ∀ memory, (chunksOf p splitter f memory).value = .ok [f.chunk])
    (memory : σ) :
    (allChunks p splitter files memory).value = .ok (files.map SourceFile.chunk) := by
  induction files generalizing memory with
  | nil => rfl
  | cons f more ih =>
      have hfirst := hwhole f (by simp) memory
      have hmore := ih (fun g hg => hwhole g (by simp [hg])) (chunksOf p splitter f memory).memory
      rw [allChunks]
      simp [hfirst, hmore, Except.map]

variable {b : Backlog σ}

/-- What a pool of the backlog returns is what one of its runs comes to. -/
theorem exists_run_of_parseParallel {threads batch limit : Nat} {counter : JobCounter}
    {found : List Fingerprint}
    (hwhole : ∀ f ∈ b.files, ∀ memory,
      (chunksOf b.parser (.ofLimit limit) f memory).value = .ok [f.chunk])
    (hfiles : b.files ≠ [])
    (h : (b.parseParallel threads batch limit counter).value = .ok found) :
    ∃ memory moves q,
      (Pool.prepared (min threads b.size) memory (b.files.map SourceFile.chunk) true
          counter).start.replay? ⟨b.parser, batch⟩ moves = some q ∧ q.outcome? = some (.ok found) ∧
      (b.parseParallel threads batch limit counter).notices =
        (allChunks b.parser (.ofLimit limit) b.files b.memory).notices ++ q.notices := by
  have hempty : b.isEmpty = false := List.isEmpty_eq_false_iff.2 hfiles
  have hchunks := allChunks_eq hwhole b.memory
  simp only [parseParallel, hempty, hchunks] at h ⊢
  generalize (allChunks b.parser (.ofLimit limit) b.files b.memory).memory = memory at h ⊢
  let pool := Pool.prepared (min threads b.size) memory (b.files.map SourceFile.chunk) true counter
  let last := pool.start.run ⟨b.parser, batch⟩ (pool.allowance (Feed.script none))
    (Feed.script none)
  obtain ⟨moves, hmoves⟩ : ∃ moves, pool.start.replay? ⟨b.parser, batch⟩ moves = some last :=
    Pool.exists_replay_run ..
  have hlast : Except.mapError Failure.error (last.outcome?.getD
      (.error (.pool "workers disconnected before the pool finished"))) = .ok found := h
  refine ⟨memory, moves, last, hmoves, ?_, rfl⟩
  generalize last.outcome? = outcome at hlast ⊢
  rcases outcome with _ | cause | result
  · cases hlast
  · cases hlast
  · simpa [Except.mapError] using hlast

/-- A parser with one verdict on each file gives the same records and messages, whether
the files are parsed one after the other or through a pool, whatever the sizes of the
batches, the number of workers and the order of their moves. -/
theorem parse_eq_and_pool_perm (hplain : b.parser.IsPlain)
    (hrepeats : b.parser.Repeats verdict remarks) {limit : Nat}
    (hwhole : ∀ f ∈ b.files, ∀ memory,
      (chunksOf b.parser (.ofLimit limit) f memory).value = .ok [f.chunk])
    (batch threads jobs : Nat) (counter : JobCounter) :
    (b.parse batch).value = .ok (b.files.flatMap (·.records verdict)) ∧
      (b.parse batch).notices = b.files.flatMap (·.notices verdict remarks) ∧
      (∀ memory moves q found,
        (Pool.prepared (min threads b.size) memory (b.files.map SourceFile.chunk) true
            counter).start.replay? ⟨b.parser, jobs⟩ moves = some q →
        q.outcome? = some (.ok found) →
          found.Perm (b.files.flatMap (·.records verdict)) ∧
            q.notices.Perm (b.files.flatMap (·.notices verdict remarks))) ∧
      ∀ found, (b.parseParallel threads jobs limit counter).value = .ok found →
        found.Perm (b.files.flatMap (·.records verdict)) ∧
          (b.parseParallel threads jobs limit counter).notices.Perm
            ((allChunks b.parser (.ofLimit limit) b.files b.memory).notices ++
              b.files.flatMap (·.notices verdict remarks)) := by
  have hpool {memory moves q found}
      (hrun : (Pool.prepared (min threads b.size) memory
        (b.files.map SourceFile.chunk) true counter).start.replay? ⟨b.parser, jobs⟩ moves = some q)
      (hok : q.outcome? = some (.ok found)) := Pool.perm_of_replay hplain hrepeats hrun hok
  obtain ⟨hvalue, hnotices⟩ := parseEach_eq hrepeats b.memory
    (markBatches (max batch 1) (max batch 1) b.files)
  rw [map_fst_markBatches] at hvalue hnotices
  refine ⟨hvalue, hnotices, fun _ _ _ _ => hpool, fun found hfound => ?_⟩
  by_cases hfiles : b.files = []
  · have hempty : b.isEmpty = true := List.isEmpty_iff.2 hfiles
    simp [parseParallel, hempty, hfiles, allChunks] at hfound ⊢
    exact hfound
  · obtain ⟨memory, moves, q, hrun, hok, hreported⟩ :=
      exists_run_of_parseParallel hwhole hfiles hfound
    obtain ⟨hperm, hseen⟩ := hpool hrun hok
    rw [hreported]
    exact ⟨hperm, hseen.append_left _⟩

end Backlog

/-- A parser that finds one function in a file and none in an empty one. -/
def picky : Parser Unit where
  language := .java
  splits := false
  parseFile file text _ _ :=
    ⟨if text.isEmpty then .error (.error (.parse "empty"))
      else .ok [⟨"h", file, "f", 1, 1⟩], (), []⟩
  parseChunk := Parser.chunkAsFile fun file text _ _ =>
    ⟨if text.isEmpty then .error (.error (.parse "empty"))
      else .ok [⟨"h", file, "f", 1, 1⟩], (), []⟩
  itemStarts _ _ := ⟨none, (), []⟩
  clear := id

/-- Of two files of the same name one is broken. -/
theorem Backlog.parse_and_pool_of_two_files :
    let b : Backlog Unit := ⟨picky, (), [⟨"a", []⟩, ⟨"a", ['x']⟩]⟩
    let moves : List Move :=
      [.work 1, .work 0, .report 1, .takeReport, .report 0, .report 0, .takeReport, .takeReport,
       .work 0, .report 0, .takeReport, .work 1, .report 1, .takeReport]
    let found : List Fingerprint := [⟨"h", "a", "f", 1, 1⟩]
    let notices : List Notice :=
      [.warning "Error while parsing file a, skipping: Parse error: empty"]
    (b.parse 0).value = .ok found ∧ (b.parse 0).notices = notices ∧
      ∃ q, (Pool.prepared (min 2 b.size) () (b.files.map SourceFile.chunk) true).start.replay?
          ⟨b.parser, 0⟩ moves = some q ∧
        q.outcome? = some (.ok found) ∧ q.notices.Perm notices := by
  intro b moves found notices
  let verdict : String → Text → Except Error (List Fingerprint) := fun file text =>
    if text.isEmpty then .error (.parse "empty") else .ok [⟨"h", file, "f", 1, 1⟩]
  have hrepeats : picky.Repeats verdict fun _ _ => [] := by
    constructor
    · intro file text clear memory
      cases text <;> rfl
    · intro file text clear memory
      rfl
  have hwhole : ∀ f ∈ b.files, ∀ memory,
      (Backlog.chunksOf b.parser (.ofLimit 0) f memory).value = .ok [f.chunk] := by
    intro f _ memory
    rfl
  obtain ⟨hvalue, hnotices, hpool, -⟩ :=
    Backlog.parse_eq_and_pool_perm (.chunkAsFile picky rfl) hrepeats hwhole 0 2 0 {}
  have hrun : ((Pool.prepared (min 2 b.size) () (b.files.map SourceFile.chunk) true).start.replay?
      ⟨b.parser, 0⟩ moves).bind Pool.outcome? = some (.ok found) := by decide +kernel
  obtain ⟨q, hq, hok⟩ := Option.bind_eq_some_iff.1 hrun
  exact ⟨hvalue, hnotices, q, hq, hok, (hpool () moves q found hq hok).2⟩

end ClonePrint
