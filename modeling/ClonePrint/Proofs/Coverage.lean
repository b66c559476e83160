import Mathlib.Data.List.Nodup
import ClonePrint.Proofs.Flow
import ClonePrint.Proofs.Pieces

/-!
# Every byte is decided exactly once

The parts of a file that have been decided and the chunks of it that are still
in the pool contain every byte of the file exactly once, whatever the front end
answers. At the end of a run nothing is left in the pool, so every byte has been
decided exactly once. A part is decided against its file only when no neighbour
was left to blame.
-/
namespace ClonePrint

/-- A property of chunks that dividing, joining and opening or closing keep. -/
structure Stable (good : Chunk → Prop) : Prop where
  front : ∀ {c : Chunk} {skipped text : Text}, good c → skipped ++ text = c.text →
    good (c.front skipped)
  behind : ∀ {c : Chunk} {skipped text : Text}, good c → skipped ++ text = c.text →
    good (c.behind skipped text)
  concat : ∀ {c d : Chunk}, good c → good d → c.precedes d = true → good (c.concat d)
  edges : ∀ {c : Chunk} (openStart openEnd provisional : Bool), good c →
    good { c with openStart, openEnd, provisional }

namespace TokenTree

section
variable {p : TokenTree} {c : Chunk} {parts back : List Chunk} (h : p.Parses c parts back)
include h

theorem Parses.countP (file : String) (i : Nat) :
    (back ++ parts).countP (Chunk.covers file i) = [c].countP (Chunk.covers file i) := by
  cases h with
  | whole closed final => rfl
  | front starts ends divides progress point final =>
      rw [List.countP_append, Nat.add_comm, ← List.countP_append]
      exact Chunk.countP_front_behind divides file i
  | defer unclosed => rfl
  | reopen attempt starts broken provisional => rfl

theorem Parses.good {good : Chunk → Prop} (hstable : Stable good) (hc : good c) :
    ∀ x ∈ back ++ parts, good x := by
  cases h with
  | whole closed final => simpa using hc
  | front starts ends divides progress point final =>
      simpa using And.intro (hstable.behind hc divides) (hstable.front hc divides)
  | defer unclosed => simpa using hc
  | reopen attempt starts broken provisional =>
      have hreopened : good c.reopened := hstable.edges (c.byteOffset != 0) true c.provisional hc
      simpa using hreopened

/-- Only pieces of a file are handed back. -/
theorem Parses.provisional (hc : Sound c) : ∀ x ∈ back, x.provisional = true := by
  have hunclosed (hopen : c.isClosed = false) : c.provisional = true :=
    hc.resolve_right (by simp [hopen])
  cases h with
  | whole closed final => simp
  | front starts ends divides progress point final =>
      have hopen : c.isClosed = false := by simp [Chunk.isClosed, ends]
      simpa [Chunk.behind] using hunclosed hopen
  | defer unclosed => simpa using hunclosed unclosed
  | reopen attempt starts broken provisional => simpa [Chunk.reopened] using provisional

/-- A part that does not parse is decided only if it is a whole chunk without
neighbours. -/
theorem Parses.failed (hc : Sound c) {x : Chunk} (hx : x ∈ parts) (hfail : p.accepts x = false) :
    x = c ∧ c.provisional = false := by
  cases h with
  | whole closed final =>
      obtain rfl := List.mem_singleton.1 hx
      exact ⟨rfl, final.resolve_left (by simp [hfail])⟩
  | front starts ends divides progress point final =>
      obtain rfl := List.mem_singleton.1 hx
      have hopen : c.isClosed = false := by simp [Chunk.isClosed, ends]
      have hprovisional := hc.resolve_right (by simp [hopen])
      have := final.resolve_left (by simp [hfail])
      simp [hprovisional] at this
  | defer unclosed => cases hx
  | reopen attempt starts broken provisional => cases hx

end

end TokenTree

/-- The parts of files that were decided by the jobs that were taken up. -/
def Journal.decided (p : TokenTree) (j : Journal) : List Chunk :=
  j.taken.flatMap fun given => p.decided given.2.payload

theorem Journal.decided_append (p : TokenTree) (a b : Journal) :
    (a ++ b).decided p = a.decided p ++ b.decided p := List.flatMap_append

def Journal.outside (queued : List Chunk) (j : Journal) : List Chunk :=
  queued ++ j.chunksFrom .submitted

namespace Pool

theorem Unworked.decided {p : TokenTree} {k : Journal} (h : Unworked k) : k.decided p = [] := by
  rw [Journal.decided, h.taken, List.flatMap_nil]

theorem chunksFrom_of_entered {k : Journal} {origin : Origin} {cs : List Chunk}
    (h : k.entered = cs.map (origin, ·)) (other : Origin) :
    k.chunksFrom other = if origin = other then cs else [] := by
  rw [Journal.chunksFrom, h]
  split
  · simp [*, List.filter_map, Function.comp_def]
  · simp [*]

/-- What the pool gets back from a worker that parses a chunk. -/
structure Parsed (p : TokenTree) (k : Journal) (c : Chunk) (back : List Chunk) : Prop where
  parses : p.Parses c (k.decided p) back
  replies : k.replies.filterMap Reply.remainder? = back
  found : k.replies.flatMap Reply.found = (k.decided p).flatMap p.recordsOf
  lines : k.replies.filterMap Reply.line? = (k.decided p).filterMap p.warningOf?
  entered : k.entered = []

theorem parsed_of_work {p : TokenTree} {batch worker : Nat} {memory : Memory} {job : Job Chunk}
    {k : Journal} (hk : k = .ofWork ⟨p.toParser, batch⟩ worker memory (.job job))
    (hlost : k.lost = []) (hsound : TokenTree.Sound job.payload) :
    Parsed p k job.payload (k.replies.filterMap Reply.remainder?) := by
  subst hk
  have htaken : (Journal.ofWork ⟨p.toParser, batch⟩ worker memory (.job job)).decided p =
      p.decided job.payload := by
    simp [Journal.decided, Dispatch.job?]
  cases hrun : (Worker.runJob p.toParser batch job memory).value with
  | error crash => simp [Journal.ofWork, hrun] at hlost
  | ok replies =>
      have hanswers := TokenTree.answers_of_runJob hsound hrun
      have hreplies : (Journal.ofWork ⟨p.toParser, batch⟩ worker memory (.job job)).replies =
          replies := by
        simp [Journal.ofWork, hrun]
      refine ⟨?_, rfl, ?_, ?_, Journal.ofWork_entered ..⟩
      · rw [htaken, hreplies]
        exact hanswers.parses
      · rw [htaken, hreplies]
        exact hanswers.found
      · rw [htaken, hreplies]
        exact hanswers.lines

/-- The pool and the decided parts together hold what came from outside. A chunk without
neighbours is a leftover, or it came from outside like that. -/
structure Conserved (p : TokenTree) (good : Chunk → Prop) (queued : List Chunk) (j : Journal)
    (q : Pool Memory) : Prop where
  sound : ∀ c ∈ q.awaiting, TokenTree.Sound c
  provisional : ∀ c ∈ q.held, c.provisional = true
  good : ∀ c ∈ q.awaiting ++ (q.held ++ j.decided p), good c
  count : ∀ file i, (q.awaiting ++ (q.held ++ j.decided p)).countP (Chunk.covers file i) =
    (j.outside queued).countP (Chunk.covers file i)
  alone : ∀ c ∈ q.awaiting, c.provisional = false →
    c ∈ j.chunksFrom .leftover ∨ c ∈ j.outside queued
  failed : ∀ c ∈ j.decided p, p.accepts c = false → c.provisional = false ∧
    (c ∈ j.chunksFrom .leftover ∨ c ∈ j.outside queued)
  found : j.replies.flatMap Reply.found = (j.decided p).flatMap p.recordsOf
  lines : j.replies.filterMap Reply.line? = (j.decided p).filterMap p.warningOf?

theorem Conserved.parse {p : TokenTree} {good : Chunk → Prop} {queued : List Chunk}
    {j k : Journal} {q q' : Pool Memory} {c : Chunk} {back : List Chunk} (hstable : Stable good)
    (h : Conserved p good queued j q) (hparsed : Parsed p k c back)
    (hawaiting : q.awaiting.Perm (c :: q'.awaiting)) (hheld : q'.held.Perm (back ++ q.held)) :
    Conserved p good queued (j ++ k) q' := by
  have hmem {x : Chunk} (hx : x ∈ q'.awaiting) : x ∈ q.awaiting :=
    hawaiting.mem_iff.2 (List.mem_cons_of_mem c hx)
  have hc : c ∈ q.awaiting := hawaiting.mem_iff.2 (List.mem_cons_self ..)
  have hentered (origin : Origin) : (j ++ k).chunksFrom origin = j.chunksFrom origin := by
    rw [Journal.chunksFrom_append]
    simp [Journal.chunksFrom, hparsed.entered]
  have houtside : (j ++ k).outside queued = j.outside queued := by
    rw [Journal.outside, Journal.outside, hentered]
  have hsound := h.sound c hc
  constructor
  · exact fun x hx => h.sound x (hmem hx)
  · intro x hx
    rcases List.mem_append.1 (hheld.mem_iff.1 hx) with hx | hx
    · exact hparsed.parses.provisional hsound x hx
    · exact h.provisional x hx
  · have hold (x : Chunk) (hx : x ∈ q.awaiting ∨ x ∈ q.held ∨ x ∈ j.decided p) : good x :=
      h.good x (by simpa using hx)
    have hnew := hparsed.parses.good hstable (hold c (.inl hc))
    intro x hx
    rw [Journal.decided_append] at hx
    simp only [List.mem_append, hheld.mem_iff] at hx hnew
    rcases hx with hx | (hx | hx) | hx | hx
    · exact hold x (.inl (hmem hx))
    · exact hnew x (.inl hx)
    · exact hold x (.inr (.inl hx))
    · exact hold x (.inr (.inr hx))
    · exact hnew x (.inr hx)
  · intro file i
    have hbefore := h.count file i
    have hparts := hparsed.parses.countP file i
    rw [Journal.decided_append, houtside]
    simp only [List.countP_append, List.countP_cons, List.countP_nil,
      hawaiting.countP_eq, hheld.countP_eq] at hbefore hparts ⊢
    omega
  · intro x hx hprovisional
    rw [hentered, houtside]
    exact h.alone x (hmem hx) hprovisional
  · intro x hx hfail
    rw [hentered, houtside]
    rw [Journal.decided_append] at hx
    rcases List.mem_append.1 hx with hx | hx
    · exact h.failed x hx hfail
    · obtain ⟨rfl, hprovisional⟩ := hparsed.parses.failed hsound hx hfail
      exact ⟨hprovisional, h.alone x hc hprovisional⟩
  · rw [Journal.append_replies, List.flatMap_append, h.found, hparsed.found,
      Journal.decided_append, List.flatMap_append]
  · rw [Journal.append_replies, List.filterMap_append, h.lines, hparsed.lines,
      Journal.decided_append, List.filterMap_append]

/-- Moves that do no work change the books only by what enters the queue. -/
theorem Conserved.unworked {p : TokenTree} {good : Chunk → Prop} {queued : List Chunk}
    {j k : Journal} {q q' : Pool Memory} (h : Conserved p good queued j q) (hk : Unworked k)
    (hawaiting : ∀ c ∈ q'.awaiting, c ∈ q.awaiting ∨ good c ∧ TokenTree.Sound c ∧
      (c.provisional = false → c ∈ k.chunksFrom .leftover ∨ c ∈ k.chunksFrom .submitted))
    (hheld : ∀ c ∈ q'.held, c ∈ q.held)
    (hcount : ∀ file i, (q'.awaiting ++ q'.held).countP (Chunk.covers file i) =
      (q.awaiting ++ q.held).countP (Chunk.covers file i) +
        (k.chunksFrom .submitted).countP (Chunk.covers file i)) :
    Conserved p good queued (j ++ k) q' := by
  have hdecided : (j ++ k).decided p = j.decided p := by
    rw [Journal.decided_append, hk.decided, List.append_nil]
  have hreplies : (j ++ k).replies = j.replies := by
    rw [Journal.append_replies, hk.replies, List.append_nil]
  have hgrown {c : Chunk} (hc : c ∈ j.chunksFrom .leftover ∨ c ∈ j.outside queued) :
      c ∈ (j ++ k).chunksFrom .leftover ∨ c ∈ (j ++ k).outside queued := by
    rw [Journal.outside, Journal.chunksFrom_append, Journal.chunksFrom_append]
    rw [Journal.outside] at hc
    simp only [List.mem_append] at hc ⊢
    tauto
  constructor
  · intro c hc
    rcases hawaiting c hc with hold | ⟨-, hsound, -⟩
    · exact h.sound c hold
    · exact hsound
  · exact fun c hc => h.provisional c (hheld c hc)
  · intro c hc
    rw [hdecided] at hc
    simp only [List.mem_append] at hc
    rcases hc with hc | hc | hc
    · rcases hawaiting c hc with hold | ⟨hgood, -⟩
      · exact h.good c (by simp [hold])
      · exact hgood
    · exact h.good c (by simp [hheld c hc])
    · exact h.good c (by simp [hc])
  · intro file i
    have hbefore := h.count file i
    have hafter := hcount file i
    rw [hdecided, Journal.outside, Journal.chunksFrom_append]
    rw [Journal.outside] at hbefore
    simp only [List.countP_append] at hbefore hafter ⊢
    omega
  · intro c hc hprovisional
    rcases hawaiting c hc with hold | ⟨-, -, hnew⟩
    · exact hgrown (h.alone c hold hprovisional)
    · rw [Journal.outside, Journal.chunksFrom_append, Journal.chunksFrom_append]
      rcases hnew hprovisional with hleft | hout
      · exact .inl (List.mem_append_right _ hleft)
      · exact .inr (List.mem_append_right _ (List.mem_append_right _ hout))
  · intro c hc hfail
    rw [hdecided] at hc
    exact ⟨(h.failed c hc hfail).1, hgrown (h.failed c hc hfail).2⟩
  · rw [hreplies, hdecided, h.found]
  · rw [hreplies, hdecided, h.lines]

section
variable {p : TokenTree} {good : Chunk → Prop} {queued : List Chunk} {j k : Journal}
  {q q' : Pool Memory} (hstable : Stable good) (h : Conserved p good queued j q)
  (hk : Unworked k)
include hstable h hk

/-- Joining chunks loses none of their bytes. -/
theorem Conserved.join {joined merged : List Chunk} (hentered : k.entered = joined.map (.joined, ·))
    (hjoins : Joins merged joined) (hawaiting : q'.awaiting.Perm (joined ++ q.awaiting))
    (hheld : q.held.Perm (merged ++ q'.held)) : Conserved p good queued (j ++ k) q' := by
  have hmerged {x : Chunk} (hx : x ∈ merged) : x ∈ q.held :=
    hheld.mem_iff.2 (List.mem_append_left _ hx)
  have hprovisional : ∀ x ∈ joined, x.provisional = true :=
    hjoins.forall_mem (fun c d hc _ _ => by simp [Chunk.concat, hc])
      fun x hx => h.provisional x (hmerged hx)
  have hgood : ∀ x ∈ joined, good x :=
    hjoins.forall_mem (fun c d hc hd hadjacent => hstable.concat hc hd hadjacent)
      fun x hx => h.good x (by simp [hmerged hx])
  refine h.unworked hk (fun x hx => ?_)
    (fun x hx => hheld.mem_iff.2 (List.mem_append_right _ hx)) fun file i => ?_
  · rcases List.mem_append.1 (hawaiting.mem_iff.1 hx) with hx | hx
    · exact .inr ⟨hgood x hx, .inl (hprovisional x hx), by simp [hprovisional x hx]⟩
    · exact .inl hx
  · have hjoined := hjoins.countP_eq
      (fun c d hadjacent => Chunk.countP_concat hadjacent file i)
    simp only [List.countP_append, hawaiting.countP_eq, hheld.countP_eq, hjoined,
      chunksFrom_of_entered hentered, reduceCtorEq, ↓reduceIte, List.countP_nil]
    omega

/-- Leftovers have the bytes of the chunks that waited. -/
theorem Conserved.flush {remainders : Remainders}
    (hentered : k.entered = remainders.leftovers.map (.leftover, ·))
    (hawaiting : q'.awaiting.Perm (remainders.leftovers ++ q.awaiting))
    (hheld : q.held.Perm (remainders.chunks ++ q'.held)) :
    Conserved p good queued (j ++ k) q' := by
  have hleftovers := Remainders.leftovers_perm remainders
  refine h.unworked hk (fun x hx => ?_)
    (fun x hx => hheld.mem_iff.2 (List.mem_append_right _ hx)) fun file i => ?_
  · rcases List.mem_append.1 (hawaiting.mem_iff.1 hx) with hx | hx
    · obtain ⟨c, hc, rfl⟩ := List.mem_map.1 (hleftovers.mem_iff.1 hx)
      have hwaited : c ∈ q.held := hheld.mem_iff.2 (List.mem_append_left _ hc)
      refine .inr ⟨?_, .inr rfl, fun _ => .inl ?_⟩
      · exact hstable.edges false false false (h.good c (by simp [hwaited]))
      · simpa [chunksFrom_of_entered hentered] using hx
    · exact .inl hx
  · have hsettled : (remainders.chunks.map Chunk.settled).countP (Chunk.covers file i) =
        remainders.chunks.countP (Chunk.covers file i) := List.countP_map
    simp only [List.countP_append, hawaiting.countP_eq, hheld.countP_eq, hleftovers.countP_eq,
      hsettled, chunksFrom_of_entered hentered, reduceCtorEq, ↓reduceIte, List.countP_nil]
    omega

end

/-- Every move conserves what came from outside. -/
theorem Conserved.shift {p : TokenTree} {batch : Nat} {good : Chunk → Prop}
    {queued : List Chunk} {j k : Journal} {q q' : Pool Memory} (hstable : Stable good)
    (hnew : ∀ c ∈ (j ++ k).outside queued, good c ∧ TokenTree.Sound c)
    (h : Conserved p good queued j q) (hlost : k.lost = [])
    (hshift : Shift ⟨p.toParser, batch⟩ q k q') : Conserved p good queued (j ++ k) q' := by
  cases hshift with
  | still unworked entered awaiting held remainders =>
      refine h.unworked unworked (fun c hc => .inl (awaiting.mem_iff.1 hc))
        (fun c hc => held.mem_iff.1 hc) fun file i => ?_
      simp [Journal.chunksFrom, entered, List.countP_append, awaiting.countP_eq, held.countP_eq]
  | parse worker job work awaiting held remainders =>
      have hsound := h.sound job.payload (awaiting.mem_iff.2 (List.mem_cons_self ..))
      exact h.parse hstable (parsed_of_work work hlost hsound) awaiting held
  | join c joined merged alone unworked entered inserts awaiting held waiting =>
      exact h.join hstable unworked entered inserts.joins awaiting held
  | flush unworked quiet entered awaiting held remainders =>
      exact h.flush hstable unworked entered awaiting held
  | submit c unworked entered awaiting held remainders =>
      have harrived : k.chunksFrom .submitted = [c] := by
        rw [Journal.chunksFrom, entered]
        rfl
      obtain ⟨hgood, hsound⟩ := hnew c (by
        simp [Journal.outside, Journal.chunksFrom_append, harrived])
      refine h.unworked unworked (fun x hx => ?_) (fun x hx => held.mem_iff.1 hx) fun file i => ?_
      · rcases List.mem_cons.1 (awaiting.mem_iff.1 hx) with rfl | hx
        · exact .inr ⟨hgood, hsound, fun _ => .inr (by simp [harrived])⟩
        · exact .inl hx
      · simp only [List.countP_append, awaiting.countP_eq, held.countP_eq, harrived,
          List.countP_cons, List.countP_nil]
        omega

theorem Conserved.start {p : TokenTree} {good : Chunk → Prop} {queued : List Chunk}
    {handed : List (Nat × Job Chunk)} {q : Pool Memory}
    (hnew : ∀ c ∈ queued, good c ∧ TokenTree.Sound c) (hawaiting : q.awaiting.Perm queued)
    (hheld : q.held = []) : Conserved p good queued { handed } q := by
  have hqueued {c : Chunk} (hc : c ∈ q.awaiting) : good c ∧ TokenTree.Sound c :=
    hnew c (hawaiting.mem_iff.1 hc)
  refine ⟨fun c hc => (hqueued hc).2, by simp [hheld], ?_, ?_, ?_, ?_, rfl, rfl⟩
  · intro c hc
    simp only [hheld, Journal.decided, List.flatMap_nil, List.append_nil] at hc
    exact (hqueued hc).1
  · intro file i
    simp [hheld, Journal.decided, Journal.outside, Journal.chunksFrom, hawaiting.countP_eq]
  · intro c hc _
    exact .inr (List.mem_append_left _ (hawaiting.mem_iff.1 hc))
  · intro c hc
    simp [Journal.decided] at hc

/-- What holds of the chunks from outside, and is stable, holds of everything, and
everything is conserved. -/
theorem conserved_of_replay {p : TokenTree} {batch workers : Nat} {memory : Memory}
    {good : Chunk → Prop} {queued : List Chunk} {closed : Bool} {counter : JobCounter}
    {moves : List Move} {q : Pool Memory} (hstable : Stable good)
    (hrun : (prepared workers memory queued closed counter).start.replay? ⟨p.toParser, batch⟩
      moves = some q)
    (hhalt : q.halt = none)
    (houtside : ∀ c ∈ ((prepared workers memory queued closed counter).journal
      ⟨p.toParser, batch⟩ moves).outside queued, good c ∧ TokenTree.Sound c)
    (hlost : ((prepared workers memory queued closed counter).journal ⟨p.toParser, batch⟩
      moves).lost = []) :
    Conserved p good queued ((prepared workers memory queued closed counter).journal
      ⟨p.toParser, batch⟩ moves) q := by
  refine (shift_induction (fun j q => (∀ c ∈ j.outside queued, good c ∧ TokenTree.Sound c) →
    j.lost = [] → Conserved p good queued j q) ?_ ?_ hrun hhalt).2 houtside hlost
  · intro handed q hawaiting hheld hnew _
    exact .start (fun c hc => hnew c (List.mem_append_left _ hc)) hawaiting hheld
  · intro j k q q' _ h hshift hnew hlost
    rw [Journal.append_lost, List.append_eq_nil_iff] at hlost
    have hold : ∀ c ∈ j.outside queued, good c ∧ TokenTree.Sound c := by
      intro c hc
      apply hnew c
      rw [Journal.outside] at hc ⊢
      rw [Journal.chunksFrom_append, ← List.append_assoc]
      exact List.mem_append_left _ hc
    exact (h hold hlost.1).shift hstable hnew hlost.2 hshift

end Pool

/-- The chunk is a part of one of the files. -/
def PartOf (files : List SplitFile) (c : Chunk) : Prop :=
  ∃ f ∈ files, c.file = f.name ∧ c.Within f.text

theorem eq_of_name_eq {files : List SplitFile} (h : (files.map SplitFile.name).Nodup)
    {f g : SplitFile} (hf : f ∈ files) (hg : g ∈ files) (hname : f.name = g.name) : f = g :=
  List.inj_on_of_nodup_map h hf hg hname

/-- Parts of files with different names stay parts of them. -/
theorem stable_partOf {files : List SplitFile} (h : (files.map SplitFile.name).Nodup) :
    Stable (PartOf files) where
  front := fun ⟨f, hf, hname, hwithin⟩ hdivides => ⟨f, hf, hname, hwithin.front hdivides⟩
  behind := fun ⟨f, hf, hname, hwithin⟩ hdivides => ⟨f, hf, hname, hwithin.behind hdivides⟩
  concat := by
    rintro c d ⟨f, hf, hname, hwithin⟩ ⟨g, hg, hname', hwithin'⟩ hadjacent
    have hfile := (Chunk.precedes_iff.1 hadjacent).1
    obtain rfl := eq_of_name_eq h hf hg (hname.symm.trans (hfile.trans hname'))
    exact ⟨f, hf, hname, hwithin.concat hwithin' hadjacent⟩
  edges := fun _ _ _ ⟨f, hf, hname, hwithin⟩ => ⟨f, hf, hname, hwithin⟩

/-- The parts of files in which a run came to a decision. They share no byte and make up the
files, and each was parsed with the line offset that belongs to its place. One that does not parse
is a leftover, or a file that was never split, and costs one warning. -/
structure DecidedOnce (p : TokenTree) (files : List SplitFile) (j : Journal)
    (notices : List Notice) (found : List Fingerprint) : Prop where
  parts : ∀ part ∈ j.decided p, PartOf files part
  disjoint : (j.decided p).Pairwise fun c d =>
    ∀ file i, c.covers file i = true → d.covers file i = false
  covered : ∀ f ∈ files, ∀ i < Text.size f.text, ∃ part ∈ j.decided p, part.covers f.name i = true
  failed : ∀ part ∈ j.decided p, p.accepts part = false →
    part ∈ j.chunksFrom .leftover ∨
      ∃ f ∈ files, f.pieces = [part] ∧ part = Chunk.whole f.name f.text
  warned : notices.Perm (((j.decided p).filterMap p.warningOf?).map Notice.warning)
  found : found.Perm ((j.decided p).flatMap p.recordsOf)

theorem SplitFile.countP_pieces_of_ne {f : SplitFile} {name : String} (h : f.name ≠ name)
    (i : Nat) : f.pieces.countP (Chunk.covers name i) = 0 := by
  rw [List.countP_eq_zero]
  intro c hc
  have hfile := (SplitFile.within hc).1
  simp [Chunk.covers, hfile, h]

/-- Among the pieces of several files each byte of a file is in one piece. -/
theorem countP_pieces_of_files {files : List SplitFile} (h : (files.map SplitFile.name).Nodup)
    (i : Nat) :
    (∀ f ∈ files, (files.flatMap SplitFile.pieces).countP (Chunk.covers f.name i) =
      if i < Text.size f.text then 1 else 0) ∧
    (∀ name ∉ files.map SplitFile.name,
      (files.flatMap SplitFile.pieces).countP (Chunk.covers name i) = 0) := by
  induction files with
  | nil => simp
  | cons g files ih =>
      obtain ⟨hg, hnodup⟩ := List.nodup_cons.1 h
      obtain ⟨hmem, hnone⟩ := ih hnodup
      simp only [List.flatMap_cons, List.countP_append]
      constructor
      · intro f hf
        rcases List.mem_cons.1 hf with rfl | hf
        · rw [f.countP_pieces, hnone f.name hg, Nat.add_zero]
        · have hne : g.name ≠ f.name := fun heq => hg (heq ▸ List.mem_map_of_mem hf)
          rw [SplitFile.countP_pieces_of_ne hne, hmem f hf, Nat.zero_add]
      · intro name hname
        rw [List.map_cons, List.mem_cons, not_or] at hname
        rw [SplitFile.countP_pieces_of_ne (Ne.symm hname.1), hnone name hname.2]

/-- Chunks of which none has a byte in common with another. -/
theorem pairwise_of_countP_le_one {l : List Chunk}
    (h : ∀ file i, l.countP (Chunk.covers file i) ≤ 1) :
    l.Pairwise fun c d => ∀ file i, c.covers file i = true → d.covers file i = false := by
  induction l with
  | nil => exact .nil
  | cons c l ih =>
      refine .cons (fun d hd file i hc => ?_) (ih fun file i => ?_)
      · have hle := h file i
        rw [List.countP_cons_of_pos hc] at hle
        have hzero : l.countP (Chunk.covers file i) = 0 := by omega
        simpa using List.countP_eq_zero.1 hzero d hd
      · exact Nat.le_trans (List.sublist_cons_self c l).countP_le (h file i)

/-- A piece without neighbours is a file that was never split. -/
theorem SplitFile.whole_of_not_provisional {f : SplitFile} {c : Chunk} (hc : c ∈ f.pieces)
    (h : c.provisional = false) : f.pieces = [c] ∧ c = Chunk.whole f.name f.text := by
  rcases f.cut.whole_or_carved with hwhole | ⟨ps, hlabel, -, -⟩
  · rw [hwhole, List.mem_singleton] at hc
    exact ⟨by rw [hwhole, hc], hc⟩
  · rw [hlabel] at hc
    simp [(Splitter.of_mem_labelFrom hc).2] at h

namespace Pool

/-- Where a run that ends well leaves the books. -/
structure Concluded (p : TokenTree) (files : List SplitFile) (queued : List Chunk) (j : Journal)
    (q : Pool Memory) : Prop where
  outside : (j.outside queued).Perm (files.flatMap SplitFile.pieces)
  lost : j.lost = []
  awaiting : q.awaiting = []
  conserved : Conserved p (PartOf files) queued j q
  count : ∀ file i, (j.decided p).countP (Chunk.covers file i) =
    (files.flatMap SplitFile.pieces).countP (Chunk.covers file i)
  warned : q.notices.Perm (((j.decided p).filterMap p.warningOf?).map Notice.warning)
  found : q.dispatcher.found.Perm ((j.decided p).flatMap p.recordsOf)

theorem concluded_of_replay {p : TokenTree} {batch workers : Nat} {memory : Memory}
    {files : List SplitFile} {queued : List Chunk} {closed : Bool} {counter : JobCounter}
    {moves : List Move} {q : Pool Memory} (hnames : (files.map SplitFile.name).Nodup)
    (hpieces : (queued ++ if closed then [] else Request.accepted (asks moves)).Perm
      (files.flatMap SplitFile.pieces))
    (hrun : (prepared workers memory queued closed counter).start.replay? ⟨p.toParser, batch⟩
      moves = some q)
    (hhalt : q.halt = none) (hdone : q.dispatcher.phase = .done) :
    Concluded p files queued ((prepared workers memory queued closed counter).journal
      ⟨p.toParser, batch⟩ moves) q := by
  obtain ⟨hsteady, hquiet, hheld⟩ := ended_of_replay hrun hhalt hdone
  have houtside := hpieces
  rw [← submitted_of_replay hrun hhalt hdone] at houtside
  have hconserved := conserved_of_replay (stable_partOf hnames) hrun hhalt (fun c hc => by
    obtain ⟨f, hf, hc⟩ := List.mem_flatMap.1 (houtside.mem_iff.1 hc)
    obtain ⟨hname, hwithin, hsound⟩ := SplitFile.within hc
    exact ⟨⟨f, hf, hname, hwithin⟩, hsound⟩) hquiet.lost
  refine ⟨houtside, hquiet.lost, hquiet.awaiting, hconserved, fun file i => ?_, ?_, ?_⟩
  · -- Nothing is left in the pool, so the decided parts have the bytes of the pieces.
    have hcount := hconserved.count file i
    simp only [hquiet.awaiting, hheld, List.nil_append] at hcount
    exact hcount.trans (houtside.countP_eq _)
  · have hnoticed := noticed_of_replay (fun _ _ _ => rfl) hrun hhalt
    rw [Noticed, hquiet.unseen, hconserved.lines] at hnoticed
    simpa using hnoticed
  · have hfound := hsteady.accounted.found
    rw [hquiet.results, hconserved.found] at hfound
    simpa using hfound.symm

/-- Whatever the front end answers and in whatever order the moves are made, a run
that ends well has decided every byte of every file exactly once. -/
theorem decided_once {p : TokenTree} {batch workers : Nat} {memory : Memory}
    {files : List SplitFile} {queued : List Chunk} {closed : Bool} {counter : JobCounter}
    {moves : List Move} {q : Pool Memory} {found : List Fingerprint}
    (hnames : (files.map SplitFile.name).Nodup)
    (hpieces : (queued ++ if closed then [] else Request.accepted (asks moves)).Perm
      (files.flatMap SplitFile.pieces))
    (hrun : (prepared workers memory queued closed counter).start.replay? ⟨p.toParser, batch⟩
      moves = some q)
    (hok : q.outcome? = some (.ok found)) :
    DecidedOnce p files ((prepared workers memory queued closed counter).journal
      ⟨p.toParser, batch⟩ moves) q.notices found := by
  obtain ⟨hhalt, hdone, rfl⟩ := outcome_eq_ok_iff.1 hok
  obtain ⟨houtside, -, -, hconserved, hcount, hwarned, hfound⟩ :=
    concluded_of_replay hnames hpieces hrun hhalt hdone
  obtain ⟨hmem, hnone⟩ : _ ∧ _ :=
    ⟨fun i => (countP_pieces_of_files hnames i).1, fun i => (countP_pieces_of_files hnames i).2⟩
  refine ⟨fun part hpart => hconserved.good part (by simp [hpart]), ?_, ?_, ?_, hwarned, hfound⟩
  · refine pairwise_of_countP_le_one fun file i => ?_
    rw [hcount]
    by_cases hfile : file ∈ files.map SplitFile.name
    · obtain ⟨f, hf, rfl⟩ := List.mem_map.1 hfile
      rw [hmem i f hf]
      split <;> omega
    · rw [hnone i file hfile]
      exact Nat.zero_le 1
  · intro f hf i hi
    apply List.countP_pos_iff.1
    rw [hcount, hmem i f hf, if_pos hi]
    exact Nat.one_pos
  · intro part hpart hfail
    obtain ⟨hprovisional, hleft | hout⟩ := hconserved.failed part hpart hfail
    · exact .inl hleft
    · obtain ⟨f, hf, hpart⟩ := List.mem_flatMap.1 (houtside.mem_iff.1 hout)
      exact .inr ⟨f, hf, SplitFile.whole_of_not_provisional hpart hprovisional⟩

/-- A grammar in which the nodes with a number are functions. -/
def numbered : Grammar where
  language := .python
  isFunction t := t.label.id != 0
  functionName? _ := none
  isCall _ := false
  callee? _ := none
  isIdentifier _ := false
  isType _ := false
  isAtomic _ := false
  isComment _ := false
  isIdleLiteral _ := false

def soundNode (start : Nat) (children : List SyntaxTree) : SyntaxTree :=
  .node { id := 0, kind := "item", start, stop := start, startRow := 0, stopRow := 0 } children

def functionNode (id start row : Nat) : SyntaxTree :=
  .node { (soundNode start []).label with id, startRow := row, stopRow := row } []

/-- A front end that knows two functions, `a` with its line break and what begins with `b`. -/
def itemizing : TokenTree where
  grammar := numbered
  frontEnd
    | 'a' :: '\n' :: 'b' :: _ => soundNode 0 [functionNode 1 0 0, functionNode 2 2 1]
    | 'a' :: '\n' :: _ | 'b' :: _ => soundNode 0 [functionNode 1 0 0]
    | _ => soundNode 0 [soundNode 0 []]

/-- A file of two functions, cut in the second one. -/
def twoFunctions : SplitFile where
  name := "f"
  text := ['a', '\n', 'b', 'c']
  items := []
  pieces := Splitter.cutAt "f" ['a', '\n', 'b', 'c'] [3]
  cut := .cutAt [3]

/-- Two workers decide the first function, put the second one together and decide it. -/
def twoFunctionsMoves : List Move :=
  [.work 0, .work 1, .report 1, .takeReport, .report 0, .takeReport, .report 0, .takeReport,
    .report 1, .takeReport, .work 1, .report 1, .takeReport, .work 0, .report 0, .takeReport,
    .work 0, .report 0, .takeReport]

theorem exists_run_of_twoFunctions :
    ∃ q found, (prepared 2 {} twoFunctions.pieces true).start.replay? ⟨itemizing.toParser, 0⟩
        twoFunctionsMoves = some q ∧
      q.outcome? = some (.ok found) ∧ found.map Fingerprint.lineStart = [1, 2] := by
  -- A sort is not evaluated by the kernel, so the move that joins the chunks is made apart.
  let p : Pool Memory := (prepared 2 {} twoFunctions.pieces true).start
  let crew : Crew Memory := ⟨itemizing.toParser, 0⟩
  let first : Chunk := ⟨"f", ['b'], 0, 2, 1, false, true, true⟩
  let second : Chunk := ⟨"f", ['c'], 1, 3, 1, true, false, true⟩
  let before := (p.replay? crew (twoFunctionsMoves.take 5)).get (by decide +kernel)
  have hbefore : p.replay? crew (twoFunctionsMoves.take 5) = some before :=
    (Option.some_get _).symm
  have hreports : before.reports = [(0, .said (.remainder first))] := by decide +kernel
  have hremainders : before.dispatcher.remainders = ⟨[("f", [second])]⟩ := by decide +kernel
  have hsort : [second, first].mergeSort Remainders.inOrder = [first, second] := by
    simp [List.mergeSort, List.MergeSort.Internal.splitInTwo, Remainders.inOrder, first, second]
  have hinsert : before.dispatcher.remainders.insert first =
      .ok ([⟨"f", ['b', 'c'], 0, 2, 1, false, false, true⟩], {}) := by
    rw [hremainders]
    exact (Remainders.insert_of_mergeSort_eq (by exact hsort)).trans rfl
  have hrun := replay?_of_insert hbefore (by decide +kernel) hreports hinsert
    (twoFunctionsMoves.drop 6)
  have hend : (p.replay? crew twoFunctionsMoves).map (fun q =>
      (q.halt, q.dispatcher.phase, q.dispatcher.found.map Fingerprint.lineStart)) =
        some (none, .done, [1, 2]) := by
    refine (congrArg _ hrun).trans ?_
    decide +kernel
  obtain ⟨q, hq, hend⟩ := Option.map_eq_some_iff.1 hend
  simp only [Prod.mk.injEq] at hend
  exact ⟨q, q.dispatcher.found, hq, outcome_eq_ok_iff.2 ⟨hend.1, hend.2.1, rfl⟩, hend.2.2⟩

theorem decided_once_for_two_functions :
    let p := prepared 2 {} twoFunctions.pieces true
    let crew : Crew Memory := ⟨itemizing.toParser, 0⟩
    ∃ q found, p.start.replay? crew twoFunctionsMoves = some q ∧ q.outcome? = some (.ok found) ∧
      found.map Fingerprint.lineStart = [1, 2] ∧
      DecidedOnce itemizing [twoFunctions] (p.journal crew twoFunctionsMoves) q.notices found := by
  intro p crew
  obtain ⟨q, found, hq, hok, hlines⟩ := exists_run_of_twoFunctions
  exact ⟨q, found, hq, hok, hlines, decided_once (List.nodup_singleton _) (by simp) hq hok⟩

end Pool

end ClonePrint
