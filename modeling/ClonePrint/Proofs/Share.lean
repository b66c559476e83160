import ClonePrint.Proofs.Coverage

/-!
# The share of one file in a pool

Seen from one file, every move of a pool does nothing, or a worker parses a chunk
of this file, or chunks of it are joined, flushed or arrive. A property of the
share of a file has to survive these five kinds of steps, whatever the pool does
with other files in the meantime. A flush finds nothing of a file whose pieces are
not all there, provided that the pieces arrive in time.
-/
namespace ClonePrint

def Chunk.isOf (name : String) (c : Chunk) : Bool := c.file == name

theorem Chunk.filter_isOf_eq_self {name : String} {l : List Chunk} (h : ∀ c ∈ l, c.file = name) :
    l.filter (isOf name) = l := by
  rw [List.filter_eq_self]
  intro c hc
  simp [isOf, h c hc]

theorem Chunk.filter_isOf_eq_nil {name other : String} {l : List Chunk}
    (h : ∀ c ∈ l, c.file = other) (hne : other ≠ name) : l.filter (isOf name) = [] := by
  rw [List.filter_eq_nil_iff]
  intro c hc
  simp [isOf, h c hc, hne]

theorem stable_file (name : String) : Stable fun c => c.file = name where
  front := fun h _ => h
  behind := fun h _ => h
  concat := fun h _ _ => h
  edges := fun _ _ _ h => h

theorem Remainders.filter_others {r : Remainders} (h : r.Tidy) (name : String) :
    (r.others name).filter (Chunk.isOf name) = [] := by
  rw [List.filter_eq_nil_iff]
  intro c hc
  simpa [Chunk.isOf] using file_ne_of_mem_others h hc

/-- No chunk of a file is flushed before a later piece of the same file arrives. -/
def Timely (entered : List (Origin × Chunk)) : Prop :=
  entered.Pairwise fun a b => a.1 = .leftover → b.1 = .submitted → a.2.file ≠ b.2.file

theorem Journal.map_chunksFrom (origin : Origin) (j : Journal) :
    (j.chunksFrom origin).map (origin, ·) = j.entered.filter (·.1 = origin) := by
  rw [Journal.chunksFrom, List.map_map]
  refine (List.map_congr_left fun x hx => ?_).trans (List.map_id _)
  have horigin := (List.mem_filter.1 hx).2
  simp only [decide_eq_true_eq] at horigin
  rw [← horigin]
  rfl

/-- What there is of one file while a pool is running. Of the held chunks some wait in the buffer,
and missing pieces have not arrived. -/
structure Share where
  awaiting : List Chunk
  held : List Chunk
  waiting : List Chunk
  missing : List Chunk
  decided : List Chunk
  flushed : List Chunk

namespace Share

/-- What a move of the pool does to the share of one file. -/
inductive Step (p : TokenTree) (s t : Share) : Prop
  | still (awaiting : t.awaiting.Perm s.awaiting) (held : t.held.Perm s.held)
      (waiting : t.waiting.Perm s.waiting) (missing : t.missing = s.missing)
      (decided : t.decided = s.decided) (flushed : t.flushed = s.flushed)
  | parse {c : Chunk} {parts back : List Chunk} (parses : p.Parses c parts back)
      (awaiting : s.awaiting.Perm (c :: t.awaiting)) (held : t.held.Perm (back ++ s.held))
      (waiting : t.waiting = s.waiting) (missing : t.missing = s.missing)
      (decided : t.decided = s.decided ++ parts) (flushed : t.flushed = s.flushed)
  | join {joined merged : List Chunk} (joins : Joins merged joined)
      (awaiting : t.awaiting.Perm (joined ++ s.awaiting)) (held : s.held.Perm (merged ++ t.held))
      (between : ∀ x ∈ t.waiting, ∀ y ∈ t.waiting, x.id < y.id → x.precedes y = true →
        ∃ z, [x, z, y].Subperm s.held ∧ x.id ≤ z.id ∧ z.id ≤ y.id)
      (missing : t.missing = s.missing) (decided : t.decided = s.decided)
      (flushed : t.flushed = s.flushed)
  | flush (quiet : s.awaiting = []) (buffered : s.held = s.waiting)
      (late : s.waiting ≠ [] → s.missing = [])
      (awaiting : t.awaiting.Perm (s.waiting.map Chunk.settled)) (held : t.held = [])
      (waiting : t.waiting = []) (missing : t.missing = s.missing)
      (decided : t.decided = s.decided)
      (flushed : t.flushed.Perm (s.flushed ++ s.waiting.map Chunk.settled))
  | submit {c : Chunk} (missing : s.missing = c :: t.missing)
      (awaiting : t.awaiting.Perm (c :: s.awaiting)) (held : t.held.Perm s.held)
      (waiting : t.waiting = s.waiting) (decided : t.decided = s.decided)
      (flushed : t.flushed = s.flushed)

end Share

namespace Pool

/-- The share of a file, where `rest` are the chunks that have not arrived. -/
def share (p : TokenTree) (name : String) (rest : List Chunk) (j : Journal) (q : Pool Memory) :
    Share where
  awaiting := q.awaiting.filter (Chunk.isOf name)
  held := q.held.filter (Chunk.isOf name)
  waiting := q.dispatcher.remainders.chunks.filter (Chunk.isOf name)
  missing := rest.filter (Chunk.isOf name)
  decided := (j.decided p).filter (Chunk.isOf name)
  flushed := (j.chunksFrom .leftover).filter (Chunk.isOf name)

section
variable {p : TokenTree} {batch : Nat} {name : String} {rest : List Chunk} {j k : Journal}
  {q q' : Pool Memory}

theorem flushed_of_chunksFrom (h : k.chunksFrom .leftover = []) :
    (share p name rest (j ++ k) q').flushed = (share p name rest j q).flushed := by
  simp only [share, Journal.chunksFrom_append, h, List.append_nil]

/-- A move that concerns other files only. -/
theorem still_of_perm (hawaiting : (share p name rest (j ++ k) q').awaiting.Perm
      (share p name rest j q).awaiting)
    (hheld : (share p name rest (j ++ k) q').held.Perm (share p name rest j q).held)
    (hwaiting : (share p name rest (j ++ k) q').waiting.Perm (share p name rest j q).waiting)
    (hdecided : (k.decided p).filter (Chunk.isOf name) = [])
    (hleft : k.chunksFrom .leftover = []) :
    (share p name rest j q).Step p (share p name rest (j ++ k) q') := by
  refine .still hawaiting hheld hwaiting rfl ?_ (flushed_of_chunksFrom hleft)
  simp only [share, Journal.decided_append, List.filter_append, hdecided, List.append_nil]

theorem step_of_parse {c : Chunk} {back : List Chunk} (hparsed : Parsed p k c back)
    (hawaiting : q.awaiting.Perm (c :: q'.awaiting)) (hheld : q'.held.Perm (back ++ q.held))
    (hkept : q'.dispatcher.remainders = q.dispatcher.remainders) :
    (share p name rest j q).Step p (share p name rest (j ++ k) q') := by
  have hfile : ∀ x ∈ back ++ k.decided p, x.file = c.file :=
    hparsed.parses.good (stable_file c.file) rfl
  have hback : ∀ x ∈ back, x.file = c.file := fun x hx => hfile x (by simp [hx])
  have hparts : ∀ x ∈ k.decided p, x.file = c.file := fun x hx => hfile x (by simp [hx])
  have hleft : k.chunksFrom .leftover = [] := by
    rw [Journal.chunksFrom, hparsed.entered]
    rfl
  have hqueue := hawaiting.filter (Chunk.isOf name)
  have hbuffer := hheld.filter (Chunk.isOf name)
  rw [List.filter_append] at hbuffer
  by_cases hname : c.file = name
  · subst hname
    rw [List.filter_cons_of_pos (by simp [Chunk.isOf])] at hqueue
    rw [Chunk.filter_isOf_eq_self hback] at hbuffer
    refine .parse hparsed.parses hqueue hbuffer (by simp only [share, hkept]) rfl ?_
      (flushed_of_chunksFrom hleft)
    simp only [share, Journal.decided_append, List.filter_append,
      Chunk.filter_isOf_eq_self hparts]
  · rw [List.filter_cons_of_neg (by simp [Chunk.isOf, hname])] at hqueue
    rw [Chunk.filter_isOf_eq_nil hback hname] at hbuffer
    refine still_of_perm hqueue.symm hbuffer ?_ (Chunk.filter_isOf_eq_nil hparts hname) hleft
    simp only [share, hkept]
    exact .refl _

theorem step_of_join {c : Chunk} {joined merged alone : List Chunk} (hunworked : Unworked k)
    (hentered : k.entered = joined.map (.joined, ·)) (htidy : q.dispatcher.remainders.Tidy)
    (hinserts : Remainders.Inserts c q.dispatcher.remainders joined q'.dispatcher.remainders
      merged alone)
    (hawaiting : q'.awaiting.Perm (joined ++ q.awaiting))
    (hheld : q.held.Perm (merged ++ q'.held))
    (hpending : (c :: q.dispatcher.remainders.pending c.file).Subperm q.held) :
    (share p name rest j q).Step p (share p name rest (j ++ k) q') := by
  have hnone := hunworked.decided (p := p)
  have hleft : k.chunksFrom .leftover = [] := by simp [chunksFrom_of_entered hentered]
  have hfile : ∀ x ∈ merged ++ alone, x.file = c.file := by
    intro x hx
    rcases List.mem_cons.1 (hinserts.divided.mem_iff.2 hx) with rfl | hx
    · rfl
    · exact Remainders.file_of_mem_pending htidy hx
  have hmerged : ∀ x ∈ merged, x.file = c.file := fun x hx => hfile x (by simp [hx])
  have halone : ∀ x ∈ alone, x.file = c.file := fun x hx => hfile x (by simp [hx])
  have hjoined : ∀ x ∈ joined, x.file = c.file :=
    hinserts.joins.forall_mem (fun _ _ hx _ _ => hx) hmerged
  have hqueue := hawaiting.filter (Chunk.isOf name)
  have hbuffer := hheld.filter (Chunk.isOf name)
  have hwaiting := hinserts.chunks.filter (Chunk.isOf name)
  rw [List.filter_append] at hqueue hbuffer hwaiting
  by_cases hname : c.file = name
  · subst hname
    rw [Chunk.filter_isOf_eq_self hjoined] at hqueue
    rw [Chunk.filter_isOf_eq_self hmerged] at hbuffer
    rw [Chunk.filter_isOf_eq_self halone, Remainders.filter_others htidy,
      List.append_nil] at hwaiting
    refine .join hinserts.joins hqueue hbuffer ?_ rfl ?_ (flushed_of_chunksFrom hleft)
    · intro x hx y hy hid hadjacent
      have hx := hwaiting.mem_iff.1 hx
      have hy := hinserts.divided.mem_iff.2 (List.mem_append_right _ (hwaiting.mem_iff.1 hy))
      obtain ⟨z, hsub, hxz, hzy⟩ := hinserts.between x hx y hy hid hadjacent
      refine ⟨z, ?_, hxz, hzy⟩
      have hall := hsub.filter (Chunk.isOf c.file)
      rw [Chunk.filter_isOf_eq_self] at hall
      · exact hall.trans (hpending.filter _)
      · intro u hu
        exact hfile u (hinserts.divided.mem_iff.1 (hsub.subset hu))
    · simp only [share, Journal.decided_append, hnone, List.append_nil]
  · rw [Chunk.filter_isOf_eq_nil hjoined hname] at hqueue
    rw [Chunk.filter_isOf_eq_nil hmerged hname] at hbuffer
    rw [Chunk.filter_isOf_eq_nil halone hname] at hwaiting
    refine still_of_perm hqueue hbuffer.symm ?_ (by rw [hnone]; rfl) hleft
    have hbefore := (Remainders.chunks_perm htidy c.file).filter (Chunk.isOf name)
    rw [List.filter_append, Chunk.filter_isOf_eq_nil (fun x hx =>
      Remainders.file_of_mem_pending htidy hx) hname] at hbefore
    exact hwaiting.trans hbefore.symm

theorem filter_map_settled (l : List Chunk) :
    (l.map Chunk.settled).filter (Chunk.isOf name) =
      (l.filter (Chunk.isOf name)).map Chunk.settled := by
  rw [List.filter_map]
  rfl

/-- A flush of chunks of a file that is not all there would not be in time. -/
theorem missing_eq_nil_of_flush {remainders : Remainders}
    (hentered : k.entered = remainders.leftovers.map (.leftover, ·))
    (htimely : Timely (k.entered ++ rest.map (.submitted, ·)))
    (h : remainders.chunks.filter (Chunk.isOf name) ≠ []) :
    rest.filter (Chunk.isOf name) = [] := by
  obtain ⟨x, hx⟩ := List.exists_mem_of_ne_nil _ h
  obtain ⟨hx, hname⟩ := List.mem_filter.1 hx
  have hleft : x.settled ∈ remainders.leftovers :=
    (Remainders.leftovers_perm _).mem_iff.2 (List.mem_map_of_mem hx)
  have hapart := (List.pairwise_append.1 htimely).2.2
  rw [List.filter_eq_nil_iff]
  intro c hc hfile
  refine hapart (.leftover, x.settled) ?_ (.submitted, c) (List.mem_map_of_mem hc) rfl rfl ?_
  · rw [hentered]
    exact List.mem_map_of_mem hleft
  · simp only [Chunk.isOf, beq_iff_eq] at hname hfile
    exact hname.trans hfile.symm

theorem step_of_flush {counter : JobCounter} {queued : List Chunk}
    (hsteady : Steady counter queued j q)
    (hunworked : Unworked k) (hquiet : q.dispatcher.isQuiet = true)
    (hentered : k.entered = q.dispatcher.remainders.leftovers.map (.leftover, ·))
    (hawaiting : q'.awaiting.Perm (q.dispatcher.remainders.leftovers ++ q.awaiting))
    (hheld : q.held.Perm (q.dispatcher.remainders.chunks ++ q'.held))
    (hempty : q'.dispatcher.remainders = {})
    (htimely : Timely (k.entered ++ rest.map (.submitted, ·))) :
    (share p name rest j q).Step p (share p name rest (j ++ k) q') := by
  obtain ⟨hqueue, hflight⟩ : q.dispatcher.queue.jobs = [] ∧ q.dispatcher.inFlight = [] := by
    simpa [Dispatcher.isQuiet, JobQueue.isEmpty] using hquiet
  have hnothing := hsteady.quiet hqueue hflight
  have hbuffered : q.held = q.dispatcher.remainders.chunks := by
    rw [held, hnothing.returned, List.nil_append]
  have hgone : q'.held = [] := by
    have hlength := hheld.length_eq
    rw [hbuffered, List.length_append] at hlength
    exact List.length_eq_zero_iff.1 (by omega)
  rw [hnothing.awaiting, List.append_nil] at hawaiting
  have hleft := (hawaiting.trans (Remainders.leftovers_perm _)).filter (Chunk.isOf name)
  rw [filter_map_settled] at hleft
  refine .flush ?_ ?_ (missing_eq_nil_of_flush hentered htimely) hleft ?_ ?_ rfl ?_ ?_
  · simp only [share, hnothing.awaiting, List.filter_nil]
  · simp only [share, hbuffered]
  · simp only [share, hgone, List.filter_nil]
  · simp only [share, hempty]
    rfl
  · simp only [share, Journal.decided_append, hunworked.decided, List.append_nil]
  · have hflushed := (Remainders.leftovers_perm q.dispatcher.remainders).filter (Chunk.isOf name)
    rw [filter_map_settled] at hflushed
    simp only [share, Journal.chunksFrom_append, chunksFrom_of_entered hentered, ↓reduceIte,
      List.filter_append]
    exact hflushed.append_left _

theorem step_of_submit {c : Chunk} (hunworked : Unworked k)
    (hentered : k.entered = [(.submitted, c)])
    (hawaiting : q'.awaiting.Perm (c :: q.awaiting)) (hheld : q'.held.Perm q.held)
    (hkept : q'.dispatcher.remainders = q.dispatcher.remainders) :
    (share p name (c :: rest) j q).Step p (share p name rest (j ++ k) q') := by
  have hqueue := hawaiting.filter (Chunk.isOf name)
  have hbuffer := hheld.filter (Chunk.isOf name)
  have hdecided : (share p name rest (j ++ k) q').decided =
      (share p name (c :: rest) j q).decided := by
    simp only [share, Journal.decided_append, hunworked.decided, List.append_nil]
  have hleft : k.chunksFrom .leftover = [] := by
    rw [Journal.chunksFrom, hentered]
    rfl
  by_cases hname : c.isOf name = true
  · rw [List.filter_cons_of_pos hname] at hqueue
    refine .submit ?_ hqueue hbuffer ?_ hdecided (flushed_of_chunksFrom (q := q) hleft)
    · simp only [share, List.filter_cons_of_pos hname]
    · simp only [share, hkept]
  · rw [List.filter_cons_of_neg hname] at hqueue
    refine .still hqueue hbuffer ?_ ?_ hdecided (flushed_of_chunksFrom (q := q) hleft)
    · simp only [share, hkept]
      exact .refl _
    · simp only [share, List.filter_cons_of_neg hname]

/-- Every move of the pool is a step of the share. The chunks that it takes in from
outside were missing before. -/
theorem step_of_shift {counter : JobCounter} {queued : List Chunk}
    (hsteady : Steady counter queued j q)
    (hlost : k.lost = []) (hsound : ∀ c ∈ q.awaiting, TokenTree.Sound c)
    (htimely : Timely (k.entered ++ rest.map (.submitted, ·)))
    (hshift : Shift ⟨p.toParser, batch⟩ q k q') :
    (share p name (k.chunksFrom .submitted ++ rest) j q).Step p (share p name rest (j ++ k) q') := by
  cases hshift with
  | still unworked entered awaiting held remainders =>
      have hnone : k.chunksFrom .submitted = [] := by rw [Journal.chunksFrom, entered]; rfl
      rw [hnone, List.nil_append]
      refine still_of_perm (awaiting.filter _) (held.filter _) ?_ ?_ ?_
      · simp only [share, remainders]
        exact .refl _
      · rw [unworked.decided]
        rfl
      · rw [Journal.chunksFrom, entered]
        rfl
  | parse worker job work awaiting held remainders =>
      have hc := hsound job.payload (awaiting.mem_iff.2 (List.mem_cons_self ..))
      have hparsed := parsed_of_work work hlost hc
      have hnone : k.chunksFrom .submitted = [] := by
        rw [Journal.chunksFrom, hparsed.entered]
        rfl
      rw [hnone, List.nil_append]
      exact step_of_parse hparsed awaiting held remainders
  | join c joined merged alone unworked entered inserts awaiting held waiting =>
      rw [chunksFrom_of_entered entered, if_neg (by simp), List.nil_append]
      exact step_of_join unworked entered hsteady.tidy inserts awaiting held waiting
  | flush unworked quiet entered awaiting held remainders =>
      rw [chunksFrom_of_entered entered, if_neg (by simp), List.nil_append]
      exact step_of_flush hsteady unworked quiet entered awaiting held remainders htimely
  | submit c unworked entered awaiting held remainders =>
      have hone : k.chunksFrom .submitted = [c] := by rw [Journal.chunksFrom, entered]; rfl
      rw [hone]
      exact step_of_submit unworked entered awaiting held remainders

end

/-- What holds of the share of a file at the start and survives every step holds of it
at the end, when everything has arrived. -/
theorem share_of_replay {p : TokenTree} {batch workers : Nat} {memory : Memory}
    {queued total : List Chunk} {closed : Bool} {counter : JobCounter} {moves : List Move}
    {q : Pool Memory}
    (holds : Share → Prop) (name : String)
    (start : ∀ s : Share, (s.awaiting ++ s.missing).Perm (total.filter (Chunk.isOf name)) →
      s.held = [] → s.waiting = [] → s.decided = [] → s.flushed = [] → holds s)
    (step : ∀ s t, holds s → s.Step p t → holds t)
    (hrun : (prepared workers memory queued closed counter).start.replay? ⟨p.toParser, batch⟩
      moves = some q)
    (hhalt : q.halt = none) (hsound : ∀ c ∈ total, TokenTree.Sound c)
    (htotal : (((prepared workers memory queued closed counter).journal
      ⟨p.toParser, batch⟩ moves).outside queued).Perm total)
    (htimely : Timely ((prepared workers memory queued closed counter).journal
      ⟨p.toParser, batch⟩ moves).entered)
    (hlost : ((prepared workers memory queued closed counter).journal ⟨p.toParser, batch⟩
      moves).lost = []) :
    holds (share p name [] ((prepared workers memory queued closed counter).journal
      ⟨p.toParser, batch⟩ moves) q) := by
  -- Before the end, some of the chunks from outside are still to come.
  have hall := (shift_induction (fun j q => ∀ rest, (j.outside queued ++ rest).Perm total →
    Timely (j.entered ++ rest.map (.submitted, ·)) → j.lost = [] →
    Conserved p (fun _ => True) queued j q ∧ holds (share p name rest j q)) ?_ ?_ hrun hhalt).2
  · refine (hall [] ?_ ?_ hlost).2
    · rwa [List.append_nil]
    · rwa [List.map_nil, List.append_nil]
  · intro handed q hawaiting hheld rest hrest _ _
    have hnew : ∀ c ∈ q.awaiting, TokenTree.Sound c := fun c hc =>
      hsound c (hrest.mem_iff.1 (by simp [Journal.outside, hawaiting.mem_iff.1 hc]))
    have hchunks : q.dispatcher.remainders.chunks = [] := by
      rw [held, List.append_eq_nil_iff] at hheld
      exact hheld.2
    refine ⟨.start (fun c hc => ⟨trivial, hnew c (hawaiting.mem_iff.2 hc)⟩) hawaiting hheld, ?_⟩
    · refine start _ ?_ ?_ ?_ rfl rfl
      · simp only [share, ← List.filter_append]
        refine List.Perm.filter _ ((hawaiting.append_right rest).trans ?_)
        simpa [Journal.outside, Journal.chunksFrom] using hrest
      · simp only [share, hheld, List.filter_nil]
      · simp only [share, hchunks, List.filter_nil]
  · intro j k q q' hsteady hholds hshift rest hrest htimely hlost
    rw [Journal.append_lost, List.append_eq_nil_iff] at hlost
    rw [Journal.append_entered] at htimely
    have hbefore : (j.outside queued ++ (k.chunksFrom .submitted ++ rest)).Perm total := by
      simpa [Journal.outside, Journal.chunksFrom_append] using hrest
    have hsub : ((k.chunksFrom .submitted).map (Origin.submitted, ·)).Sublist k.entered := by
      rw [Journal.map_chunksFrom]
      exact List.filter_sublist
    obtain ⟨hconserved, hshare⟩ := hholds _ hbefore (htimely.sublist (by
      rw [List.map_append, ← List.append_assoc]
      exact (hsub.append_left _).append_right _)) hlost.1
    refine ⟨hconserved.shift ?_ (fun c hc => ⟨trivial, hsound c ?_⟩) hlost.2 hshift, ?_⟩
    · exact ⟨fun _ _ => trivial, fun _ _ => trivial, fun _ _ _ => trivial, fun _ _ _ _ => trivial⟩
    · exact hrest.mem_iff.1 (List.mem_append_left _ hc)
    refine step _ _ hshare (step_of_shift hsteady hlost.2 hconserved.sound ?_ hshift)
    rw [List.append_assoc] at htimely
    exact (List.pairwise_append.1 htimely).2.1

end Pool

end ClonePrint
