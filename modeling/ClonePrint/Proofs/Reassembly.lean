import ClonePrint.Proofs.Seams
import ClonePrint.Proofs.Share
import ClonePrint.Proofs.Strand

/-!
# Split files are put together again

When the front end takes a file apart at its items, the undecided chunks of the file
form a strand at any time, what has been decided lies between boundaries, and nothing
is flushed: as long as something of the file is held, two of its chunks are
neighbours, or a piece has not arrived. A file that was queued whole is decided as it
is. So a run that ends well returns what the parses of the whole files return.
-/
namespace ClonePrint

theorem TokenTree.Parses.of_closed {p : TokenTree} {c : Chunk} {parts back : List Chunk}
    (h : p.Parses c parts back) (hclosed : c.isClosed = true) (haccepts : p.accepts c = true) :
    parts = [c] ∧ back = [] := by
  cases h with
  | whole closed final => exact ⟨rfl, rfl⟩
  | front starts ends divides progress point final => simp [Chunk.isClosed, ends] at hclosed
  | defer unclosed => simp [unclosed] at hclosed
  | reopen attempt starts broken provisional =>
      rw [TokenTree.attempt?, if_pos hclosed, Option.some.injEq] at attempt
      simp [attempt ▸ broken] at haccepts

theorem Joins.eq_nil {b : List Chunk} (h : Joins [] b) : b = [] := by
  cases h with
  | perm same => exact List.nil_perm.1 same
  | join found => cases List.nil_perm.1 found

/-- Some chunks that parse on their own, and nothing else of the file. -/
structure Entire (ws : List Chunk) (s : Share) : Prop where
  chunks : (s.awaiting ++ (s.missing ++ s.decided)).Perm ws
  held : s.held = []
  flushed : s.flushed = []

theorem Entire.step {p : TokenTree} {ws : List Chunk} {s t : Share} (h : Entire ws s)
    (hws : ∀ c ∈ ws, c.isClosed = true ∧ p.accepts c = true) (hstep : s.Step p t) :
    Entire ws t := by
  cases hstep with
  | still awaiting held waiting missing decided flushed =>
      refine ⟨?_, List.perm_nil.1 (h.held ▸ held), flushed.trans h.flushed⟩
      rw [missing, decided]
      exact (awaiting.append_right _).trans h.chunks
  | @parse c parts back parses awaiting held waiting missing decided flushed =>
      have hc : c ∈ ws := h.chunks.mem_iff.1 (by simp [awaiting.mem_iff])
      obtain ⟨hclosed, haccepts⟩ := hws c hc
      obtain ⟨rfl, rfl⟩ := parses.of_closed hclosed haccepts
      refine ⟨?_, List.perm_nil.1 (h.held ▸ held), flushed.trans h.flushed⟩
      apply List.Perm.trans _ h.chunks
      apply List.Perm.trans _ (awaiting.append_right _).symm
      rw [missing, decided]
      simpa only [List.append_assoc, List.cons_append] using
        List.perm_append_singleton c (t.awaiting ++ (s.missing ++ s.decided))
  | join joins awaiting held between missing decided flushed =>
      rw [h.held] at held
      obtain ⟨rfl, hheld⟩ := List.append_eq_nil_iff.1 (List.nil_perm.1 held)
      obtain rfl := joins.eq_nil
      refine ⟨?_, hheld, flushed.trans h.flushed⟩
      rw [missing, decided]
      exact (awaiting.append_right _).trans h.chunks
  | flush quiet buffered late awaiting held waiting missing decided flushed =>
      rw [← buffered, h.held] at awaiting flushed
      refine ⟨?_, held, ?_⟩
      · rw [missing, decided, List.perm_nil.1 awaiting, ← quiet]
        exact h.chunks
      · rw [h.flushed] at flushed
        exact List.perm_nil.1 flushed
  | submit missing awaiting held waiting decided flushed =>
      refine ⟨?_, List.perm_nil.1 (h.held ▸ held), flushed.trans h.flushed⟩
      apply List.Perm.trans _ h.chunks
      rw [missing, decided]
      exact (awaiting.append_right _).trans List.perm_middle.symm

/-- Joining chunks of a strand leaves a strand. -/
theorem Strand.joins {f : SplitFile} {boundary : Nat → Prop} {merged joined rest chain : List Chunk}
    (h : Strand f boundary chain) (hjoins : Joins merged joined)
    (hchain : chain.Perm (merged ++ rest)) :
    ∃ left, left.Perm (joined ++ rest) ∧ Strand f boundary left := by
  induction hjoins generalizing chain with
  | perm same => exact ⟨chain, hchain.trans (same.append_right rest), h⟩
  | @join a b others c d found ordered adjacent more ih =>
      obtain ⟨before, after, rfl, hothers⟩ :=
        h.exists_adjacent (hchain.trans (found.append_right rest)) ordered adjacent
      refine ih (h.concat adjacent) (List.perm_middle.trans ?_)
      exact hothers.cons (c.concat d)

/-- The undecided chunks of the file are a strand, nothing is decided too early, and what could be
joined in the buffer has been joined. -/
structure Strung (p : TokenTree) (f : SplitFile) (s : Share) : Prop where
  strand : ∃ chain, chain.Perm (s.awaiting ++ (s.held ++ s.missing)) ∧
    Strand f (f.boundary p) chain
  opened : ∀ c ∈ s.held, c.isClosed = false
  unjoined : ∀ c ∈ s.waiting, ∀ d ∈ s.waiting, c.id < d.id → c.precedes d = false
  decided : ∀ c ∈ s.decided, Clean p f c
  flushed : s.flushed = []

section
variable {p : TokenTree} {f : SplitFile}

theorem Strand.clean {chain : List Chunk} {c : Chunk} (h : Strand f (f.boundary p) chain)
    (hc : c ∈ chain) (hclosed : c.isClosed = true) : Clean p f c := by
  obtain ⟨hstart, hend⟩ := Chunk.isClosed_iff.1 hclosed
  exact ⟨h.file c hc, h.within c hc, h.opens c hc hstart, h.closes c hc hend⟩

/-- What the front end takes for complete ends at a boundary. -/
theorem Strand.clean_front {chain : List Chunk} {c : Chunk} {skipped text : Text}
    (h : Strand f (f.boundary p) chain) (hseamless : Seamless p f) (hc : c ∈ chain)
    (hstart : c.openStart = false) (hdivides : skipped ++ text = c.text)
    (hprogress : 0 < Text.size skipped)
    (hpoint : (p.frontEnd c.text).holdBackPoint = Text.size skipped) :
    Clean p f (c.front skipped) := by
  have hopens := h.opens c hc hstart
  obtain ⟨before, after, hwhole, hsize, -⟩ := h.within c hc
  have hne : c.text ≠ [] := by
    intro hnil
    rw [← hdivides, List.append_eq_nil_iff] at hnil
    simp [hnil.1, Text.size] at hprogress
  refine ⟨h.file c hc, (h.within c hc).front hdivides, hopens, ?_⟩
  rcases hseamless.hold before c.text after hwhole hne (hsize ▸ hopens) with hzero | hstop
  · omega
  · rw [hsize, hpoint] at hstop
    exact hstop

/-- Parsing a chunk of a strand decides clean parts, and what is handed back takes the
place of the chunk. -/
theorem Strand.parses {a b parts back : List Chunk} {c : Chunk}
    (h : Strand f (f.boundary p) (a ++ c :: b)) (hseamless : Seamless p f)
    (hparses : p.Parses c parts back) :
    Strand f (f.boundary p) (a ++ (back ++ b)) ∧ (∀ x ∈ parts, Clean p f x) ∧
      ∀ x ∈ back, x.isClosed = false := by
  have hc : c ∈ a ++ c :: b := by simp
  cases hparses with
  | whole closed final => exact ⟨h.remove closed, by simpa using h.clean hc closed, by simp⟩
  | @front skipped text starts ends divides progress point final =>
      have hclean := h.clean_front hseamless hc starts divides progress point
      refine ⟨h.behind starts divides hclean.stop, by simpa using hclean, ?_⟩
      simp [Chunk.isClosed, Chunk.behind, ends]
  | defer unclosed => exact ⟨h, by simp, by simpa using unclosed⟩
  | @reopen part attempt starts broken provisional =>
      -- The attempt was about a clean part, which parses.
      have hclean : Clean p f part := by
        rw [TokenTree.attempt?] at attempt
        split at attempt
        · rename_i hclosed
          rw [← Option.some.inj attempt]
          exact h.clean hc hclosed
        · simp only [starts, Bool.false_eq_true, ↓reduceIte] at attempt
          split at attempt
          · cases attempt
          · rename_i hzero
            obtain ⟨⟨skipped, text⟩, hcut, rfl⟩ := Option.map_eq_some_iff.1 attempt
            obtain ⟨hdivides, hsize⟩ := Text.cut?_eq_some_iff.1 hcut
            have hprogress : 0 < Text.size skipped := by
              rw [hsize]
              exact Nat.pos_of_ne_zero hzero
            exact h.clean_front hseamless hc starts hdivides hprogress hsize.symm
      simp [hseamless.accepts hclean] at broken

/-- Nothing waits in the buffer of a quiet pool when every piece of the file is there:
two of the chunks would be neighbours. -/
theorem Strung.waiting_eq_nil {s : Share} (h : Strung p f s) (hquiet : s.awaiting = [])
    (hbuffered : s.held = s.waiting) (hlate : s.waiting ≠ [] → s.missing = []) :
    s.waiting = [] := by
  obtain ⟨chain, hchain, hstrand⟩ := h.strand
  by_contra hsome
  rw [hquiet, hlate hsome, List.nil_append, List.append_nil, hbuffered] at hchain
  have hopen : ∀ c ∈ chain, c.isClosed = false := fun c hc =>
    h.opened c (by rw [hbuffered]; exact hchain.mem_iff.1 hc)
  have hnil := hstrand.eq_nil_of_unjoined hopen fun c hc d hd =>
    h.unjoined c (hchain.mem_iff.1 hc) d (hchain.mem_iff.1 hd)
  rw [hnil] at hchain
  exact hsome (List.nil_perm.1 hchain)

theorem Strung.parse {s t : Share} (h : Strung p f s) (hseamless : Seamless p f) {c : Chunk}
    {parts back : List Chunk} (hparses : p.Parses c parts back)
    (hawaiting : s.awaiting.Perm (c :: t.awaiting)) (hheld : t.held.Perm (back ++ s.held))
    (hwaiting : t.waiting = s.waiting) (hmissing : t.missing = s.missing)
    (hdecided : t.decided = s.decided ++ parts) (hflushed : t.flushed = s.flushed) :
    Strung p f t := by
  obtain ⟨chain, hchain, hstrand⟩ := h.strand
  obtain ⟨a, b, rfl⟩ := List.append_of_mem
    (hchain.mem_iff.2 (List.mem_append_left _ (hawaiting.mem_iff.2 (List.mem_cons_self ..))))
  obtain ⟨hleft, hparts, hback⟩ := hstrand.parses hseamless hparses
  have hothers : (a ++ b).Perm (t.awaiting ++ (s.held ++ s.missing)) :=
    (List.perm_middle.symm.trans (hchain.trans (hawaiting.append_right _))).cons_inv
  refine ⟨⟨_, ?_, hleft⟩, ?_, ?_, ?_, hflushed.trans h.flushed⟩
  · rw [hmissing]
    refine (List.perm_append_comm_assoc a back b).trans ((hothers.append_left back).trans ?_)
    refine (List.perm_append_comm_assoc _ _ _).trans (List.Perm.append_left _ ?_)
    rw [← List.append_assoc]
    exact hheld.symm.append_right _
  · intro x hx
    rcases List.mem_append.1 (hheld.mem_iff.1 hx) with hx | hx
    · exact hback x hx
    · exact h.opened x hx
  · rw [hwaiting]
    exact h.unjoined
  · intro x hx
    rw [hdecided] at hx
    rcases List.mem_append.1 hx with hx | hx
    · exact h.decided x hx
    · exact hparts x hx

theorem Strung.join {s t : Share} (h : Strung p f s) {joined merged : List Chunk}
    (hjoins : Joins merged joined) (hawaiting : t.awaiting.Perm (joined ++ s.awaiting))
    (hheld : s.held.Perm (merged ++ t.held))
    (hbetween : ∀ x ∈ t.waiting, ∀ y ∈ t.waiting, x.id < y.id → x.precedes y = true →
      ∃ z, [x, z, y].Subperm s.held ∧ x.id ≤ z.id ∧ z.id ≤ y.id)
    (hmissing : t.missing = s.missing) (hdecided : t.decided = s.decided)
    (hflushed : t.flushed = s.flushed) : Strung p f t := by
  obtain ⟨chain, hchain, hstrand⟩ := h.strand
  have hmerged : chain.Perm (merged ++ (s.awaiting ++ (t.held ++ s.missing))) := by
    refine hchain.trans (((hheld.append_right _).append_left _).trans ?_)
    rw [List.append_assoc]
    exact List.perm_append_comm_assoc _ _ _
  obtain ⟨left, hleft, hjoined⟩ := hstrand.joins hjoins hmerged
  refine ⟨⟨left, ?_, hjoined⟩, ?_, ?_, ?_, hflushed.trans h.flushed⟩
  · rw [hmissing]
    apply hleft.trans
    rw [← List.append_assoc]
    exact hawaiting.symm.append_right _
  · exact fun x hx => h.opened x (hheld.mem_iff.2 (List.mem_append_right _ hx))
  · -- What the buffer left apart is not adjacent, because something lies between.
    intro x hx y hy hid
    by_contra hadjacent
    obtain ⟨z, hsub, hxz, hzy⟩ := hbetween x hx y hy hid (by simpa using hadjacent)
    have hall : s.held.Subperm chain := by
      apply List.Subperm.trans _ hchain.symm.subperm
      exact ((List.sublist_append_left _ _).trans (List.sublist_append_right _ _)).subperm
    exact hadjacent (hstrand.not_between (hsub.trans hall) hxz hzy)
  · rw [hdecided]
    exact h.decided

theorem Strung.step {s t : Share} (h : Strung p f s) (hseamless : Seamless p f)
    (hstep : s.Step p t) : Strung p f t := by
  cases hstep with
  | parse parses awaiting held waiting missing decided flushed =>
      exact h.parse hseamless parses awaiting held waiting missing decided flushed
  | join joins awaiting held between missing decided flushed =>
      exact h.join joins awaiting held between missing decided flushed
  | still awaiting held waiting missing decided flushed =>
      obtain ⟨chain, hchain, hstrand⟩ := h.strand
      refine ⟨⟨chain, ?_, hstrand⟩, ?_, ?_, ?_, flushed.trans h.flushed⟩
      · rw [missing]
        exact hchain.trans (awaiting.append (held.append_right _)).symm
      · exact fun c hc => h.opened c (held.mem_iff.1 hc)
      · exact fun c hc d hd => h.unjoined c (waiting.mem_iff.1 hc) d (waiting.mem_iff.1 hd)
      · rw [decided]
        exact h.decided
  | flush quiet buffered late awaiting held waiting missing decided flushed =>
      obtain ⟨chain, hchain, hstrand⟩ := h.strand
      rw [h.waiting_eq_nil quiet buffered late] at awaiting flushed buffered
      refine ⟨⟨chain, ?_, hstrand⟩, ?_, ?_, ?_, ?_⟩
      · rw [quiet, buffered] at hchain
        rw [missing, held, List.perm_nil.1 awaiting]
        exact hchain
      · simp [held]
      · simp [waiting]
      · rw [decided]
        exact h.decided
      · rw [h.flushed] at flushed
        exact List.perm_nil.1 flushed
  | submit missing awaiting held waiting decided flushed =>
      obtain ⟨chain, hchain, hstrand⟩ := h.strand
      refine ⟨⟨chain, ?_, hstrand⟩, ?_, ?_, ?_, flushed.trans h.flushed⟩
      · rw [missing] at hchain
        refine hchain.trans (List.Perm.trans ?_ (awaiting.append (held.append_right _)).symm)
        rw [← List.append_assoc, ← List.append_assoc]
        exact List.perm_middle
      · exact fun x hx => h.opened x (held.mem_iff.1 hx)
      · rw [waiting]
        exact h.unjoined
      · rw [decided]
        exact h.decided

end

theorem filter_pieces {files : List SplitFile} (h : (files.map SplitFile.name).Nodup)
    {f : SplitFile} (hf : f ∈ files) :
    (files.flatMap SplitFile.pieces).filter (Chunk.isOf f.name) = f.pieces := by
  obtain ⟨before, after, rfl⟩ := List.append_of_mem hf
  have hother {others : List SplitFile} (hne : ∀ g ∈ others, g.name ≠ f.name) :
      (others.flatMap SplitFile.pieces).filter (Chunk.isOf f.name) = [] := by
    rw [List.filter_eq_nil_iff]
    intro c hc
    obtain ⟨g, hg, hc⟩ := List.mem_flatMap.1 hc
    simp [Chunk.isOf, (SplitFile.within hc).1, hne g hg]
  rw [List.map_append, List.map_cons, List.nodup_append] at h
  obtain ⟨-, hnodup, hapart⟩ := h
  rw [List.nodup_cons] at hnodup
  rw [List.flatMap_append, List.flatMap_cons, List.filter_append, List.filter_append,
    hother fun g hg => hapart g.name (List.mem_map_of_mem hg) f.name (List.mem_cons_self ..),
    hother fun g hg heq => hnodup.1 (heq ▸ List.mem_map_of_mem hg),
    Chunk.filter_isOf_eq_self fun c hc => (SplitFile.within hc).1]
  simp

theorem filter_pieces_of_not_mem {files : List SplitFile} {name : String}
    (h : name ∉ files.map SplitFile.name) :
    (files.flatMap SplitFile.pieces).filter (Chunk.isOf name) = [] := by
  rw [List.filter_eq_nil_iff]
  intro c hc hname
  obtain ⟨f, hf, hc⟩ := List.mem_flatMap.1 hc
  rw [Chunk.isOf, (SplitFile.within hc).1, beq_iff_eq] at hname
  exact h (hname ▸ List.mem_map_of_mem hf)

/-- Chunks of several files, sorted by their files. -/
theorem flatMap_filter_perm {files : List SplitFile} (h : (files.map SplitFile.name).Nodup)
    {l : List Chunk} (hl : ∀ c ∈ l, c.file ∈ files.map SplitFile.name) :
    (files.flatMap fun f => l.filter (Chunk.isOf f.name)).Perm l := by
  induction files generalizing l with
  | nil =>
      obtain rfl : l = [] :=
        List.eq_nil_iff_forall_not_mem.2 fun c hc => by simpa using hl c hc
      exact .refl _
  | cons f files ih =>
      obtain ⟨hnew, hnodup⟩ := List.nodup_cons.1 h
      have hothers := ih hnodup (l := l.filter fun c => !c.isOf f.name) fun c hc => by
        obtain ⟨hc, hne⟩ := List.mem_filter.1 hc
        have hfile := hl c hc
        simp only [Chunk.isOf, Bool.not_eq_true', beq_eq_false_iff_ne] at hne
        rw [List.map_cons, List.mem_cons] at hfile
        exact hfile.resolve_left hne
      have hsame : (files.flatMap fun g => (l.filter fun c => !c.isOf f.name).filter
          (Chunk.isOf g.name)) = files.flatMap fun g => l.filter (Chunk.isOf g.name) := by
        refine List.flatMap_congr fun g hg => ?_
        rw [List.filter_filter]
        refine List.filter_congr fun c _ => ?_
        have hne : g.name ≠ f.name := fun heq => hnew (heq ▸ List.mem_map_of_mem hg)
        by_cases hc : c.file = g.name
        · simp [Chunk.isOf, hc, hne]
        · simp [Chunk.isOf, hc]
      rw [hsame] at hothers
      rw [List.flatMap_cons]
      exact (hothers.append_left _).trans (List.filter_append_perm _ l)

/-- What a run has made of one file. -/
structure Resolved (p : TokenTree) (records : List Fingerprint) (s : Share) : Prop where
  records : (s.decided.flatMap p.recordsOf).Perm records
  accepted : ∀ c ∈ s.decided, p.accepts c = true
  flushed : s.flushed = []

/-- The result is that of the whole files, and nobody is warned. -/
structure Reassembled (records : List Fingerprint) (j : Journal) (notices : List Notice)
    (found : List Fingerprint) : Prop where
  found : found.Perm records
  notices : notices = []
  leftover : j.chunksFrom .leftover = []

namespace Pool

section
variable {p : TokenTree} {files : List SplitFile} {queued : List Chunk} {j : Journal}
  {q : Pool Memory}

/-- A file that stayed whole is decided as it is. -/
theorem Concluded.resolved_of_entire (h : Concluded p files queued j q) {f : SplitFile}
    {records : List Fingerprint} (hparse : p.parseStrict f.name f.text 0 = .ok records)
    (hentire : Entire [Chunk.whole f.name f.text] (share p f.name [] j q)) :
    Resolved p records (share p f.name [] j q) := by
  obtain ⟨hrecords, -, haccepts⟩ : p.recordsOf (Chunk.whole f.name f.text) = records ∧
    p.warningOf? (Chunk.whole f.name f.text) = none ∧
      p.accepts (Chunk.whole f.name f.text) = true := TokenTree.recordsOf_of_ok hparse
  have hdecided := hentire.chunks
  have hawaiting : (share p f.name [] j q).awaiting = [] := by
    simp only [share, h.awaiting, List.filter_nil]
  have hmissing : (share p f.name [] j q).missing = [] := rfl
  rw [hawaiting, hmissing, List.nil_append, List.nil_append, List.perm_singleton] at hdecided
  refine ⟨?_, ?_, hentire.flushed⟩
  · rw [hdecided, List.flatMap_singleton, hrecords]
  · rw [hdecided]
    simpa using haccepts

/-- A file whose parts are all clean has been put together. -/
theorem Concluded.resolved_of_strung (h : Concluded p files queued j q)
    (hnames : (files.map SplitFile.name).Nodup) {f : SplitFile} (hf : f ∈ files)
    {records : List Fingerprint} (hparse : p.parseStrict f.name f.text 0 = .ok records)
    (hseamless : Seamless p f) (hstrung : Strung p f (share p f.name [] j q)) :
    Resolved p records (share p f.name [] j q) := by
  have hcount (i : Nat) : (share p f.name [] j q).decided.countP (Chunk.covers f.name i) =
      if Text.size ([] : Text) ≤ i ∧ i < Text.size f.text then 1 else 0 := by
    have hpieces := (countP_pieces_of_files hnames i).1 f hf
    rw [← h.count] at hpieces
    simp only [share, List.countP_filter, Text.size, Nat.zero_le, true_and]
    rw [← hpieces]
    refine List.countP_congr fun c _ => ?_
    simp only [Chunk.covers, Chunk.isOf, Bool.and_eq_true, decide_eq_true_eq, beq_iff_eq]
    tauto
  obtain ⟨r, hr, hfound⟩ := hseamless.records_perm (x := []) (w := f.text) rfl (.inl rfl)
    hstrung.decided hcount
  rw [show Text.lineBreaks [] = 0 from rfl, hparse, Except.ok.injEq] at hr
  subst hr
  exact ⟨hfound, fun c hc => hseamless.accepts (hstrung.decided c hc), hstrung.flushed⟩

/-- When every file has been resolved, the result is that of the whole files. -/
theorem Concluded.of_resolved (h : Concluded p files queued j q)
    (hnames : (files.map SplitFile.name).Nodup) {records : SplitFile → List Fingerprint}
    (hresolved : ∀ f ∈ files, Resolved p (records f) (share p f.name [] j q))
    (habsent : ∀ name ∉ files.map SplitFile.name, (share p name [] j q).flushed = []) :
    Reassembled (files.flatMap records) j q.notices q.dispatcher.found := by
  have hpart {c : Chunk} (hc : c ∈ j.decided p) : ∃ f ∈ files, c.file = f.name := by
    obtain ⟨f, hf, hname, -⟩ := h.conserved.good c (by simp [hc])
    exact ⟨f, hf, hname⟩
  constructor
  · have hsorted := flatMap_filter_perm hnames fun c (hc : c ∈ j.decided p) => by
      obtain ⟨f, hf, hname⟩ := hpart hc
      rw [hname]
      exact List.mem_map_of_mem hf
    refine h.found.trans ((hsorted.flatMap_right _).symm.trans ?_)
    rw [List.flatMap_assoc]
    exact List.Perm.flatMap_left _ fun f hf => (hresolved f hf).records
  · have hnone : (j.decided p).filterMap p.warningOf? = [] := by
      rw [List.filterMap_eq_nil_iff]
      intro c hc
      obtain ⟨f, hf, hname⟩ := hpart hc
      have haccepts := (hresolved f hf).accepted c
        (List.mem_filter.2 ⟨hc, by simp [Chunk.isOf, hname]⟩)
      simpa [TokenTree.accepts] using haccepts
    have hwarned := h.warned
    rw [hnone] at hwarned
    exact List.perm_nil.1 hwarned
  · have hflushed : ∀ name, (share p name [] j q).flushed = [] := by
      intro name
      by_cases hname : name ∈ files.map SplitFile.name
      · obtain ⟨f, hf, rfl⟩ := List.mem_map.1 hname
        exact (hresolved f hf).flushed
      · exact habsent name hname
    rw [List.eq_nil_iff_forall_not_mem]
    intro c hc
    have hmem : c ∈ (share p c.file [] j q).flushed :=
      List.mem_filter.2 ⟨hc, by simp [Chunk.isOf]⟩
    rw [hflushed] at hmem
    cases hmem

end

section
variable {p : TokenTree} {batch workers : Nat} {memory : Memory} {files : List SplitFile}
  {queued : List Chunk} {closed : Bool} {counter : JobCounter} {moves : List Move}
  {q : Pool Memory}
  (hrun : (prepared workers memory queued closed counter).start.replay? ⟨p.toParser, batch⟩
    moves = some q)
  (hhalt : q.halt = none)
  (hconcluded : Concluded p files queued ((prepared workers memory queued closed counter).journal
    ⟨p.toParser, batch⟩ moves) q)
  (htimely : Timely ((prepared workers memory queued closed counter).journal
    ⟨p.toParser, batch⟩ moves).entered)
include hrun hhalt hconcluded htimely

theorem entire_of_replay {name : String} {ws : List Chunk}
    (hpieces : (files.flatMap SplitFile.pieces).filter (Chunk.isOf name) = ws)
    (hws : ∀ c ∈ ws, c.isClosed = true ∧ p.accepts c = true) :
    Entire ws (share p name [] ((prepared workers memory queued closed counter).journal
      ⟨p.toParser, batch⟩ moves) q) := by
  refine share_of_replay (Entire ws) name (fun s hs hheld _ hdecided hflushed => ?_)
    (fun s t hs hstep => hs.step hws hstep) hrun hhalt (fun c hc => ?_) hconcluded.outside
    htimely hconcluded.lost
  · refine ⟨?_, hheld, hflushed⟩
    rw [hdecided, List.append_nil, ← hpieces]
    exact hs
  · obtain ⟨f, -, hc⟩ := List.mem_flatMap.1 hc
    exact (SplitFile.within hc).2.2

theorem strung_of_replay (hnames : (files.map SplitFile.name).Nodup) {f : SplitFile}
    (hf : f ∈ files) (hitems : ∀ i ∈ f.items, f.boundary p i) (hseamless : Seamless p f)
    {ps : List Piece} (hlabel : f.pieces = Splitter.label f.name ps)
    (hcarved : Carved f.items (Text.size f.text) 0 ps) :
    Strung p f (share p f.name [] ((prepared workers memory queued closed counter).journal
      ⟨p.toParser, batch⟩ moves) q) := by
  have hstrand : Strand f (f.boundary p) f.pieces :=
    SplitFile.strand_pieces hlabel hcarved (.inl rfl) Seamless.boundary_stop hitems
  refine share_of_replay (Strung p f) f.name (fun s hs hheld hwaiting hdecided hflushed => ?_)
    (fun s t hs hstep => hs.step hseamless hstep) hrun hhalt (fun c hc => ?_) hconcluded.outside
    htimely hconcluded.lost
  · rw [filter_pieces hnames hf] at hs
    refine ⟨⟨f.pieces, ?_, hstrand⟩, ?_, ?_, ?_, hflushed⟩
    · rw [hheld]
      exact hs.symm
    · simp [hheld]
    · simp [hwaiting]
    · simp [hdecided]
  · obtain ⟨g, -, hc⟩ := List.mem_flatMap.1 hc
    exact (SplitFile.within hc).2.2

/-- A run in which no chunk is flushed too early returns what the parses of the whole
files return. -/
theorem reassembled_of_replay (hnames : (files.map SplitFile.name).Nodup)
    {records : SplitFile → List Fingerprint}
    (hparse : ∀ f ∈ files, p.parseStrict f.name f.text 0 = .ok (records f))
    (hitems : ∀ f ∈ files, ∀ i ∈ f.items, f.boundary p i)
    (hseamless : ∀ f ∈ files, f.pieces = [Chunk.whole f.name f.text] ∨ Seamless p f) :
    Reassembled (files.flatMap records) ((prepared workers memory queued closed counter).journal
      ⟨p.toParser, batch⟩ moves) q.notices q.dispatcher.found := by
  refine hconcluded.of_resolved hnames (fun f hf => ?_) fun name hname =>
    (entire_of_replay hrun hhalt hconcluded htimely (filter_pieces_of_not_mem hname)
      (by simp)).flushed
  have hwhole (h : f.pieces = [Chunk.whole f.name f.text]) :=
    hconcluded.resolved_of_entire (hparse f hf) (entire_of_replay hrun hhalt hconcluded htimely
      ((filter_pieces hnames hf).trans h) (by
        have hparsed : p.accepts (Chunk.whole f.name f.text) = true :=
          TokenTree.accepts_iff.2 ⟨records f, hparse f hf⟩
        simpa using ⟨rfl, hparsed⟩))
  rcases hseamless f hf with h | hclean
  · exact hwhole h
  · rcases f.cut.whole_or_carved with h | ⟨ps, hlabel, -, hcarved⟩
    · exact hwhole h
    · exact hconcluded.resolved_of_strung hnames hf (hparse f hf) hclean
        (strung_of_replay hrun hhalt hconcluded htimely hnames hf (hitems f hf) hclean hlabel
          hcarved)

end

theorem parseStrict_of_parseFile {p : TokenTree} {file : String} {text : Text} {clear : Bool}
    {memory : Memory} {found : List Fingerprint}
    (h : (p.toParser.parseFile file text clear memory).value = .ok found) :
    p.parseStrict file text 0 = .ok found := by
  simp only [TokenTree.toParser] at h
  cases hparse : p.parseStrict file text 0 with
  | error cause => simp [hparse, Except.mapError] at h
  | ok records => simpa [hparse, Except.mapError] using h

/-- Chunks that are all queued before the start cannot be flushed too early. -/
theorem timely_of_queued {j : Journal} (h : j.chunksFrom .submitted = []) : Timely j.entered := by
  refine List.pairwise_of_forall_mem_list fun a _ b hb _ hsubmitted => ?_
  have hmem : b.2 ∈ j.chunksFrom .submitted :=
    List.mem_map_of_mem (List.mem_filter.2 ⟨hb, by simpa using hsubmitted⟩)
  rw [h] at hmem
  cases hmem

theorem accepted_asks_eq_nil {moves : List Move} (h : ∀ c, Move.ask (.submit c) ∉ moves) :
    Request.accepted (asks moves) = [] := by
  cases hasks : asks moves with
  | nil => rfl
  | cons request more =>
      cases request with
      | close => rfl
      | submit c =>
          have hmem : Request.submit c ∈ asks moves := by simp [hasks]
          obtain ⟨move, hmove, heq⟩ := List.mem_filterMap.1 hmem
          cases move <;> simp at heq
          subst heq
          exact absurd hmove (h c)

/-- Files that are queued before the start, whole or in pieces, are put together again.
In whatever order the moves are made, a run that ends well returns what the parses of
the whole files return, without a warning and without a leftover. -/
theorem reassembled {p : TokenTree} {batch workers : Nat} {memory : Memory}
    {files : List SplitFile} {queued : List Chunk} {closed : Bool} {counter : JobCounter}
    {moves : List Move} {q : Pool Memory} {found : List Fingerprint}
    {records : SplitFile → List Fingerprint}
    (hnames : (files.map SplitFile.name).Nodup)
    (hparse : ∀ f ∈ files,
      (p.toParser.parseFile f.name f.text false memory).value = .ok (records f))
    (hitems : ∀ f ∈ files, ∀ i ∈ f.items, f.boundary p i)
    (hseamless : ∀ f ∈ files, f.pieces = [Chunk.whole f.name f.text] ∨ Seamless p f)
    (hqueued : queued.Perm (files.flatMap SplitFile.pieces))
    (hsubmit : ∀ c, Move.ask (.submit c) ∉ moves)
    (hrun : (prepared workers memory queued closed counter).start.replay? ⟨p.toParser, batch⟩
      moves = some q)
    (hok : q.outcome? = some (.ok found)) :
    Reassembled (files.flatMap records) ((prepared workers memory queued closed counter).journal
      ⟨p.toParser, batch⟩ moves) q.notices found := by
  obtain ⟨hhalt, hdone, rfl⟩ := outcome_eq_ok_iff.1 hok
  have hnone : (if closed then [] else Request.accepted (asks moves)) = [] := by
    rw [accepted_asks_eq_nil hsubmit, ite_self]
  have hsubmitted := submitted_of_replay hrun hhalt hdone
  rw [hnone] at hsubmitted
  exact reassembled_of_replay hrun hhalt
    (concluded_of_replay hnames (by rwa [hnone, List.append_nil]) hrun hhalt hdone)
    (timely_of_queued hsubmitted) hnames
    (fun f hf => parseStrict_of_parseFile (hparse f hf)) hitems hseamless

theorem eq_of_boundary_twoFunctions {u v : Text} (hwhole : u ++ v = twoFunctions.text)
    (h : twoFunctions.boundary itemizing (Text.size u)) :
    u = [] ∨ u = ['a', '\n'] ∨ u = ['a', '\n', 'b', 'c'] := by
  have hsize : Text.size u = 0 ∨ Text.size u = 2 ∨ Text.size u = 4 := by
    rcases h with hzero | hstop | ⟨items, hitems, hi⟩
    · exact .inl hzero
    · exact .inr (.inr hstop)
    · obtain rfl : [0, 2] = items := Option.some.inj hitems
      rcases List.mem_cons.1 hi with hzero | hone
      · exact .inl hzero
      · exact .inr (.inl (List.mem_singleton.1 hone))
  rcases hsize with hzero | htwo | hfour
  · exact .inl (Text.append_inj (c := []) (d := twoFunctions.text) hwhole hzero).1
  · exact .inr (.inl (Text.append_inj (c := ['a', '\n']) (d := ['b', 'c']) hwhole htwo).1)
  · exact .inr (.inr (Text.append_inj (c := ['a', '\n', 'b', 'c']) (d := [])
      (hwhole.trans (List.append_nil _).symm) hfour).1)

theorem holdBackPoint_itemizing (text : Text) :
    (itemizing.frontEnd text).holdBackPoint = 0 ∨
      (∃ more, text = 'a' :: '\n' :: 'b' :: more) ∧
        (itemizing.frontEnd text).holdBackPoint = 2 := by
  unfold itemizing
  dsimp only
  split
  · exact .inr ⟨⟨_, rfl⟩, rfl⟩
  all_goals exact .inl rfl

/-- Each of the two functions has the same record in every slice, further down. -/
theorem seamless_twoFunctions : Seamless itemizing twoFunctions where
  concat x y z w hwhole hx hy hz := by
    have hfront := eq_of_boundary_twoFunctions hwhole hx
    have hmiddle := eq_of_boundary_twoFunctions (v := z ++ w) (by rwa [List.append_assoc]) hy
    have hback := eq_of_boundary_twoFunctions (v := w)
      (by rwa [List.append_assoc, List.append_assoc]) hz
    rcases hfront with rfl | rfl | rfl
    · rcases hmiddle with rfl | rfl | rfl
      · rcases hback with rfl | rfl | rfl
        · exact ⟨[], [], rfl, rfl, rfl⟩
        · exact ⟨[], _, rfl, rfl, rfl⟩
        · exact ⟨[], _, rfl, rfl, rfl⟩
      · have hback : z = [] ∨ z = ['b', 'c'] := by simpa using hback
        rcases hback with rfl | rfl
        · exact ⟨_, [], rfl, rfl, rfl⟩
        · exact ⟨_, _, rfl, rfl, rfl⟩
      · obtain rfl : z = [] := by simpa using hback
        exact ⟨_, [], rfl, rfl, rfl⟩
    · have hmiddle : y = [] ∨ y = ['b', 'c'] := by simpa using hmiddle
      rcases hmiddle with rfl | rfl
      · have hback : z = [] ∨ z = ['b', 'c'] := by simpa using hback
        rcases hback with rfl | rfl
        · exact ⟨[], [], rfl, rfl, rfl⟩
        · exact ⟨[], _, rfl, rfl, rfl⟩
      · obtain rfl : z = [] := by simpa using hback
        exact ⟨_, [], rfl, rfl, rfl⟩
    · obtain rfl : y = [] := by simpa using hmiddle
      obtain rfl : z = [] := by simpa using hback
      exact ⟨[], [], rfl, rfl, rfl⟩
  hold x y w hwhole _ hx := by
    rcases holdBackPoint_itemizing y with hzero | ⟨⟨more, rfl⟩, htwo⟩
    · exact .inl hzero
    · rw [htwo]
      rcases eq_of_boundary_twoFunctions hwhole hx with rfl | rfl | rfl
      · exact .inr (.inr (.inr ⟨[0, 2], rfl, by simp [Text.size]⟩))
      · cases hwhole
      · cases hwhole

/-- Two workers put the second function of the file together. -/
theorem reassembled_for_two_functions :
    let p := prepared 2 {} twoFunctions.pieces true
    let crew : Crew Memory := ⟨itemizing.toParser, 0⟩
    let records := itemizing.recordsOf (Chunk.whole twoFunctions.name twoFunctions.text)
    Seamless itemizing twoFunctions ∧ records.map Fingerprint.lineStart = [1, 2] ∧
      ∃ q found, p.start.replay? crew twoFunctionsMoves = some q ∧
        q.outcome? = some (.ok found) ∧
        Reassembled records (p.journal crew twoFunctionsMoves) q.notices found := by
  intro p crew records
  obtain ⟨q, found, hq, hok, -⟩ := exists_run_of_twoFunctions
  have h : Reassembled ([twoFunctions].flatMap fun _ => records)
      (p.journal crew twoFunctionsMoves) q.notices found :=
    reassembled (List.nodup_singleton _)
      (fun f hf => by
        obtain rfl := List.mem_singleton.1 hf
        rfl)
      (by simp [twoFunctions]) (by simpa using .inr seamless_twoFunctions) (by simp)
      (by simp [twoFunctionsMoves]) hq hok
  exact ⟨seamless_twoFunctions, rfl, q, found, hq, hok, by simpa using h⟩

end Pool

end ClonePrint
