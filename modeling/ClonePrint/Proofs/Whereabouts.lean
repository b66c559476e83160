import ClonePrint.Proofs.Buffering

/-!
# Where the chunks in the buffer go

Whatever is put into the buffer of remainders and whenever it is emptied, no chunk gets lost
and none is given back twice: a chunk still waits, or it is a part of exactly one chunk that an
insertion gave back, or it was drained. If the chunks of a file keep apart and their ids are in
the order of their places, no two neighbours wait at the same time.
-/
namespace ClonePrint

namespace Chunk

/-- One chunk is the union of two or more neighbours in their order. -/
structure Unites (group : List Chunk) (e : Chunk) : Prop where
  several : 2 ≤ group.length
  file : ∀ c ∈ group, c.file = e.file
  adjacent : group.IsChain fun c d => c.precedes d = true
  text : e.text = (group.map Chunk.text).flatten
  id : ∀ c ∈ group, e.id ≤ c.id
  first : ∃ c, group.head? = some c ∧ e.id = c.id ∧ e.byteOffset = c.byteOffset ∧
    e.lineOffset = c.lineOffset ∧ e.openStart = c.openStart
  last : ∃ c, group.getLast? = some c ∧ e.openEnd = c.openEnd
  provisional : e.provisional = group.any Chunk.provisional

theorem foldl_concat_eq (c : Chunk) (more : List Chunk) :
    more.foldl concat c =
      { c with
        text := c.text ++ (more.map Chunk.text).flatten
        openEnd := (more.getLastD c).openEnd
        provisional := c.provisional || more.any Chunk.provisional } := by
  induction more generalizing c with
  | nil => simp
  | cons d more ih =>
      have hlast : (more.getLastD (c.concat d)).openEnd = ((d :: more).getLastD c).openEnd := by
        rw [List.getLastD_cons]
        cases more with
        | nil => rfl
        | cons e more => rw [List.getLastD_cons, List.getLastD_cons]
      rw [List.foldl_cons, ih, hlast, List.map_cons, List.flatten_cons, ← List.append_assoc,
        List.any_cons, ← Bool.or_assoc]
      rfl

theorem file_of_isChain {c : Chunk} {more : List Chunk}
    (h : (c :: more).IsChain fun c d => c.precedes d = true) : ∀ d ∈ more, d.file = c.file := by
  induction more generalizing c with
  | nil => exact fun d hd => absurd hd List.not_mem_nil
  | cons d more ih =>
      obtain ⟨hadjacent, hmore⟩ := List.isChain_cons_cons.1 h
      have hfile := (precedes_iff.1 hadjacent).1
      intro x hx
      rcases List.mem_cons.1 hx with rfl | hx
      · exact hfile.symm
      · exact (ih hmore x hx).trans hfile.symm

theorem unites_foldl_concat {c : Chunk} {more : List Chunk} (hmore : more ≠ [])
    (hchain : (c :: more).IsChain fun c d => c.precedes d = true)
    (hids : ∀ d ∈ more, c.id ≤ d.id) : Unites (c :: more) (more.foldl concat c) := by
  have hpos := List.length_pos_of_ne_nil hmore
  rw [foldl_concat_eq]
  constructor
  · rw [List.length_cons]
    omega
  · intro d hd
    rcases List.mem_cons.1 hd with rfl | hd
    · rfl
    · exact file_of_isChain hchain d hd
  · exact hchain
  · rfl
  · intro d hd
    rcases List.mem_cons.1 hd with rfl | hd
    · exact Nat.le_refl _
    · exact hids d hd
  · exact ⟨c, rfl, rfl, rfl, rfl, rfl⟩
  · exact ⟨more.getLastD c, by rw [List.getLast?_cons, List.getLastD_eq_getLast?], rfl⟩
  · rfl

/-- One chunk lies in front of another, and their ids are in this order. -/
def Leads (c d : Chunk) : Prop := c.endOffset ≤ d.byteOffset ∧ c.id < d.id

instance (c d : Chunk) : Decidable (c.Leads d) := inferInstanceAs (Decidable (_ ∧ _))

/-- Neither chunk ends where the other one of its file starts. -/
def Apart (c d : Chunk) : Prop := c.precedes d = false ∧ d.precedes c = false

theorem Apart.symm {c d : Chunk} (h : c.Apart d) : d.Apart c := ⟨h.2, h.1⟩

theorem apart_of_file_ne {c d : Chunk} (h : c.file ≠ d.file) : c.Apart d := by
  simp [Apart, precedes, h, h.symm]

end Chunk

namespace Remainders

/-- The chunks of each file are not empty, keep apart, and have ids in the order of their
places. -/
structure Orderly (cs : List Chunk) : Prop where
  nonempty : ∀ c ∈ cs, c.byteOffset < c.endOffset
  ordered : cs.Pairwise fun c d => c.file = d.file → c.Leads d ∨ d.Leads c

instance (cs : List Chunk) : Decidable (Orderly cs) :=
  decidable_of_iff
    ((∀ c ∈ cs, c.byteOffset < c.endOffset) ∧
      cs.Pairwise fun c d => c.file = d.file → c.Leads d ∨ d.Leads c)
    ⟨fun h => ⟨h.1, h.2⟩, fun h => ⟨h.1, h.2⟩⟩

theorem Orderly.of_subperm {a b : List Chunk} (h : Orderly b) (hsub : a.Subperm b) : Orderly a := by
  have hsymm {c d : Chunk} (hcd : c.file = d.file → c.Leads d ∨ d.Leads c)
      (hfile : d.file = c.file) : d.Leads c ∨ c.Leads d := (hcd hfile.symm).symm
  obtain ⟨l, hperm, hsublist⟩ := hsub
  exact ⟨fun c hc => h.nonempty c (hsublist.subset (hperm.mem_iff.2 hc)),
    (hperm.pairwise_iff hsymm).1 (h.ordered.sublist hsublist)⟩

/-- No two waiting chunks are neighbours. -/
def Unjoined (r : Remainders) : Prop := r.chunks.Pairwise Chunk.Apart

section
variable {c : Chunk} {r r' : Remainders} {joined merged alone : List Chunk}

theorem subperm_chunks (h : r.Tidy) (c : Chunk) :
    (c :: r.pending c.file).Subperm (c :: r.chunks) := by
  have hperm := (chunks_perm h c.file).cons c
  have hfront : (c :: r.pending c.file).Sublist (c :: (r.pending c.file ++ r.others c.file)) :=
    (List.sublist_append_left ..).cons_cons c
  exact hfront.subperm.trans hperm.symm.subperm

/-- A chunk that stays alone in front of its neighbour would have a third one between them. -/
theorem Inserts.apart (h : Inserts c r joined r' merged alone)
    (horderly : Orderly (c :: r.pending c.file))
    (hfile : ∀ x ∈ c :: r.pending c.file, x.file = c.file) {x y : Chunk} (hx : x ∈ alone)
    (hy : y ∈ alone) (hleads : x.Leads y) : x.Apart y := by
  have hmem {z : Chunk} (hz : z ∈ alone) : z ∈ c :: r.pending c.file :=
    h.divided.mem_iff.2 (List.mem_append_right _ hz)
  obtain ⟨hbefore, hid⟩ := hleads
  have hpos := horderly.nonempty x (hmem hx)
  constructor
  · by_contra hadjacent
    rw [Bool.not_eq_false] at hadjacent
    have hnext := (Chunk.precedes_iff.1 hadjacent).2
    obtain ⟨z, hsub, hxz, hzy⟩ := h.between x hx y (hmem hy) hid hadjacent
    obtain ⟨hthree, hpairs⟩ := horderly.of_subperm hsub
    have hz := hthree z (by simp)
    have hsame {w : Chunk} (hw : w ∈ [x, z, y]) : w.file = c.file := hfile w (hsub.subset hw)
    obtain ⟨hfirst, hrest⟩ := List.pairwise_cons.1 hpairs
    have hxz' := hfirst z (by simp) ((hsame (by simp)).trans (hsame (by simp)).symm)
    have hzy' := (List.pairwise_cons.1 hrest).1 y (by simp)
      ((hsame (by simp)).trans (hsame (by simp)).symm)
    unfold Chunk.Leads at hxz' hzy'
    omega
  · by_contra hadjacent
    rw [Bool.not_eq_false] at hadjacent
    have hnext := (Chunk.precedes_iff.1 hadjacent).2
    have hend : y.byteOffset ≤ y.endOffset := Nat.le_add_right ..
    omega

theorem Inserts.unjoined (h : Inserts c r joined r' merged alone) (htidy : r.Tidy)
    (horderly : Orderly (c :: r.chunks)) (hunjoined : r.Unjoined) : r'.Unjoined := by
  have hfile : ∀ x ∈ c :: r.pending c.file, x.file = c.file := by
    intro x hx
    rcases List.mem_cons.1 hx with rfl | hx
    · rfl
    · exact file_of_mem_pending htidy hx
  have hwaiting := horderly.of_subperm (subperm_chunks htidy c)
  have hsub : alone.Subperm (c :: r.pending c.file) :=
    (List.sublist_append_right merged alone).subperm.trans h.divided.symm.subperm
  have halone : alone.Pairwise Chunk.Apart := by
    refine (hwaiting.of_subperm hsub).ordered.imp_of_mem fun {x y} hx hy hordered => ?_
    have hsame := (hfile x (hsub.subset hx)).trans (hfile y (hsub.subset hy)).symm
    rcases hordered hsame with hleads | hleads
    · exact h.apart hwaiting hfile hx hy hleads
    · exact (h.apart hwaiting hfile hy hx hleads).symm
  have hothers : (r.others c.file).Pairwise Chunk.Apart :=
    (List.pairwise_append.1
      (((chunks_perm htidy c.file).pairwise_iff Chunk.Apart.symm).1 hunjoined)).2.1
  refine (h.chunks.pairwise_iff Chunk.Apart.symm).2 (List.pairwise_append.2
    ⟨halone, hothers, fun x hx y hy => Chunk.apart_of_file_ne fun hsame => ?_⟩)
  exact file_ne_of_mem_others htidy hy (hsame.symm.trans (hfile x (hsub.subset hx)))

end

/-- What can be done to a buffer. -/
inductive Deed where
  | insert (c : Chunk)
  | drain
deriving Repr, DecidableEq

def Deed.inserted : Deed → List Chunk
  | insert c => [c]
  | drain => []

/-- What a deed gives back for a group of chunks that wait no longer. -/
def Deed.Yields : Deed → List Chunk → Chunk → Prop
  | insert _, group, e => Chunk.Unites group e
  | drain, group, e => ∃ c, group = [c] ∧ e = c.settled

/-- The answer of the buffer and what it holds then. -/
def perform (r : Remainders) : Deed → Except Error (List Chunk × Remainders)
  | .insert c => r.insert c
  | .drain => .ok (r.leftovers, {})

/-- One deed and what came of it. -/
structure Turn where
  before : Remainders
  deed : Deed
  answer : List Chunk
  after : Remainders
deriving Repr, DecidableEq

/-- Deeds done one after the other. -/
def history (r : Remainders) : List Deed → Except Error (List Turn)
  | [] => .ok []
  | deed :: more =>
      (r.perform deed).bind fun (answer, after) =>
        (after.history more).map (⟨r, deed, answer, after⟩ :: ·)

theorem history_cons_eq_ok {r : Remainders} {deed : Deed} {more : List Deed} {turns : List Turn} :
    r.history (deed :: more) = .ok turns ↔
      ∃ answer after rest, r.perform deed = .ok (answer, after) ∧ after.history more = .ok rest ∧
        turns = ⟨r, deed, answer, after⟩ :: rest := by
  rw [history]
  cases hperform : r.perform deed with
  | error cause => simp [Except.bind]
  | ok result =>
      obtain ⟨answer, after⟩ := result
      cases hrest : after.history more with
      | error cause => simp [Except.bind, Except.map, hrest]
      | ok rest => simp [Except.bind, Except.map, hrest, eq_comm]

/-- What every deed preserves holds at any time. -/
theorem history_induction (keeps : Remainders → Prop) (good : Turn → Prop)
    (hstep : ∀ turn : Turn, keeps turn.before →
      turn.before.perform turn.deed = .ok (turn.answer, turn.after) → good turn → keeps turn.after)
    {r : Remainders} (hr : keeps r) {deeds : List Deed} {turns : List Turn}
    (h : r.history deeds = .ok turns) (hgood : ∀ turn ∈ turns, good turn) :
    ∀ turn ∈ turns, keeps turn.after := by
  induction deeds generalizing r turns with
  | nil =>
      obtain rfl := Except.ok.inj h
      exact fun turn hturn => absurd hturn List.not_mem_nil
  | cons deed more ih =>
      obtain ⟨answer, after, rest, hperform, hrest, rfl⟩ := history_cons_eq_ok.1 h
      have hafter := hstep ⟨r, deed, answer, after⟩ hr hperform (hgood _ (List.mem_cons_self ..))
      intro turn hturn
      rcases List.mem_cons.1 hturn with rfl | hturn
      · exact hafter
      · exact ih hafter hrest (fun t ht => hgood t (List.mem_cons_of_mem _ ht)) turn hturn

theorem tidy_perform {r after : Remainders} {deed : Deed} {answer : List Chunk} (h : r.Tidy)
    (hperform : r.perform deed = .ok (answer, after)) : after.Tidy := by
  cases deed with
  | insert c =>
      obtain ⟨merged, alone, hinserts⟩ := exists_inserts h hperform
      exact hinserts.tidy
  | drain =>
      obtain ⟨-, rfl⟩ := Prod.mk.inj (Except.ok.inj hperform)
      exact ⟨List.nodup_nil, fun entry hentry => absurd hentry List.not_mem_nil⟩

theorem stocked_perform {r after : Remainders} {deed : Deed} {answer : List Chunk} (h : r.Stocked)
    (hperform : r.perform deed = .ok (answer, after)) : after.Stocked := by
  cases deed with
  | insert c => exact h.insert hperform
  | drain =>
      obtain ⟨-, rfl⟩ := Prod.mk.inj (Except.ok.inj hperform)
      exact fun entry hentry => absurd hentry List.not_mem_nil

theorem Stocked.isEmpty_iff {r : Remainders} (h : r.Stocked) : r.isEmpty = true ↔ r.size = 0 := by
  unfold isEmpty size
  cases hfiles : r.files with
  | nil => exact iff_of_true rfl rfl
  | cons entry files =>
      have hentry := List.length_pos_of_ne_nil (h entry (by simp [hfiles]))
      rw [List.flatMap_cons, List.length_append]
      exact iff_of_false (by simp) (by omega)

theorem forall₂_unites_of_mapM {groups joined : List (List Chunk)}
    (hgroups : ∀ g ∈ groups, ∃ e, joinRun g = .ok [e] ∧ Chunk.Unites g e)
    (h : groups.mapM joinRun = .ok joined) : List.Forall₂ Chunk.Unites groups joined.flatten := by
  induction groups generalizing joined with
  | nil =>
      rw [List.mapM_nil] at h
      rw [← Except.ok.inj h]
      exact .nil
  | cons g groups ih =>
      obtain ⟨e, he, hunites⟩ := hgroups g (List.mem_cons_self ..)
      rw [List.mapM_cons, he] at h
      cases hmore : groups.mapM joinRun with
      | error cause => simp [hmore, bind, Except.bind] at h
      | ok more =>
          simp only [hmore, bind, Except.bind, pure, Except.pure, Except.ok.injEq] at h
          rw [← h]
          exact .cons hunites (ih (fun x hx => hgroups x (List.mem_cons_of_mem g hx)) hmore)

/-- A chunk that is added makes some runs of neighbours leave the buffer. -/
theorem exists_unites_of_insert {r r' : Remainders} {c : Chunk} {joined : List Chunk} (h : r.Tidy)
    (hi : r.insert c = .ok (joined, r')) :
    ∃ groups, List.Forall₂ Chunk.Unites groups joined ∧
      (r.chunks ++ [c]).Perm (r'.chunks ++ groups.flatten) := by
  rw [insert_eq] at hi
  have hrun : ∀ g ∈ (runs ((r.pending c.file ++ [c]).mergeSort inOrder)).filter (2 ≤ ·.length),
      ∃ e, joinRun g = .ok [e] ∧ Chunk.Unites g e := by
    intro g hg
    obtain ⟨hg, hlong⟩ := List.mem_filter.1 hg
    have hchain := isChain_of_mem_runs hg
    have hsorted := pairwise_of_mem_runs hg
    match g, hlong with
    | d :: e :: more, _ =>
        exact ⟨_, joinRun_eq hchain hsorted, Chunk.unites_foldl_concat (List.cons_ne_nil e more)
          hchain fun x hx => id_le_of_inOrder ((List.pairwise_cons.1 hsorted).1 x hx)⟩
  have hflat : (runs ((r.pending c.file ++ [c]).mergeSort inOrder)).flatten.Perm
      (r.pending c.file ++ [c]) := by
    rw [flatten_runs]
    exact List.mergeSort_perm ..
  generalize runs ((r.pending c.file ++ [c]).mergeSort inOrder) = groups at hi hrun hflat
  cases hjoin : (groups.filter (2 ≤ ·.length)).mapM joinRun with
  | error cause => simp [hjoin, Except.map] at hi
  | ok parts =>
      simp only [hjoin, Except.map, Except.ok.injEq, Prod.mk.injEq] at hi
      obtain ⟨rfl, rfl⟩ := hi
      refine ⟨_, forall₂_unites_of_mapM hrun hjoin, List.perm_iff_count.2 fun x => ?_⟩
      have hbefore := (chunks_perm h c.file).count_eq x
      have hafter := (chunks_setPending c.file (groups.filter (·.length < 2)).flatten r).count_eq x
      have hdivided := (hflat.symm.trans (flatten_filter_perm groups)).count_eq x
      simp only [List.count_append] at hbefore hafter hdivided ⊢
      omega

theorem leftovers_eq (r : Remainders) :
    r.leftovers = (r.chunks.mergeSort byFile).map Chunk.settled := by
  have hsame : ∀ c ∈ r.chunks, ∀ d ∈ r.chunks, byFile c d = byFile c.settled d.settled :=
    fun c _ d _ => rfl
  rw [List.map_mergeSort hsame]
  rfl

theorem exists_perform {r : Remainders} (h : r.Tidy) (deed : Deed) :
    ∃ answer after groups, r.perform deed = .ok (answer, after) ∧
      List.Forall₂ deed.Yields groups answer ∧
      (r.chunks ++ deed.inserted).Perm (after.chunks ++ groups.flatten) := by
  cases deed with
  | insert c =>
      obtain ⟨joined, r', hi⟩ := exists_insert_eq_ok c r
      obtain ⟨groups, hyields, hperm⟩ := exists_unites_of_insert h hi
      exact ⟨joined, r', groups, hi, hyields, hperm⟩
  | drain =>
      refine ⟨r.leftovers, {}, (r.chunks.mergeSort byFile).map ([·]), rfl, ?_, ?_⟩
      · rw [leftovers_eq, List.forall₂_map_left_iff, List.forall₂_map_right_iff,
          List.forall₂_same]
        exact fun c _ => ⟨c, rfl, rfl⟩
      · rw [Deed.inserted, List.append_nil, ← List.flatMap_def, List.flatMap_singleton']
        exact (List.mergeSort_perm ..).symm

/-- Where every inserted chunk is at any time: for each turn, the groups of chunks that wait no
longer since then. -/
structure Accounts (start : List Chunk) (turns : List Turn) (left : List (List (List Chunk))) :
    Prop where
  yields : List.Forall₂
    (fun turn groups => List.Forall₂ turn.deed.Yields groups turn.answer) turns left
  kept : ∀ k (h : k < turns.length),
    (start ++ (turns.take (k + 1)).flatMap fun turn => turn.deed.inserted).Perm
      (turns[k].after.chunks ++ (left.take (k + 1)).flatten.flatten)

theorem Accounts.cons {start : List Chunk} {turn : Turn} {turns : List Turn}
    {groups : List (List Chunk)} {left : List (List (List Chunk))}
    (h : Accounts turn.after.chunks turns left)
    (hyields : List.Forall₂ turn.deed.Yields groups turn.answer)
    (hperm : (start ++ turn.deed.inserted).Perm (turn.after.chunks ++ groups.flatten)) :
    Accounts start (turn :: turns) (groups :: left) := by
  constructor
  · exact .cons hyields h.yields
  · intro k hk
    cases k with
    | zero => simpa using hperm
    | succ k =>
        have hlater := h.kept k (Nat.lt_of_succ_lt_succ hk)
        rw [List.perm_iff_count] at hperm hlater ⊢
        intro x
        have hnow := hperm x
        have hthen := hlater x
        simp only [List.take_succ_cons, List.flatMap_cons, List.flatten_cons, List.flatten_append,
          List.getElem_cons_succ, List.count_append] at hnow hthen ⊢
        omega

theorem exists_history {r : Remainders} (h : r.Tidy) (deeds : List Deed) :
    ∃ turns left, r.history deeds = .ok turns ∧ turns.map Turn.deed = deeds ∧
      Accounts r.chunks turns left := by
  induction deeds generalizing r with
  | nil => exact ⟨[], [], rfl, rfl, .nil, fun k hk => absurd hk (Nat.not_lt_zero k)⟩
  | cons deed more ih =>
      obtain ⟨answer, after, groups, hperform, hyields, hperm⟩ := exists_perform h deed
      obtain ⟨turns, left, hturns, hdeeds, haccounts⟩ := ih (tidy_perform h hperform)
      exact ⟨⟨r, deed, answer, after⟩ :: turns, groups :: left,
        history_cons_eq_ok.2 ⟨answer, after, turns, hperform, hturns, rfl⟩,
        by rw [List.map_cons, hdeeds], haccounts.cons hyields hperm⟩

/-- The chunk that is added, if any, is in order with those that wait. -/
def Turn.Orderly (turn : Turn) : Prop :=
  match turn.deed with
  | .insert c => Remainders.Orderly (c :: turn.before.chunks)
  | .drain => True

instance (turn : Turn) : Decidable turn.Orderly :=
  match turn with
  | ⟨before, .insert c, _, _⟩ =>
      inferInstanceAs (Decidable (Remainders.Orderly (c :: before.chunks)))
  | ⟨_, .drain, _, _⟩ => .isTrue trivial

theorem tidy_empty : ({} : Remainders).Tidy :=
  ⟨List.nodup_nil, fun _ hentry => absurd hentry List.not_mem_nil⟩

theorem unjoined_of_history {deeds : List Deed} {turns : List Turn}
    (h : ({} : Remainders).history deeds = .ok turns) (horderly : ∀ turn ∈ turns, turn.Orderly) :
    ∀ turn ∈ turns, turn.after.Unjoined := by
  have hkeeps : ∀ turn ∈ turns, turn.after.Tidy ∧ turn.after.Unjoined := by
    refine history_induction (fun r => r.Tidy ∧ r.Unjoined) Turn.Orderly ?_ ⟨tidy_empty, .nil⟩ h
      horderly
    rintro ⟨before, deed, answer, after⟩ ⟨htidy, hunjoined⟩ hperform hturn
    refine ⟨tidy_perform htidy hperform, ?_⟩
    cases deed with
    | insert c =>
        obtain ⟨merged, alone, hinserts⟩ := exists_inserts htidy hperform
        exact hinserts.unjoined htidy hturn hunjoined
    | drain =>
        obtain ⟨-, rfl⟩ := Prod.mk.inj (Except.ok.inj hperform)
        exact .nil
  exact fun turn hturn => (hkeeps turn hturn).2

/-- In any history of the buffer no insertion fails, and every inserted chunk still waits, or was
united with neighbours once, or was drained once. -/
theorem exists_accounts (deeds : List Deed) :
    ∃ turns, ({} : Remainders).history deeds = .ok turns ∧ turns.map Turn.deed = deeds ∧
      (∃ left, Accounts [] turns left) ∧
      (∀ turn ∈ turns, turn.after.isEmpty = true ↔ turn.after.size = 0) ∧
      ((∀ turn ∈ turns, turn.Orderly) → ∀ turn ∈ turns, turn.after.Unjoined) := by
  obtain ⟨turns, left, hturns, hdeeds, haccounts⟩ := exists_history tidy_empty deeds
  refine ⟨turns, hturns, hdeeds, ⟨left, haccounts⟩, fun turn hturn => ?_,
    unjoined_of_history hturns⟩
  have hstocked : turn.after.Stocked :=
    history_induction Stocked (fun _ => True) (fun t ht hperform _ => stocked_perform ht hperform)
      (fun entry hentry => absurd hentry List.not_mem_nil) hturns (fun _ _ => trivial) turn hturn
  exact hstocked.isEmpty_iff

/-- The pieces of a file arrive out of order, and one of another file finds no neighbour. -/
theorem exists_accounts_of_three_pieces :
    let first : Chunk := ⟨"f", ['a'], 0, 0, 0, false, true, true⟩
    let second : Chunk := ⟨"f", ['\n'], 1, 1, 0, true, true, true⟩
    let third : Chunk := ⟨"f", ['b'], 2, 2, 1, true, false, true⟩
    let other : Chunk := ⟨"g", ['c'], 1, 1, 0, true, true, true⟩
    let deeds : List Deed :=
      [.insert third, .insert first, .insert other, .insert second, .drain]
    let turns : List Turn :=
      [⟨{}, .insert third, [], ⟨[("f", [third])]⟩⟩,
        ⟨⟨[("f", [third])]⟩, .insert first, [], ⟨[("f", [first, third])]⟩⟩,
        ⟨⟨[("f", [first, third])]⟩, .insert other, [], ⟨[("f", [first, third]), ("g", [other])]⟩⟩,
        ⟨⟨[("f", [first, third]), ("g", [other])]⟩, .insert second,
          [⟨"f", ['a', '\n', 'b'], 0, 0, 0, false, false, true⟩], ⟨[("g", [other])]⟩⟩,
        ⟨⟨[("g", [other])]⟩, .drain, [other.settled], {}⟩]
    ({} : Remainders).history deeds = .ok turns ∧ (∀ turn ∈ turns, turn.Orderly) ∧
      (∃ left, Accounts [] turns left) ∧ ∀ turn ∈ turns, turn.after.Unjoined := by
  intro first second third other deeds turns
  have hbehind : [third, first].mergeSort inOrder = [first, third] := by
    simp [List.mergeSort, List.MergeSort.Internal.splitInTwo, inOrder, first, third]
  have hbetween : [first, third, second].mergeSort inOrder = [first, second, third] := by
    simp [List.mergeSort, List.MergeSort.Internal.splitInTwo, inOrder, first, second, third]
  have hfirst : perform ⟨[("f", [third])]⟩ (.insert first) =
      .ok ([], ⟨[("f", [first, third])]⟩) := by
    rw [perform]
    exact (insert_of_mergeSort_eq (by exact hbehind)).trans rfl
  have hsecond : perform ⟨[("f", [first, third]), ("g", [other])]⟩ (.insert second) =
      .ok ([⟨"f", ['a', '\n', 'b'], 0, 0, 0, false, false, true⟩], ⟨[("g", [other])]⟩) := by
    rw [perform]
    exact (insert_of_mergeSort_eq (by exact hbetween)).trans rfl
  have hleft : leftovers ⟨[("g", [other])]⟩ = [other.settled] := List.mergeSort_singleton _
  have hdrain : perform ⟨[("g", [other])]⟩ .drain = .ok ([other.settled], {}) := by
    rw [perform, hleft]
  have hhistory : ({} : Remainders).history deeds = .ok turns := by
    apply history_cons_eq_ok.2 ⟨_, _, _, rfl, ?_, rfl⟩
    apply history_cons_eq_ok.2 ⟨_, _, _, hfirst, ?_, rfl⟩
    apply history_cons_eq_ok.2 ⟨_, _, _, rfl, ?_, rfl⟩
    apply history_cons_eq_ok.2 ⟨_, _, _, hsecond, ?_, rfl⟩
    exact history_cons_eq_ok.2 ⟨_, _, _, hdrain, rfl, rfl⟩
  have horderly : ∀ turn ∈ turns, turn.Orderly := by decide
  obtain ⟨turns', hturns, -, haccounts, -, hunjoined⟩ := exists_accounts deeds
  rw [Except.ok.inj (hturns.symm.trans hhistory)] at haccounts hunjoined
  exact ⟨hhistory, horderly, haccounts, hunjoined horderly⟩

end Remainders

end ClonePrint
