import Mathlib.Data.List.Perm.Subperm
import ClonePrint.Chunk.Remainders

/-!
# What the buffer of remainders does

Adding a chunk to the buffer joins some of the waiting chunks pair by pair and
keeps the others as they are. A chunk that stays was not followed by its
neighbour: whatever comes behind it in the order of the file starts elsewhere.
-/
namespace ClonePrint

namespace Chunk

def concat (c d : Chunk) : Chunk :=
  { c with
    text := c.text ++ d.text
    openEnd := d.openEnd
    provisional := c.provisional || d.provisional }

/-- Joining puts the chunk with the smaller id in front of its neighbour. -/
theorem exists_of_join_eq_ok {c d e : Chunk} (h : c.join d = .ok e) :
    ∃ first second, [c, d].Perm [first, second] ∧ first.id ≤ second.id ∧
      first.precedes second = true ∧ e = first.concat second := by
  simp only [join] at h
  split at h
  · cases h
  · by_cases hid : c.id ≤ d.id
    · simp only [hid, ↓reduceIte] at h
      split at h
      · rename_i hprecedes
        exact ⟨c, d, .refl _, hid, hprecedes, (Except.ok.inj h).symm⟩
      · cases h
    · simp only [hid, ↓reduceIte] at h
      split at h
      · rename_i hprecedes
        exact ⟨d, c, .swap _ _ _, by omega, hprecedes, (Except.ok.inj h).symm⟩
      · cases h

theorem precedes_iff {c d : Chunk} :
    c.precedes d = true ↔ c.file = d.file ∧ c.endOffset = d.byteOffset := by
  simp [precedes]

theorem concat_endOffset {c d : Chunk} (h : c.precedes d = true) :
    (c.concat d).endOffset = d.endOffset := by
  have hnext := (precedes_iff.1 h).2
  simp only [endOffset] at hnext
  simp only [endOffset, concat, Text.size_append]
  omega

end Chunk

/-- Chunks become others by joining neighbours pair by pair. -/
inductive Joins : List Chunk → List Chunk → Prop
  | perm {a b : List Chunk} (same : a.Perm b) : Joins a b
  | join {a b rest : List Chunk} {c d : Chunk} (found : a.Perm (c :: d :: rest))
      (ordered : c.id ≤ d.id) (adjacent : c.precedes d = true)
      (more : Joins (c.concat d :: rest) b) : Joins a b

namespace Joins

theorem of_perm_left {a a' b : List Chunk} (h : a.Perm a') (hj : Joins a' b) : Joins a b := by
  cases hj with
  | perm same => exact .perm (h.trans same)
  | join found ordered adjacent more => exact .join (h.trans found) ordered adjacent more

theorem trans {a b c : List Chunk} (h : Joins a b) (g : Joins b c) : Joins a c := by
  induction h with
  | perm same => exact g.of_perm_left same
  | join found ordered adjacent _ ih => exact .join found ordered adjacent (ih g)

theorem append_right {a b : List Chunk} (h : Joins a b) (rest : List Chunk) :
    Joins (a ++ rest) (b ++ rest) := by
  induction h with
  | perm same => exact .perm (same.append_right rest)
  | join found ordered adjacent _ ih => exact .join (found.append_right rest) ordered adjacent ih

theorem append {a b c d : List Chunk} (h : Joins a b) (g : Joins c d) :
    Joins (a ++ c) (b ++ d) := by
  have hleft := h.append_right c
  have hright := g.append_right b
  exact hleft.trans ((hright.of_perm_left List.perm_append_comm).trans
    (.perm List.perm_append_comm))

/-- What joining two neighbours preserves, joining many preserves. -/
theorem forall_mem {good : Chunk → Prop} {a b : List Chunk} (h : Joins a b)
    (hconcat : ∀ c d, good c → good d → c.precedes d = true → good (c.concat d))
    (ha : ∀ c ∈ a, good c) : ∀ c ∈ b, good c := by
  induction h with
  | perm same => exact fun c hc => ha c (same.mem_iff.2 hc)
  | @join a b rest c d found ordered adjacent _ ih =>
      refine ih fun x hx => ?_
      rcases List.mem_cons.1 hx with rfl | hx
      · exact hconcat c d (ha c (found.mem_iff.2 (by simp))) (ha d (found.mem_iff.2 (by simp)))
          adjacent
      · exact ha x (found.mem_iff.2 (by simp [hx]))

/-- What is counted alike in two neighbours and in their union is counted alike
before and after. -/
theorem countP_eq {counts : Chunk → Bool} {a b : List Chunk} (h : Joins a b)
    (hconcat : ∀ c d, c.precedes d = true → [c.concat d].countP counts = [c, d].countP counts) :
    b.countP counts = a.countP counts := by
  induction h with
  | perm same => exact (same.countP_eq counts).symm
  | @join a b rest c d found ordered adjacent _ ih =>
      have hpair := hconcat c d adjacent
      rw [ih, found.countP_eq]
      simp only [List.countP_cons, List.countP_nil] at hpair ⊢
      omega

end Joins

namespace Remainders

/-- Everything that waits. -/
def chunks (r : Remainders) : List Chunk := r.files.flatMap Prod.snd

/-- Every file has one entry, with chunks of this file. -/
structure Tidy (r : Remainders) : Prop where
  nodup : (r.files.map Prod.fst).Nodup
  file : ∀ entry ∈ r.files, ∀ c ∈ entry.2, c.file = entry.1

def others (file : String) (r : Remainders) : List Chunk :=
  (r.files.filter (·.1 != file)).flatMap Prod.snd

theorem joinRun_joins {run joined : List Chunk} (h : joinRun run = .ok joined) :
    Joins run joined := by
  cases run with
  | nil =>
      rw [← Except.ok.inj h]
      exact .perm (.refl _)
  | cons c more =>
      have hfold : ∀ (more : List Chunk) (c e : Chunk), more.foldlM Chunk.join c = .ok e →
          Joins (c :: more) [e] := by
        intro more
        induction more with
        | nil =>
            intro c e he
            rw [← Except.ok.inj he]
            exact .perm (.refl _)
        | cons d more ih =>
            intro c e he
            rw [List.foldlM_cons] at he
            cases hjoin : c.join d with
            | error cause => simp [hjoin, bind, Except.bind] at he
            | ok x =>
                simp only [hjoin, bind, Except.bind] at he
                obtain ⟨first, second, hpair, hid, hadjacent, rfl⟩ :=
                  Chunk.exists_of_join_eq_ok hjoin
                exact .join (hpair.append_right more) hid hadjacent (ih _ e he)
      simp only [joinRun] at h
      cases hall : more.foldlM Chunk.join c with
      | error cause => simp [hall, Except.map] at h
      | ok e =>
          simp only [hall, Except.map, Except.ok.injEq] at h
          rw [← h]
          exact hfold more c e hall

theorem mapM_joinRun_joins {groups joined : List (List Chunk)}
    (h : groups.mapM joinRun = .ok joined) : Joins groups.flatten joined.flatten := by
  induction groups generalizing joined with
  | nil =>
      rw [List.mapM_nil] at h
      rw [← Except.ok.inj h]
      exact .perm (.refl _)
  | cons run groups ih =>
      rw [List.mapM_cons] at h
      cases hrun : joinRun run with
      | error cause => simp [hrun, bind, Except.bind] at h
      | ok first =>
          cases hmore : groups.mapM joinRun with
          | error cause => simp [hrun, hmore, bind, Except.bind] at h
          | ok more =>
              simp only [hrun, hmore, bind, Except.bind, pure, Except.pure, Except.ok.injEq] at h
              rw [← h]
              exact (joinRun_joins hrun).append (ih hmore)

/-- What a run is joined to is at most one chunk. -/
theorem joinRun_length_le_one {run joined : List Chunk} (h : joinRun run = .ok joined) :
    joined.length ≤ 1 := by
  cases run with
  | nil =>
      rw [← Except.ok.inj h]
      exact Nat.zero_le 1
  | cons c more =>
      simp only [joinRun] at h
      cases hall : more.foldlM Chunk.join c with
      | error cause => simp [hall, Except.map] at h
      | ok e =>
          simp only [hall, Except.map, Except.ok.injEq] at h
          rw [← h]
          exact Nat.le_refl 1

/-- Every joined chunk takes the place of at least two. -/
theorem two_mul_length_joined_le {groups joined : List (List Chunk)}
    (hlong : ∀ g ∈ groups, 2 ≤ g.length) (h : groups.mapM joinRun = .ok joined) :
    2 * joined.flatten.length ≤ groups.flatten.length := by
  induction groups generalizing joined with
  | nil =>
      rw [List.mapM_nil] at h
      rw [← Except.ok.inj h]
      exact Nat.le_refl 0
  | cons run groups ih =>
      rw [List.mapM_cons] at h
      cases hrun : joinRun run with
      | error cause => simp [hrun, bind, Except.bind] at h
      | ok first =>
          cases hmore : groups.mapM joinRun with
          | error cause => simp [hrun, hmore, bind, Except.bind] at h
          | ok more =>
              simp only [hrun, hmore, bind, Except.bind, pure, Except.pure, Except.ok.injEq] at h
              have hfirst := joinRun_length_le_one hrun
              have hrest := ih (fun g hg => hlong g (List.mem_cons_of_mem run hg)) hmore
              have htwo := hlong run (List.mem_cons_self ..)
              rw [← h, List.flatten_cons, List.flatten_cons, List.length_append, List.length_append]
              omega

/-- Grouping keeps the order. -/
theorem flatten_runs (l : List Chunk) : (runs l).flatten = l := by
  induction l with
  | nil => rfl
  | cons c more ih =>
      rw [runs]
      split
      · rename_i d run others hmore
        rw [hmore] at ih
        split <;> simp [← ih]
      · simp [ih]

theorem head?_runs (l : List Chunk) :
    ((runs l).head?.bind List.head?) = l.head? ∧ ∀ g ∈ runs l, g ≠ [] := by
  induction l with
  | nil => simp [runs]
  | cons c more ih =>
      rw [runs]
      split
      · rename_i d run others hmore
        rw [hmore] at ih
        split <;> simp_all
      · rename_i hmore
        refine ⟨by simp, fun g hg => ?_⟩
        rcases List.mem_cons.1 hg with rfl | hg
        · simp
        · exact ih.2 g hg

/-- A chunk that stays alone does not reach its successor. -/
theorem exists_of_singleton_mem_runs {l : List Chunk} {x : Chunk} (h : [x] ∈ runs l) :
    ∃ a b, l = a ++ x :: b ∧ ∀ z ∈ b.head?, x.precedes z = false := by
  induction l with
  | nil => simp [runs] at h
  | cons c more ih =>
      have hlater (g : [x] ∈ runs more) :
          ∃ a b, c :: more = a ++ x :: b ∧ ∀ z ∈ b.head?, x.precedes z = false := by
        obtain ⟨a, b, rfl, hnext⟩ := ih g
        exact ⟨c :: a, b, rfl, hnext⟩
      have hhead := (head?_runs more).1
      rw [runs] at h
      split at h
      · rename_i d run others hmore
        rw [hmore] at hlater hhead
        split at h
        · rcases List.mem_cons.1 h with h | h
          · cases h
          · exact hlater (List.mem_cons_of_mem _ h)
        · rename_i hprecedes
          rcases List.mem_cons.1 h with h | h
          · obtain rfl : x = c := by simpa using h
            refine ⟨[], more, rfl, fun z hz => ?_⟩
            rw [← hhead] at hz
            obtain rfl : d = z := by simpa using hz
            simpa using hprecedes
          · exact hlater h
      · rename_i hmore
        rcases List.mem_cons.1 h with h | h
        · obtain rfl : x = c := by simpa using h
          refine ⟨[], more, rfl, fun z hz => ?_⟩
          rw [← hhead] at hz
          cases hruns : runs more with
          | nil => simp [hruns] at hz
          | cons g others =>
              cases g with
              | nil => exact absurd rfl ((head?_runs more).2 [] (by simp [hruns]))
              | cons d run => exact absurd hruns (hmore d run others)
        · exact hlater h

theorem inOrder_trans (a b c : Chunk) (h : inOrder a b = true) (g : inOrder b c = true) :
    inOrder a c = true := by
  simp only [inOrder, Bool.or_eq_true, Bool.and_eq_true, decide_eq_true_eq, beq_iff_eq] at *
  omega

theorem inOrder_total (a b : Chunk) : (inOrder a b || inOrder b a) = true := by
  simp only [inOrder, Bool.or_eq_true, Bool.and_eq_true, decide_eq_true_eq, beq_iff_eq]
  omega

theorem id_le_of_inOrder {a b : Chunk} (h : inOrder a b = true) : a.id ≤ b.id := by
  simp only [inOrder, Bool.or_eq_true, Bool.and_eq_true, decide_eq_true_eq, beq_iff_eq] at h
  omega

/-- When a chunk stays alone in front of its neighbour, a third one stands
between them. -/
theorem exists_between {waiting : List Chunk} {x y : Chunk}
    (h : [x] ∈ runs (waiting.mergeSort inOrder)) (hy : y ∈ waiting) (hid : x.id < y.id)
    (hadjacent : x.precedes y = true) :
    ∃ z, [x, z, y].Subperm waiting ∧ x.id ≤ z.id ∧ z.id ≤ y.id := by
  obtain ⟨a, b, hsorted, hnext⟩ := exists_of_singleton_mem_runs h
  have hpairs := List.pairwise_mergeSort inOrder_trans inOrder_total waiting
  have hperm := List.mergeSort_perm waiting inOrder
  rw [hsorted] at hpairs hperm
  obtain ⟨-, hpairs, hbefore⟩ := List.pairwise_append.1 hpairs
  obtain ⟨hafter, hpairs⟩ := List.pairwise_cons.1 hpairs
  -- The neighbour has the larger id, so it stands behind.
  have hmem : y ∈ b := by
    rcases List.mem_append.1 (hperm.mem_iff.2 hy) with hya | hyb
    · have := id_le_of_inOrder (hbefore y hya x (List.mem_cons_self ..))
      omega
    · rcases List.mem_cons.1 hyb with rfl | hyb
      · omega
      · exact hyb
  cases b with
  | nil => cases hmem
  | cons z b =>
      rcases List.mem_cons.1 hmem with rfl | hmem
      · have hfar := hnext y (by simp)
        simp [hadjacent] at hfar
      · refine ⟨z, ?_, id_le_of_inOrder (hafter z (by simp)),
          id_le_of_inOrder ((List.pairwise_cons.1 hpairs).1 y hmem)⟩
        have hsub : [x, z, y].Sublist (a ++ x :: z :: b) :=
          (List.Sublist.cons_cons x (List.Sublist.cons_cons z
            (List.singleton_sublist.2 hmem))).trans (List.sublist_append_right a _)
        exact hsub.subperm.trans hperm.subperm

theorem perm_pending_append {files : List (String × List Chunk)}
    (h : (files.map Prod.fst).Nodup) (file : String) :
    (files.flatMap Prod.snd).Perm ((⟨files⟩ : Remainders).pending file ++
      (⟨files⟩ : Remainders).others file) := by
  induction files with
  | nil => exact .refl _
  | cons entry files ih =>
      obtain ⟨hnew, hnodup⟩ := List.nodup_cons.1 h
      by_cases hentry : entry.1 = file
      · have hall : files.filter (·.1 != file) = files := by
          rw [List.filter_eq_self]
          intro other hother
          have hne : other.1 ≠ file := fun heq =>
            hnew (hentry ▸ heq ▸ List.mem_map_of_mem hother)
          simpa using hne
        simp [pending, others, hentry, hall]
      · have hstep := (ih hnodup).append_left entry.2
        simp only [pending, others] at hstep ⊢
        simp only [List.flatMap_cons, List.find?_cons, List.filter_cons, hentry,
          bne_iff_ne, ne_eq, not_false_eq_true, ↓reduceIte, beq_false_of_ne hentry]
        exact hstep.trans (List.perm_append_comm_assoc _ _ _)

theorem chunks_perm {r : Remainders} (h : r.Tidy) (file : String) :
    r.chunks.Perm (r.pending file ++ r.others file) := perm_pending_append h.nodup file

theorem chunks_setPending (file : String) (cs : List Chunk) (r : Remainders) :
    (r.setPending file cs).chunks.Perm (cs ++ r.others file) := by
  cases cs with
  | nil => exact .refl _
  | cons c cs =>
      simp only [setPending, chunks, List.isEmpty_cons, Bool.false_eq_true, ↓reduceIte,
        List.flatMap_append, List.flatMap_cons, List.flatMap_nil, List.append_nil]
      exact List.perm_append_comm

theorem file_of_mem_pending {r : Remainders} (h : r.Tidy) {file : String} {c : Chunk}
    (hc : c ∈ r.pending file) : c.file = file := by
  simp only [pending] at hc
  cases hfind : r.files.find? (·.1 == file) with
  | none => simp [hfind] at hc
  | some entry =>
      have hkey : entry.1 = file := by simpa using List.find?_some hfind
      simp only [hfind, Option.map_some, Option.getD_some] at hc
      rw [← hkey]
      exact h.file entry (List.mem_of_find?_eq_some hfind) c hc

theorem setPending_tidy {r : Remainders} (h : r.Tidy) {file : String} {cs : List Chunk}
    (hcs : ∀ c ∈ cs, c.file = file) : (r.setPending file cs).Tidy := by
  have hkept : ((r.files.filter (·.1 != file)).map Prod.fst).Nodup :=
    h.nodup.sublist (List.filter_sublist.map Prod.fst)
  have hold : ∀ entry ∈ r.files.filter (·.1 != file), ∀ c ∈ entry.2, c.file = entry.1 :=
    fun entry hentry => h.file entry (List.mem_filter.1 hentry).1
  cases cs with
  | nil => exact ⟨hkept, hold⟩
  | cons c cs =>
      simp only [setPending, List.isEmpty_cons, Bool.false_eq_true, ↓reduceIte]
      constructor
      · rw [List.map_append, List.nodup_append]
        refine ⟨hkept, by simp, fun key hkey other hother => ?_⟩
        obtain ⟨entry, hentry, rfl⟩ := List.mem_map.1 hkey
        obtain rfl : other = file := by simpa using hother
        simpa using (List.mem_filter.1 hentry).2
      · intro entry hentry
        rcases List.mem_append.1 hentry with hentry | hentry
        · exact hold entry hentry
        · obtain rfl : entry = (file, c :: cs) := by simpa using hentry
          exact hcs

/-- What adding a chunk comes to. Of the chunks of its file some are joined, and
those that stay alone are not followed by a neighbour. -/
structure Inserts (c : Chunk) (r : Remainders) (joined : List Chunk) (r' : Remainders)
    (merged alone : List Chunk) : Prop where
  divided : (c :: r.pending c.file).Perm (merged ++ alone)
  joins : Joins merged joined
  pairs : 2 * joined.length ≤ merged.length
  chunks : r'.chunks.Perm (alone ++ r.others c.file)
  tidy : r'.Tidy
  between : ∀ x ∈ alone, ∀ y ∈ c :: r.pending c.file, x.id < y.id → x.precedes y = true →
    ∃ z, [x, z, y].Subperm (c :: r.pending c.file) ∧ x.id ≤ z.id ∧ z.id ≤ y.id

theorem flatten_filter_perm (groups : List (List Chunk)) :
    groups.flatten.Perm ((groups.filter (2 ≤ ·.length)).flatten ++
      (groups.filter (·.length < 2)).flatten) := by
  have hsplit := List.filter_append_perm (fun g : List Chunk => decide (2 ≤ g.length)) groups
  have hshort : groups.filter (fun g => !decide (2 ≤ g.length)) =
      groups.filter (·.length < 2) := by
    refine List.filter_congr fun g _ => ?_
    simp only [Nat.not_le, ← decide_not]
  rw [hshort] at hsplit
  have hflat := hsplit.symm.flatten
  rwa [List.flatten_append] at hflat

theorem mem_flatten_short_runs {l : List Chunk} {x : Chunk}
    (h : x ∈ ((runs l).filter (·.length < 2)).flatten) : [x] ∈ runs l := by
  obtain ⟨g, hg, hx⟩ := List.mem_flatten.1 h
  obtain ⟨hg, hshort⟩ := List.mem_filter.1 hg
  cases g with
  | nil => cases hx
  | cons y g =>
      cases g with
      | nil =>
          obtain rfl : x = y := by simpa using hx
          exact hg
      | cons z g =>
          simp only [List.length_cons, decide_eq_true_eq] at hshort
          omega

/-- A chunk that waits alone is a run of its own, so adding a chunk always joins the runs. -/
theorem insert_eq (c : Chunk) (r : Remainders) :
    r.insert c =
      (((runs ((r.pending c.file ++ [c]).mergeSort inOrder)).filter (2 ≤ ·.length)).mapM
        joinRun).map fun joined =>
          (joined.flatten, r.setPending c.file
            ((runs ((r.pending c.file ++ [c]).mergeSort inOrder)).filter (·.length < 2)).flatten) := by
  unfold insert
  dsimp only
  split
  · rename_i hshort
    have hnone : r.pending c.file = [] := by
      simp only [List.length_append, List.length_cons, List.length_nil] at hshort
      exact List.length_eq_zero_iff.1 (by omega)
    rw [hnone, List.nil_append, List.mergeSort_singleton]
    rfl
  · rfl

theorem insert_of_mergeSort_eq {c : Chunk} {r : Remainders} {sorted : List Chunk}
    (h : (r.pending c.file ++ [c]).mergeSort inOrder = sorted) :
    r.insert c = (((runs sorted).filter (2 ≤ ·.length)).mapM joinRun).map fun joined =>
      (joined.flatten, r.setPending c.file ((runs sorted).filter (·.length < 2)).flatten) := by
  rw [insert_eq, h]

theorem file_ne_of_mem_others {r : Remainders} (h : r.Tidy) {file : String} {c : Chunk}
    (hc : c ∈ r.others file) : c.file ≠ file := by
  obtain ⟨entry, hentry, hc⟩ := List.mem_flatMap.1 hc
  obtain ⟨hentry, hne⟩ := List.mem_filter.1 hentry
  rw [h.file entry hentry c hc]
  simpa using hne

/-- Adding a chunk to a tidy buffer keeps it tidy and loses nothing. -/
theorem exists_inserts {c : Chunk} {r r' : Remainders} {joined : List Chunk} (h : r.Tidy)
    (hi : r.insert c = .ok (joined, r')) : ∃ merged alone, Inserts c r joined r' merged alone := by
  have hfile : ∀ x ∈ c :: r.pending c.file, x.file = c.file := by
    intro x hx
    rcases List.mem_cons.1 hx with rfl | hx
    · rfl
    · exact file_of_mem_pending h hx
  have hwaiting : (r.pending c.file ++ [c]).Perm (c :: r.pending c.file) :=
    List.perm_append_singleton c _
  rw [insert_eq] at hi
  generalize hgroups : runs ((r.pending c.file ++ [c]).mergeSort inOrder) = groups at hi
  have hflat : groups.flatten.Perm (c :: r.pending c.file) := by
    rw [← hgroups, flatten_runs]
    exact (List.mergeSort_perm _ _).trans hwaiting
  cases hjoin : (groups.filter (2 ≤ ·.length)).mapM joinRun with
  | error cause => simp [hjoin, Except.map] at hi
  | ok parts =>
      simp only [hjoin, Except.map, Except.ok.injEq, Prod.mk.injEq] at hi
      obtain ⟨rfl, rfl⟩ := hi
      have hdivided := hflat.symm.trans (flatten_filter_perm groups)
      have hpairs := two_mul_length_joined_le
        (fun g hg => of_decide_eq_true (List.mem_filter.1 hg).2) hjoin
      refine ⟨_, _, hdivided, mapM_joinRun_joins hjoin, hpairs, chunks_setPending .., ?_, ?_⟩
      · exact setPending_tidy h fun x hx =>
          hfile x (hdivided.mem_iff.2 (List.mem_append_right _ hx))
      · intro x hx y hy hid hadjacent
        rw [← hgroups] at hx
        obtain ⟨z, hsub, hxz, hzy⟩ := exists_between (mem_flatten_short_runs hx)
          (hwaiting.mem_iff.2 hy) hid hadjacent
        exact ⟨z, hsub.trans hwaiting.subperm, hxz, hzy⟩

/-- Leftovers are the waiting chunks, settled. -/
theorem leftovers_perm (r : Remainders) : r.leftovers.Perm (r.chunks.map Chunk.settled) :=
  List.mergeSort_perm _ _

end Remainders

end ClonePrint
