import Mathlib.Data.List.Chain
import ClonePrint.Proofs.Joining

/-!
# The buffer of remainders never gets stuck

A run of waiting chunks consists of neighbours in the order of their ids, so it
can always be joined: adding a chunk to the buffer never fails, whatever chunk it
is. A file without waiting chunks is forgotten, so a buffer that is not empty has
leftovers.
-/
namespace ClonePrint

namespace Chunk

theorem join_of_precedes {c d : Chunk} (hid : c.id ≤ d.id) (h : c.precedes d = true) :
    c.join d = .ok (c.concat d) := by
  have hfile := (precedes_iff.1 h).1
  simp [join, hfile, hid, h, concat]

theorem concat_precedes {c d e : Chunk} (h : c.precedes d = true) :
    (c.concat d).precedes e = d.precedes e := by
  have hfile : (c.concat d).file = d.file := (precedes_iff.1 h).1
  simp only [precedes, concat_endOffset h, hfile]

/-- Joining the first two of several neighbours leaves neighbours. -/
theorem isChain_concat {c d : Chunk} {more : List Chunk}
    (h : (c :: d :: more).IsChain fun c d => c.precedes d = true) :
    (c.concat d :: more).IsChain fun c d => c.precedes d = true := by
  obtain ⟨hadjacent, hmore⟩ := List.isChain_cons_cons.1 h
  cases more with
  | nil => exact List.isChain_singleton _
  | cons e more =>
      obtain ⟨hnext, hrest⟩ := List.isChain_cons_cons.1 hmore
      exact List.IsChain.cons_cons ((concat_precedes hadjacent).trans hnext) hrest

end Chunk

namespace Remainders

theorem isChain_of_mem_runs {l g : List Chunk} (h : g ∈ runs l) :
    g.IsChain fun c d => c.precedes d = true := by
  induction l generalizing g with
  | nil => cases h
  | cons c more ih =>
      rw [runs] at h
      split at h
      · rename_i d run others hmore
        rw [hmore] at ih
        split at h
        · rename_i hprecedes
          rcases List.mem_cons.1 h with rfl | h
          · exact List.IsChain.cons_cons hprecedes (ih (List.mem_cons_self ..))
          · exact ih (List.mem_cons_of_mem _ h)
        · rcases List.mem_cons.1 h with rfl | h
          · exact List.isChain_singleton c
          · exact ih h
      · rcases List.mem_cons.1 h with rfl | h
        · exact List.isChain_singleton c
        · exact ih h

/-- Neighbours in the order of their ids are joined one after the other. -/
theorem foldlM_join_eq {c : Chunk} {more : List Chunk}
    (hchain : (c :: more).IsChain fun c d => c.precedes d = true)
    (hids : ∀ d ∈ more, c.id ≤ d.id) :
    more.foldlM Chunk.join c = .ok (more.foldl Chunk.concat c) := by
  induction more generalizing c with
  | nil => rfl
  | cons d more ih =>
      have hadjacent := (List.isChain_cons_cons.1 hchain).1
      rw [List.foldlM_cons, Chunk.join_of_precedes (hids d (List.mem_cons_self ..)) hadjacent]
      exact ih (Chunk.isChain_concat hchain) fun x hx => hids x (List.mem_cons_of_mem d hx)

theorem joinRun_eq {c : Chunk} {more : List Chunk}
    (hchain : (c :: more).IsChain fun c d => c.precedes d = true)
    (hsorted : (c :: more).Pairwise fun c d => inOrder c d = true) :
    joinRun (c :: more) = .ok [more.foldl Chunk.concat c] := by
  rw [joinRun, foldlM_join_eq hchain fun d hd =>
    id_le_of_inOrder ((List.pairwise_cons.1 hsorted).1 d hd)]
  rfl

/-- The waiting chunks in the order of their ids. -/
theorem pairwise_of_mem_runs {waiting g : List Chunk} (h : g ∈ runs (waiting.mergeSort inOrder)) :
    g.Pairwise fun c d => inOrder c d = true := by
  have hsub := List.sublist_flatten_of_mem h
  rw [flatten_runs] at hsub
  exact (List.pairwise_mergeSort inOrder_trans inOrder_total waiting).sublist hsub

theorem exists_mapM_joinRun_eq_ok {groups : List (List Chunk)}
    (h : ∀ g ∈ groups, ∃ joined, joinRun g = .ok joined) :
    ∃ joined, groups.mapM joinRun = .ok joined := by
  induction groups with
  | nil => exact ⟨[], rfl⟩
  | cons run groups ih =>
      obtain ⟨first, hfirst⟩ := h run (List.mem_cons_self ..)
      obtain ⟨more, hmore⟩ := ih fun g hg => h g (List.mem_cons_of_mem run hg)
      exact ⟨first :: more, by rw [List.mapM_cons, hfirst, hmore]; rfl⟩

theorem exists_insert_eq_ok (c : Chunk) (r : Remainders) :
    ∃ joined r', r.insert c = .ok (joined, r') := by
  obtain ⟨joined, hjoined⟩ : ∃ joined,
      ((runs ((r.pending c.file ++ [c]).mergeSort inOrder)).filter (2 ≤ ·.length)).mapM joinRun =
        .ok joined := by
    refine exists_mapM_joinRun_eq_ok fun g hg => ?_
    have hg := (List.mem_filter.1 hg).1
    cases g with
    | nil => exact ⟨[], rfl⟩
    | cons c more => exact ⟨_, joinRun_eq (isChain_of_mem_runs hg) (pairwise_of_mem_runs hg)⟩
  exact ⟨joined.flatten, _, by rw [insert_eq, hjoined]; rfl⟩

/-- No file is kept without waiting chunks. -/
def Stocked (r : Remainders) : Prop := ∀ entry ∈ r.files, entry.2 ≠ []

theorem Stocked.setPending {r : Remainders} (h : r.Stocked) (file : String) (cs : List Chunk) :
    (r.setPending file cs).Stocked := by
  have hold : ∀ entry ∈ r.files.filter (·.1 != file), entry.2 ≠ [] :=
    fun entry hentry => h entry (List.mem_filter.1 hentry).1
  cases cs with
  | nil => exact hold
  | cons c cs =>
      intro entry hentry
      rcases List.mem_append.1 hentry with hentry | hentry
      · exact hold entry hentry
      · obtain rfl : entry = (file, c :: cs) := by simpa using hentry
        exact List.cons_ne_nil c cs

theorem Stocked.insert {c : Chunk} {r r' : Remainders} {joined : List Chunk} (h : r.Stocked)
    (hi : r.insert c = .ok (joined, r')) : r'.Stocked := by
  rw [insert_eq] at hi
  cases hjoin : ((runs ((r.pending c.file ++ [c]).mergeSort inOrder)).filter
      (2 ≤ ·.length)).mapM joinRun with
  | error cause => simp [hjoin, Except.map] at hi
  | ok parts =>
      simp only [hjoin, Except.map, Except.ok.injEq, Prod.mk.injEq] at hi
      rw [← hi.2]
      exact h.setPending _ _

theorem Stocked.leftovers_ne_nil {r : Remainders} (h : r.Stocked) (hr : r.isEmpty = false) :
    r.leftovers ≠ [] := by
  intro hnil
  have hnone := r.leftovers_perm.symm
  rw [hnil] at hnone
  have hchunks := List.map_eq_nil_iff.1 (List.perm_nil.1 hnone)
  cases hfiles : r.files with
  | nil => simp [isEmpty, hfiles] at hr
  | cons entry files =>
      rw [chunks, hfiles, List.flatMap_cons, List.append_eq_nil_iff] at hchunks
      exact h entry (by simp [hfiles]) hchunks.1

end Remainders

end ClonePrint
