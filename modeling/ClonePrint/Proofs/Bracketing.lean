import Mathlib.Data.List.Chain
import ClonePrint.Proofs.Whereabouts

/-!
# Neighbours can be joined in any order

Several neighbours in the order of their ids become one chunk by joining two at a time. Which two
come first does not matter, nor does which of them is the first argument: joining looks at the ids,
and a chunk that was joined keeps the smallest id, the place of its first part and the end of its
last part. So whatever was joined before still lies next to what remains.
-/
namespace ClonePrint

namespace Chunk

theorem concat_assoc (c d e : Chunk) : (c.concat d).concat e = c.concat (d.concat e) := by
  simp only [concat, List.append_assoc, Bool.or_assoc]

instance : Std.Associative concat := ⟨concat_assoc⟩

/-- Joining puts the chunk with the smaller id first, whichever argument it is. -/
theorem join_of_precedes_of_lt {c d : Chunk} (hid : c.id < d.id) (h : c.precedes d = true) :
    d.join c = .ok (c.concat d) := by
  have hfile := (precedes_iff.1 h).1
  have hlater : ¬ d.id ≤ c.id := Nat.not_le_of_lt hid
  simp [join, hfile, hlater, h, concat]

theorem join_eq_error_iff (c d : Chunk) : (∃ cause, c.join d = .error cause) ↔
    c.file ≠ d.file ∨ (if c.id ≤ d.id then c.precedes d else d.precedes c) = false := by
  unfold join
  by_cases hfile : c.file = d.file
  · by_cases hid : c.id ≤ d.id
    · cases h : c.precedes d <;> simp [hfile, hid, h]
    · cases h : d.precedes c <;> simp [hfile, hid, h]
  · simp [hfile]

/-- Joined neighbours end where the last of them ends. -/
theorem foldl_concat_precedes {c : Chunk} {more : List Chunk} (e : Chunk)
    (h : (c :: more).IsChain fun c d => c.precedes d = true) :
    (more.foldl concat c).precedes e = (more.getLastD c).precedes e := by
  induction more generalizing c with
  | nil => rfl
  | cons d more ih =>
      have hadjacent := (List.isChain_cons_cons.1 h).1
      rw [List.foldl_cons, ih (isChain_concat h), List.getLastD_cons]
      cases more with
      | nil => exact concat_precedes hadjacent
      | cons e more => rw [List.getLastD_cons, List.getLastD_cons]

end Chunk

/-- Neighbours in their order, with increasing ids. -/
structure Contiguous (run : List Chunk) : Prop where
  adjacent : run.IsChain fun c d => c.precedes d = true
  increasing : run.Pairwise fun c d => c.id < d.id

theorem Contiguous.of_append {left right : List Chunk} (h : Contiguous (left ++ right)) :
    Contiguous left ∧ Contiguous right :=
  ⟨⟨h.adjacent.left_of_append, (List.pairwise_append.1 h.increasing).1⟩,
    ⟨h.adjacent.right_of_append, (List.pairwise_append.1 h.increasing).2.1⟩⟩

/-- Two runs that follow each other, each joined to one chunk, can be joined. -/
theorem Contiguous.precedes {c d : Chunk} {left right : List Chunk}
    (h : Contiguous ((c :: left) ++ (d :: right))) :
    (left.foldl Chunk.concat c).precedes (right.foldl Chunk.concat d) = true ∧
      (left.foldl Chunk.concat c).id < (right.foldl Chunk.concat d).id := by
  obtain ⟨hleft, -, hmiddle⟩ := List.isChain_append.1 h.adjacent
  have hlast : (left.getLastD c).precedes d = true :=
    hmiddle _ (by rw [List.getLast?_cons, List.getLastD_eq_getLast?]; rfl) d rfl
  have hids := (List.pairwise_append.1 h.increasing).2.2 c (by simp) d (by simp)
  refine ⟨?_, ?_⟩
  · rw [Chunk.foldl_concat_precedes _ hleft, Chunk.foldl_concat_eq]
    exact hlast
  · rw [Chunk.foldl_concat_eq, Chunk.foldl_concat_eq]
    exact hids

/-- A way to join several chunks, two at a time. At a swapped node what the right side becomes is
the first argument. -/
inductive Bracketing where
  | leaf (c : Chunk)
  | node (swapped : Bool) (left right : Bracketing)

namespace Bracketing

def leaves : Bracketing → List Chunk
  | leaf c => [c]
  | node _ left right => left.leaves ++ right.leaves

def eval : Bracketing → Except Error Chunk
  | leaf c => .ok c
  | node swapped left right =>
      left.eval.bind fun c => right.eval.bind fun d => if swapped then d.join c else c.join d

theorem exists_eval_eq_ok (b : Bracketing) (h : Contiguous b.leaves) :
    ∃ c more, b.leaves = c :: more ∧ b.eval = .ok (more.foldl Chunk.concat c) := by
  induction b with
  | leaf c => exact ⟨c, [], rfl, rfl⟩
  | node swapped left right hleft hright =>
      have hrun : Contiguous (left.leaves ++ right.leaves) := h
      obtain ⟨c, front, hc, hfront⟩ := hleft hrun.of_append.1
      obtain ⟨d, back, hd, hback⟩ := hright hrun.of_append.2
      rw [hc, hd] at hrun
      obtain ⟨hadjacent, hid⟩ := hrun.precedes
      refine ⟨c, front ++ d :: back, by rw [leaves, hc, hd, List.cons_append], ?_⟩
      have hjoined : (front ++ d :: back).foldl Chunk.concat c =
          (front.foldl Chunk.concat c).concat (back.foldl Chunk.concat d) := by
        rw [List.foldl_append, List.foldl_cons, List.foldl_assoc]
      rw [eval, hfront, hback, hjoined]
      cases swapped with
      | true => exact Chunk.join_of_precedes_of_lt hid hadjacent
      | false => exact Chunk.join_of_precedes (Nat.le_of_lt hid) hadjacent

end Bracketing

/-- Neighbours become the same chunk in whatever order they are joined, and two chunks fail to be
joined only if they are no neighbours in the order of their ids. -/
theorem joined_in_any_order {first : Chunk} {more : List Chunk} (h : Contiguous (first :: more)) :
    (∀ b : Bracketing, b.leaves = first :: more →
      b.eval = .ok
        { first with
          text := ((first :: more).map Chunk.text).flatten
          openEnd := ((first :: more).getLast (List.cons_ne_nil first more)).openEnd
          provisional := (first :: more).any Chunk.provisional }) ∧
    ∀ c d : Chunk, (∃ cause, c.join d = .error cause) ↔
      c.file ≠ d.file ∨ (if c.id ≤ d.id then c.precedes d else d.precedes c) = false := by
  refine ⟨fun b hb => ?_, Chunk.join_eq_error_iff⟩
  obtain ⟨c, rest, hleaves, heval⟩ := b.exists_eval_eq_ok (hb ▸ h)
  obtain ⟨rfl, rfl⟩ := List.cons.inj (hb.symm.trans hleaves)
  rw [heval, Chunk.foldl_concat_eq, List.getLast_eq_getLastD]
  rfl

/-- Three pieces of a file, the last two joined first and with the right side as the first
argument. -/
theorem joined_from_the_right :
    let a : Chunk := ⟨"f", ['a'], 0, 0, 0, false, true, true⟩
    let b : Chunk := ⟨"f", ['\n'], 2, 1, 0, true, true, false⟩
    let c : Chunk := ⟨"f", ['c'], 5, 2, 1, true, false, false⟩
    Contiguous [a, b, c] ∧
      (Bracketing.node true (.leaf a) (.node false (.leaf b) (.leaf c))).eval =
        .ok ⟨"f", ['a', '\n', 'c'], 0, 0, 0, false, false, true⟩ := by
  intro a b c
  have hrun : Contiguous [a, b, c] := ⟨by decide, by decide⟩
  exact ⟨hrun, (joined_in_any_order hrun).1 _ rfl⟩

end ClonePrint
