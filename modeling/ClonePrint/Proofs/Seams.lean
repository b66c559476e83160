import ClonePrint.Proofs.Pieces

/-!
# Files that parse part by part

Between the starts of its items a file can be taken apart: each slice parses, and
the records of neighbouring slices are those of their union. The front end finds
such a place whenever it is asked how much of a slice is complete. When slices like
these cover a file exactly once, what is found in them is what is found in the
whole file.
-/
namespace ClonePrint

/-- An end of the file, or the start of an item. -/
def SplitFile.boundary (f : SplitFile) (p : TokenTree) (i : Nat) : Prop :=
  i = 0 ∨ i = Text.size f.text ∨
    ∃ items, (p.frontEnd f.text).itemStarts? = some items ∧ i ∈ items

/-- The front end takes the file apart at its items. Slices between boundaries parse, and their
records follow one another. A slice that starts at a boundary is held back from a boundary on, or
whole. -/
structure Seamless (p : TokenTree) (f : SplitFile) : Prop where
  concat : ∀ x y z w, x ++ (y ++ (z ++ w)) = f.text → f.boundary p (Text.size x) →
    f.boundary p (Text.size (x ++ y)) → f.boundary p (Text.size (x ++ (y ++ z))) →
    ∃ r s, p.parseStrict f.name y (Text.lineBreaks x) = .ok r ∧
      p.parseStrict f.name z (Text.lineBreaks (x ++ y)) = .ok s ∧
      p.parseStrict f.name (y ++ z) (Text.lineBreaks x) = .ok (r ++ s)
  hold : ∀ x y w, x ++ (y ++ w) = f.text → y ≠ [] → f.boundary p (Text.size x) →
    (p.frontEnd y).holdBackPoint = 0 ∨
      f.boundary p (Text.size x + (p.frontEnd y).holdBackPoint)

/-- A part of a file between two boundaries. -/
structure Clean (p : TokenTree) (f : SplitFile) (c : Chunk) : Prop where
  file : c.file = f.name
  within : c.Within f.text
  start : f.boundary p c.byteOffset
  stop : f.boundary p c.endOffset

namespace Seamless

variable {p : TokenTree} {f : SplitFile}

theorem boundary_stop : f.boundary p (Text.size f.text) := .inr (.inl rfl)

theorem parse_nil (h : Seamless p f) {x w : Text} (hwhole : x ++ w = f.text)
    (hx : f.boundary p (Text.size x)) :
    p.parseStrict f.name [] (Text.lineBreaks x) = .ok [] := by
  obtain ⟨r, s, hr, hs, hrs⟩ := h.concat x [] [] w hwhole hx (by rwa [List.append_nil])
    (by rwa [List.append_nil, List.append_nil])
  rw [List.append_nil] at hs hrs
  rw [hr, Except.ok.injEq] at hs hrs
  rw [hr, List.eq_nil_of_length_eq_zero (l := r)]
  have hlength := congrArg List.length hrs
  rw [List.length_append, ← hs] at hlength
  omega

/-- A clean part parses, and what follows it may be parsed separately. -/
theorem parse_clean (h : Seamless p f) {c : Chunk} {x w : Text} (hc : Clean p f c)
    (hwhole : x ++ (c.text ++ w) = f.text) (hx : Text.size x = c.byteOffset) :
    ∃ s, p.accepts c = true ∧
      p.parseStrict f.name w (Text.lineBreaks (x ++ c.text)) = .ok s ∧
      p.parseStrict f.name (c.text ++ w) (Text.lineBreaks x) = .ok (p.recordsOf c ++ s) := by
  obtain ⟨before, after, hbefore, hsize, hlines⟩ := hc.within
  obtain ⟨rfl, hrest⟩ := Text.append_inj (hwhole.trans hbefore.symm) (hx.trans hsize.symm)
  obtain ⟨r, s, hr, hs, hrs⟩ := h.concat x c.text w [] (by rwa [List.append_nil])
    (hx ▸ hc.start) (by rw [Text.size_append, hx]; exact hc.stop)
    (by rw [hwhole]; exact boundary_stop)
  rw [hlines, ← hc.file] at hr
  obtain ⟨hrecords, -, haccepts⟩ := TokenTree.recordsOf_of_ok hr
  exact ⟨s, haccepts, hs, by rw [hrecords]; exact hrs⟩

theorem accepts (h : Seamless p f) {c : Chunk} (hc : Clean p f c) : p.accepts c = true := by
  obtain ⟨before, after, hwhole, hsize, -⟩ := hc.within
  obtain ⟨s, haccepts, -⟩ := h.parse_clean hc hwhole hsize
  exact haccepts

theorem recordsOf_eq_nil (h : Seamless p f) {c : Chunk} (hc : Clean p f c) (hnil : c.text = []) :
    p.recordsOf c = [] := by
  obtain ⟨before, after, hwhole, hsize, hlines⟩ := hc.within
  have hparse := h.parse_nil hwhole (hsize ▸ hc.start)
  rw [hlines, ← hc.file, ← hnil] at hparse
  exact (TokenTree.recordsOf_of_ok hparse).1

section
variable {parts : List Chunk} {x w : Text} (hwhole : x ++ w = f.text)
  (hparts : ∀ c ∈ parts, Clean p f c)
  (hcount : ∀ i, parts.countP (Chunk.covers f.name i) =
    if Text.size x ≤ i ∧ i < Text.size f.text then 1 else 0)
include hparts hcount

/-- A part that is not empty starts in the text that the parts cover. -/
theorem start_of_mem {c : Chunk} (hc : c ∈ parts) (hne : c.text ≠ []) :
    Text.size x ≤ c.byteOffset ∧ c.byteOffset < Text.size f.text := by
  have hpos := Splitter.size_pos hne
  have hmem : 0 < parts.countP (Chunk.covers f.name c.byteOffset) :=
    List.countP_pos_iff.2 ⟨c, hc, decide_eq_true
      ⟨(hparts c hc).file, Nat.le_refl _, Nat.lt_add_of_pos_right hpos⟩⟩
  rw [hcount] at hmem
  split at hmem
  · assumption
  · cases hmem

include hwhole

/-- One of the parts starts where the text starts that they cover. -/
theorem exists_first (hw : w ≠ []) :
    ∃ c ∈ parts, c.byteOffset = Text.size x ∧ ∃ after, c.text ++ after = w := by
  have hpos := Splitter.size_pos hw
  have hsize : Text.size x + Text.size w = Text.size f.text := by
    rw [← hwhole, Text.size_append]
  have hone := hcount (Text.size x)
  rw [if_pos ⟨Nat.le_refl _, by omega⟩] at hone
  obtain ⟨c, hc, hcovers⟩ := List.countP_pos_iff.1 (by rw [hone]; exact Nat.one_pos)
  simp only [Chunk.covers, decide_eq_true_eq] at hcovers
  obtain ⟨-, hle, hlt⟩ := hcovers
  have hne : c.text ≠ [] := by
    intro hnil
    simp only [Chunk.endOffset, hnil, Text.size] at hlt
    omega
  have hstart : c.byteOffset = Text.size x := by
    have := (start_of_mem hparts hcount hc hne).1
    omega
  obtain ⟨before, after, hbefore, hoffset, -⟩ := (hparts c hc).within
  obtain ⟨rfl, hrest⟩ := Text.append_inj (hbefore.trans hwhole.symm) (hoffset.trans hstart)
  exact ⟨c, hc, hstart, after, hrest⟩

/-- When nothing is left to cover, the parts are empty. -/
theorem text_eq_nil (hw : w = []) {c : Chunk} (hc : c ∈ parts) : c.text = [] := by
  by_contra hne
  have hstart := start_of_mem hparts hcount hc hne
  rw [← hwhole, hw, List.append_nil] at hstart
  omega

end

/-- Without their first part, the parts cover what follows it. -/
theorem countP_behind_first {c : Chunk} {parts : List Chunk} {x after : Text}
    (hwhole : x ++ (c.text ++ after) = f.text) (hfile : c.file = f.name)
    (hstart : c.byteOffset = Text.size x)
    (hcount : ∀ i, (c :: parts).countP (Chunk.covers f.name i) =
      if Text.size x ≤ i ∧ i < Text.size f.text then 1 else 0) (i : Nat) :
    parts.countP (Chunk.covers f.name i) =
      if Text.size (x ++ c.text) ≤ i ∧ i < Text.size f.text then 1 else 0 := by
  have hsize := congrArg Text.size hwhole
  have hall := hcount i
  rw [List.countP_cons] at hall
  simp only [Chunk.covers, hfile, Chunk.endOffset, true_and, decide_eq_true_eq, hstart] at hall ⊢
  simp only [Text.size_append] at hsize ⊢
  split at hall <;> split at hall <;> split <;> omega

/-- Clean parts that cover the rest of a file exactly once have the records of it. -/
theorem records_perm (h : Seamless p f) {parts : List Chunk} {x w : Text}
    (hwhole : x ++ w = f.text) (hx : f.boundary p (Text.size x))
    (hparts : ∀ c ∈ parts, Clean p f c)
    (hcount : ∀ i, parts.countP (Chunk.covers f.name i) =
      if Text.size x ≤ i ∧ i < Text.size f.text then 1 else 0) :
    ∃ r, p.parseStrict f.name w (Text.lineBreaks x) = .ok r ∧
      (parts.flatMap p.recordsOf).Perm r := by
  -- The induction takes off the first part, as long as there is something to cover.
  induction hn : parts.length generalizing parts x w with
  | zero =>
      obtain rfl := List.length_eq_zero_iff.1 hn
      obtain rfl : w = [] := by
        by_contra hw
        obtain ⟨c, hc, -⟩ := exists_first hwhole hparts hcount hw
        cases hc
      exact ⟨[], h.parse_nil hwhole hx, .refl _⟩
  | succ n ih =>
      by_cases hw : w = []
      · have hempty (c : Chunk) (hc : c ∈ parts) : p.recordsOf c = [] :=
          h.recordsOf_eq_nil (hparts c hc) (text_eq_nil hwhole hparts hcount hw hc)
        subst hw
        refine ⟨[], h.parse_nil hwhole hx, .of_eq ?_⟩
        rw [List.flatMap_eq_nil_iff]
        exact hempty
      · obtain ⟨c, hc, hstart, after, rfl⟩ := exists_first hwhole hparts hcount hw
        obtain ⟨s, -, hs, hcs⟩ := h.parse_clean (hparts c hc) hwhole hstart.symm
        obtain ⟨a, b, rfl⟩ := List.append_of_mem hc
        have hmiddle : (a ++ c :: b).Perm (c :: (a ++ b)) := List.perm_middle
        have hbehind : ∃ r, p.parseStrict f.name after (Text.lineBreaks (x ++ c.text)) = .ok r ∧
            ((a ++ b).flatMap p.recordsOf).Perm r := by
          apply ih
          · rwa [List.append_assoc]
          · rw [Text.size_append, ← hstart]
            exact (hparts c hc).stop
          · exact fun d hd => hparts d (hmiddle.mem_iff.2 (List.mem_cons_of_mem c hd))
          · apply countP_behind_first hwhole (hparts c hc).file hstart
            intro i
            rw [← hmiddle.countP_eq]
            exact hcount i
          · rw [List.length_append, List.length_cons] at hn
            rw [List.length_append]
            omega
        obtain ⟨r, hr, hrecords⟩ := hbehind
        rw [hs, Except.ok.injEq] at hr
        subst hr
        exact ⟨_, hcs, (hmiddle.flatMap_right _).trans (hrecords.append_left _)⟩

end Seamless

end ClonePrint
