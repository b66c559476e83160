import Mathlib.Algebra.GroupWithZero.Nat
import ClonePrint.Proofs.Pieces

/-!
# A split file is its parts, each at its place

However a file is split, its parts follow one another from its beginning to its end, and each
of them says where it lies and whether its edges were cut. Splitting between items succeeds
when every item starts at a character, and cutting at offsets cuts at those that can be cut.
-/
namespace ClonePrint

/-- Chunks that are the parts of a text in their order, each labelled with its place. The file
starts and ends outside of its items, and neighbours agree about the edge between them. -/
structure Chunk.Partition (file : String) (t : Text) (cs : List Chunk) : Prop where
  flatten : (cs.map Chunk.text).flatten = t
  file : ∀ c ∈ cs, c.file = file
  id : ∀ i (h : i < cs.length), cs[i].id = i
  byteOffset : ∀ i (h : i < cs.length),
    cs[i].byteOffset = ((cs.take i).map fun c => Text.size c.text).sum
  lineOffset : ∀ i (h : i < cs.length),
    cs[i].lineOffset = Text.lineBreaks ((cs.take i).map Chunk.text).flatten
  first : ∃ c, cs.head? = some c ∧ c.openStart = false
  last : ∃ c, cs.getLast? = some c ∧ c.openEnd = false
  joined : cs.IsChain fun c d => c.precedes d = true ∧ c.openEnd = d.openStart
  provisional : ∀ c ∈ cs, c.provisional = decide (1 < cs.length)

namespace Text

/-- The bytes inside a text at which one character ends and the next one starts, if the text
starts at byte `start`. -/
def boundaries : Nat → Text → List Nat
  | start, c :: d :: t => (start + c.utf8Size) :: boundaries (start + c.utf8Size) (d :: t)
  | _, _ => []

theorem isSome_cut?_cons {n : Nat} (hn : 0 < n) (c : Char) (t : Text) :
    (cut? n (c :: t)).isSome = true ↔ c.utf8Size ≤ n ∧ (cut? (n - c.utf8Size) t).isSome = true := by
  cases n with
  | zero => omega
  | succ n =>
      rw [cut?]
      split
      · rename_i hle
        simp [hle]
      · rename_i hlt
        simp [hlt]

theorem mem_boundaries {start n : Nat} {t : Text} : n ∈ boundaries start t ↔
    start < n ∧ n < start + size t ∧ (cut? (n - start) t).isSome = true := by
  fun_induction boundaries with
  | case1 start c d t ih =>
      have hc := Char.utf8Size_pos c
      have hd := Char.utf8Size_pos d
      have hsize : size (c :: d :: t) = c.utf8Size + size (d :: t) := rfl
      have hrest : size (d :: t) = d.utf8Size + size t := rfl
      have hstep : n - start - c.utf8Size = n - (start + c.utf8Size) := by omega
      rw [List.mem_cons, ih, hsize]
      constructor
      · rintro (rfl | ⟨hlow, hhigh, hcut⟩)
        · refine ⟨by omega, by omega, ?_⟩
          rw [isSome_cut?_cons (by omega), hstep, Nat.sub_self]
          exact ⟨by omega, rfl⟩
        · refine ⟨by omega, by omega, ?_⟩
          rw [isSome_cut?_cons (by omega), hstep]
          exact ⟨by omega, hcut⟩
      · rintro ⟨hlow, hhigh, hcut⟩
        rw [isSome_cut?_cons (by omega), hstep] at hcut
        by_cases hn : n = start + c.utf8Size
        · exact .inl hn
        · exact .inr ⟨by omega, by omega, hcut.2⟩
  | case2 t start hshort =>
      simp only [List.not_mem_nil, false_iff, not_and]
      intro hlow hhigh hcut
      match t, hshort with
      | [], _ =>
          simp only [size] at hhigh
          omega
      | [c], _ =>
          rw [isSome_cut?_cons (by omega)] at hcut
          simp only [size] at hhigh
          omega
      | c :: d :: t, hshort => exact hshort c d t rfl

theorem pairwise_boundaries (start : Nat) (t : Text) :
    (start :: boundaries start t).Pairwise (· < ·) := by
  fun_induction boundaries with
  | case1 start c d t ih =>
      have hc := Char.utf8Size_pos c
      refine List.pairwise_cons.2 ⟨fun n hn => ?_, ih⟩
      rcases List.mem_cons.1 hn with rfl | hn
      · omega
      · have hlow := (mem_boundaries.1 hn).1
        omega
  | case2 => exact List.pairwise_singleton ..

end Text

theorem Carved.exists_last {items : List Nat} {stop start : Nat} {ps : List Piece}
    (h : Carved items stop start ps) : ∃ p, ps.getLast? = some p ∧ p.openEnd = false := by
  fun_induction Carved items stop start ps with
  | case1 => exact absurd h id
  | case2 start p => exact ⟨p, rfl, h.1⟩
  | case3 start p q more ih => exact ih h.2.2

theorem Carved.ne_nil {items : List Nat} {stop start : Nat} {ps : List Piece}
    (h : Carved items stop start ps) : ps ≠ [] := by
  rintro rfl
  exact h

namespace Splitter

section
variable {file : String} {id offset lines : Nat} {openStart : Bool} {ps : List Piece}

theorem map_text_labelFrom :
    (labelFrom file id offset lines openStart ps).map Chunk.text = ps.map Piece.text := by
  induction ps generalizing id offset lines openStart with
  | nil => rfl
  | cons p more ih => rw [labelFrom, List.map_cons, List.map_cons, ih]

theorem map_openEnd_labelFrom :
    (labelFrom file id offset lines openStart ps).map Chunk.openEnd = ps.map Piece.openEnd := by
  induction ps generalizing id offset lines openStart with
  | nil => rfl
  | cons p more ih => rw [labelFrom, List.map_cons, List.map_cons, ih]

theorem map_openEnd_label (file : String) (ps : List Piece) :
    (label file ps).map Chunk.openEnd = ps.map Piece.openEnd := map_openEnd_labelFrom

theorem length_labelFrom :
    (labelFrom file id offset lines openStart ps).length = ps.length := by
  have hlength := congrArg List.length (@map_text_labelFrom file id offset lines openStart ps)
  rwa [List.length_map, List.length_map] at hlength

/-- A label says how many pieces, bytes and line breaks are in front. -/
theorem getElem_labelFrom {i : Nat}
    (h : i < (labelFrom file id offset lines openStart ps).length) :
    (labelFrom file id offset lines openStart ps)[i].id = id + i ∧
      (labelFrom file id offset lines openStart ps)[i].byteOffset =
        offset + ((ps.take i).map fun p => Text.size p.text).sum ∧
      (labelFrom file id offset lines openStart ps)[i].lineOffset =
        lines + Text.lineBreaks ((ps.take i).map Piece.text).flatten := by
  induction ps generalizing id offset lines openStart i with
  | nil => cases h
  | cons p more ih =>
      cases i with
      | zero => exact ⟨rfl, rfl, rfl⟩
      | succ i =>
          obtain ⟨hid, hbytes, hlines⟩ := ih (Nat.lt_of_succ_lt_succ h)
          simp only [labelFrom, List.getElem_cons_succ, List.take_succ_cons, List.map_cons,
            List.sum_cons, List.flatten_cons, Text.lineBreaks_append, hid, hbytes, hlines]
          omega

theorem isChain_labelFrom : (labelFrom file id offset lines openStart ps).IsChain
    fun c d => c.precedes d = true ∧ c.openEnd = d.openStart := by
  induction ps generalizing id offset lines openStart with
  | nil => exact .nil
  | cons p more ih =>
      cases more with
      | nil => exact .singleton _
      | cons q more =>
          have hnext : (⟨file, p.text, id, offset, lines, openStart, p.openEnd, true⟩ :
              Chunk).endOffset = offset + Text.size p.text := rfl
          refine .cons_cons ⟨?_, rfl⟩ ih
          simp [Chunk.precedes, hnext]

end

theorem map_text_take_label (file : String) (ps : List Piece) (i : Nat) :
    ((label file ps).take i).map Chunk.text = (ps.take i).map Piece.text := by
  rw [List.map_take, List.map_take, label, map_text_labelFrom]

theorem map_size_take_label (file : String) (ps : List Piece) (i : Nat) :
    ((label file ps).take i).map (fun c => Text.size c.text) =
      (ps.take i).map fun p => Text.size p.text := by
  have hsizes := congrArg (List.map Text.size) (map_text_take_label file ps i)
  rwa [List.map_map, List.map_map] at hsizes

/-- Two or more pieces of a text, labelled one after the other. -/
theorem partition_label {file : String} {t : Text} {ps : List Piece}
    (hflat : (ps.map Piece.text).flatten = t)
    (hclosed : ∃ p, ps.getLast? = some p ∧ p.openEnd = false) (hmore : 1 < ps.length) :
    Chunk.Partition file t (label file ps) where
  flatten := by rw [label, map_text_labelFrom, hflat]
  file _ hc := (of_mem_labelFrom hc).1
  id i h := by
    have hid := (getElem_labelFrom h).1
    rwa [Nat.zero_add] at hid
  byteOffset i h := by
    have hbytes := (getElem_labelFrom h).2.1
    rw [map_size_take_label]
    rwa [Nat.zero_add] at hbytes
  lineOffset i h := by
    have hlines := (getElem_labelFrom h).2.2
    rw [map_text_take_label]
    rwa [Nat.zero_add] at hlines
  first := by
    cases ps with
    | nil => cases hmore
    | cons p more => exact ⟨_, rfl, rfl⟩
  last := by
    obtain ⟨p, hlast, hopen⟩ := hclosed
    have hends := congrArg List.getLast? (map_openEnd_label file ps)
    rw [List.getLast?_map, List.getLast?_map, hlast, Option.map_some, hopen] at hends
    obtain ⟨c, hc, hclosed⟩ := Option.map_eq_some_iff.1 hends
    exact ⟨c, hc, hclosed⟩
  joined := isChain_labelFrom
  provisional c hc := by
    rw [(of_mem_labelFrom hc).2, label, length_labelFrom, decide_eq_true hmore]

theorem partition_whole (file : String) (t : Text) :
    Chunk.Partition file t [Chunk.whole file t] where
  flatten := List.flatten_singleton
  file c hc := by rw [List.mem_singleton.1 hc]; rfl
  id i h := by
    obtain rfl := Nat.lt_one_iff.1 h
    rfl
  byteOffset i h := by
    obtain rfl := Nat.lt_one_iff.1 h
    rfl
  lineOffset i h := by
    obtain rfl := Nat.lt_one_iff.1 h
    rfl
  first := ⟨_, rfl, rfl⟩
  last := ⟨_, rfl, rfl⟩
  joined := .singleton _
  provisional c hc := by rw [List.mem_singleton.1 hc]; rfl

theorem prefix_takeBytes (n : Nat) (t : Text) : Text.takeBytes n t <+: t := by
  induction t generalizing n with
  | nil => exact List.prefix_refl []
  | cons c t ih =>
      rw [Text.takeBytes]
      split
      · exact (List.prefix_cons_inj c).2 (ih _)
      · exact List.nil_prefix

theorem prefix_window (limit : Nat) (t : Text) : window limit t <+: t := by
  unfold window
  split
  · exact List.take_prefix 1 t
  · exact prefix_takeBytes limit t

theorem prefix_throughLastBreak? {t front : Text} (h : Text.throughLastBreak? t = some front) :
    front <+: t := by
  induction t generalizing front with
  | nil => cases h
  | cons c t ih =>
      rw [Text.throughLastBreak?] at h
      split at h
      · rename_i more hmore
        obtain rfl := Option.some.inj h
        exact (List.prefix_cons_inj c).2 (ih hmore)
      · split at h
        · obtain rfl := Option.some.inj h
          exact (List.prefix_cons_inj c).2 List.nil_prefix
        · cases h

theorem exists_cut?_of_prefix {front t : Text} (h : front <+: t) :
    ∃ rest, Text.cut? (Text.size front) t = some (front, rest) := by
  obtain ⟨rest, hrest⟩ := h
  exact ⟨rest, Text.cut?_eq_some_iff.2 ⟨hrest, rfl⟩⟩

section
variable {limit : Nat} {items : List Nat} {whole : Text}
  (hitems : ∀ item ∈ items, item < Text.size whole → (Text.cut? item whole).isSome = true)
include hitems

/-- Every place where the rest of a text is to be cut lies between two characters. -/
theorem exists_cut?_cutPoint {before t : Text} (hwhole : before ++ t = whole) :
    ∃ parts, Text.cut? (cutPoint limit items (Text.size before) t).1 t = some parts := by
  have hsize : Text.size before + Text.size t = Text.size whole := by
    rw [← hwhole, Text.size_append]
  obtain ⟨rest, hwindow⟩ := prefix_window limit t
  have hfits := congrArg Text.size hwindow
  rw [Text.size_append] at hfits
  unfold cutPoint
  dsimp only
  split
  · rename_i item hfind
    have hmem := List.mem_reverse.1 (List.mem_of_find?_eq_some hfind)
    have hplace := List.find?_some hfind
    simp only [Bool.and_eq_true, decide_eq_true_eq] at hplace
    by_cases hend : item = Text.size whole
    · have hall : item - Text.size before = Text.size t := by omega
      rw [hall]
      exact ⟨(t, []), Text.cut?_eq_some_iff.2 ⟨List.append_nil t, rfl⟩⟩
    -- What stands in front of the item starts with what was cut off before.
    · obtain ⟨⟨a, b⟩, hcut⟩ := Option.isSome_iff_exists.1 (hitems item hmem (by omega))
      obtain ⟨hab, hitem⟩ := Text.cut?_eq_some_iff.1 hcut
      rw [← hwhole] at hab
      rcases List.append_eq_append_iff.1 hab with ⟨more, hbefore, -⟩ | ⟨more, ha, ht⟩
      · have hshort := congrArg Text.size hbefore
        rw [Text.size_append] at hshort
        omega
      · have hlong := congrArg Text.size ha
        rw [Text.size_append] at hlong
        exact ⟨(more, b), Text.cut?_eq_some_iff.2 ⟨ht.symm, by omega⟩⟩
  · split
    · rename_i lines hlines
      have hprefix := (prefix_throughLastBreak? hlines).trans (prefix_window limit t)
      obtain ⟨rest, hcut⟩ := exists_cut?_of_prefix hprefix
      exact ⟨_, hcut⟩
    · obtain ⟨rest, hcut⟩ := exists_cut?_of_prefix (prefix_window limit t)
      exact ⟨_, hcut⟩

/-- A text can be carved between its items. -/
theorem exists_carve_eq_some {before t : Text} (hwhole : before ++ t = whole) :
    ∃ ps, carve limit items (Text.size before) t = some ps := by
  generalize hstart : Text.size before = start
  fun_induction carve limit items start t generalizing before with
  | case1 start t hsize => exact ⟨_, rfl⟩
  | case2 start t hsize cut =>
      rename_i hcut
      obtain ⟨parts, hparts⟩ : ∃ parts,
          Text.cut? (cutPoint limit items (Text.size before) t).1 t = some parts :=
        exists_cut?_cutPoint hitems hwhole
      rw [hstart] at hparts
      rw [hparts] at hcut
      cases hcut
  | case3 start t hsize cut front rest hcut =>
      rename_i ih
      obtain ⟨hdivides, hfront⟩ := Text.cut?_eq_some_iff.1 hcut
      obtain ⟨ps, hps⟩ := @ih (before ++ front)
        (by rw [List.append_assoc, hdivides, hwhole])
        (by rw [Text.size_append, hstart, hfront])
      exact ⟨_, by rw [hps, Option.map_some]⟩

end

/-- A text beyond the limit has more than one piece. -/
theorem one_lt_length_carve {limit start : Nat} {items : List Nat} {t : Text} {ps : List Piece}
    (hlarge : limit < Text.size t) (h : carve limit items start t = some ps) :
    1 < ps.length := by
  rw [carve, if_neg (by omega)] at h
  dsimp only at h
  split at h
  · cases h
  · obtain ⟨more, hmore, rfl⟩ := Option.map_eq_some_iff.1 h
    have hne := (carve_carved hmore).2.ne_nil
    have hpos := List.length_pos_of_ne_nil hne
    rw [List.length_cons]
    omega

/-- Splitting between items succeeds. -/
theorem exists_splitAtItems_eq_some (s : Splitter) (file : String) {t : Text} {items : List Nat}
    (hitems : ∀ item ∈ items, item < Text.size t → (Text.cut? item t).isSome = true) :
    ∃ cs, s.splitAtItems file t items = some cs ∧ Chunk.Partition file t cs := by
  rw [splitAtItems]
  split
  · rename_i hlarge
    obtain ⟨ps, hcarve⟩ : ∃ ps, carve s.limit items 0 t = some ps :=
      exists_carve_eq_some hitems (List.nil_append t)
    obtain ⟨hflat, hcarved⟩ := carve_carved hcarve
    have hmore := one_lt_length_carve (of_decide_eq_true hlarge) hcarve
    exact ⟨label file ps, by rw [hcarve, Option.map_some],
      partition_label hflat hcarved.exists_last hmore⟩
  · exact ⟨_, rfl, partition_whole file t⟩

/-- Where the parts of a text start if it starts at byte `start`, the first part excepted. -/
def seams : Nat → List Text → List Nat
  | start, part :: next :: more =>
      (start + Text.size part) :: seams (start + Text.size part) (next :: more)
  | _, _ => []

theorem seams_cons_append (start : Nat) (c : Char) (part : Text) (more : List Text) :
    seams start ((c :: part) :: more) = seams (start + c.utf8Size) (part :: more) := by
  cases more with
  | nil => rfl
  | cons next more => rw [seams, seams, Text.size, Nat.add_assoc]

theorem segments_ne_nil (wanted : Nat → Bool) (start : Nat) (t : Text) :
    segments wanted start t ≠ [] := by
  cases t with
  | nil => exact List.cons_ne_nil _ _
  | cons c t =>
      rw [segments]
      split
      · exact List.cons_ne_nil _ _
      · split <;> exact List.cons_ne_nil _ _

/-- A text is broken at the wanted places between its characters. -/
theorem seams_segments (wanted : Nat → Bool) (start : Nat) (t : Text) :
    seams start (segments wanted start t) = (Text.boundaries start t).filter wanted := by
  induction t generalizing start with
  | nil => rfl
  | cons c t ih =>
      have hrest := ih (start + c.utf8Size)
      rw [segments]
      split
      · rename_i hnone
        exact absurd hnone (segments_ne_nil _ _ _)
      · rename_i part more hmore
        rw [hmore] at hrest
        cases t with
        | nil =>
            obtain ⟨rfl, rfl⟩ := List.cons.inj hmore
            rfl
        | cons d t =>
            rw [Text.boundaries, List.filter_cons]
            by_cases hwanted : wanted (start + c.utf8Size) = true
            · rw [if_pos (by simp [hwanted]), if_pos hwanted, ← hrest]
              rfl
            · rw [if_neg (by simp [hwanted]), if_neg hwanted, ← hrest, seams_cons_append]

theorem map_byteOffset_labelFrom {file : String} {id offset lines : Nat} {openStart : Bool}
    (p : Piece) (more : List Piece) :
    (labelFrom file id offset lines openStart (p :: more)).map Chunk.byteOffset =
      offset :: seams offset ((p :: more).map Piece.text) := by
  induction more generalizing p id offset lines openStart with
  | nil => rfl
  | cons q more ih =>
      rw [labelFrom, List.map_cons, ih]
      rfl

theorem openEnd_of_mem_dropLast_openInside {parts : List Text} {p : Piece}
    (h : p ∈ (openInside parts).dropLast) : p.openEnd = true := by
  fun_induction openInside with
  | case1 => cases h
  | case2 => cases h
  | case3 t more hmore ih =>
      have hne : openInside more ≠ [] := by
        intro hnil
        have htexts := map_text_openInside more
        rw [hnil] at htexts
        exact hmore (by simp [← htexts])
      rw [List.dropLast_cons_of_ne_nil hne] at h
      rcases List.mem_cons.1 h with rfl | h
      · rfl
      · exact ih h

theorem exists_last_openInside {parts : List Text} (h : parts ≠ []) :
    ∃ p, (openInside parts).getLast? = some p ∧ p.openEnd = false := by
  fun_induction openInside with
  | case1 => exact absurd rfl h
  | case2 t => exact ⟨_, rfl, rfl⟩
  | case3 t more hmore ih =>
      obtain ⟨p, hlast, hclosed⟩ := ih fun hnil => hmore (by simp [hnil])
      exact ⟨p, by rw [List.getLast?_cons, hlast]; rfl, hclosed⟩

/-- What cutting a file at given offsets comes to. -/
theorem cutAt_cases (file : String) (t : Text) (offsets : List Nat) :
    (Text.boundaries 0 t).filter (offsets.contains ·) = [] ∧
        cutAt file t offsets = [Chunk.whole file t] ∨
      ∃ ps : List Piece, cutAt file t offsets = label file ps ∧ 1 < ps.length ∧
        ps.map Piece.text = segments (offsets.contains ·) 0 t ∧
        (∃ p, ps.getLast? = some p ∧ p.openEnd = false) ∧
        ∀ p ∈ ps.dropLast, p.openEnd = true := by
  have hseams := seams_segments (offsets.contains ·) 0 t
  rw [cutAt]
  split
  · rename_i hnil
    exact absurd hnil (segments_ne_nil _ _ _)
  · rename_i part hone
    rw [hone] at hseams
    exact .inl ⟨hseams.symm, rfl⟩
  · rename_i hnil hone
    have htexts := map_text_openInside (segments (offsets.contains ·) 0 t)
    have hlength := congrArg List.length htexts
    rw [List.length_map] at hlength
    refine .inr ⟨_, rfl, ?_, htexts, exists_last_openInside hnil,
      fun p hp => openEnd_of_mem_dropLast_openInside hp⟩
    rw [hlength]
    cases hparts : segments (offsets.contains ·) 0 t with
    | nil => exact absurd hparts hnil
    | cons part more =>
        cases more with
        | nil => exact absurd hparts (hone part)
        | cons next rest => simp

theorem map_byteOffset_cutAt (file : String) (t : Text) (offsets : List Nat) :
    (cutAt file t offsets).map Chunk.byteOffset =
      0 :: (Text.boundaries 0 t).filter (offsets.contains ·) := by
  rcases cutAt_cases file t offsets with ⟨hnone, hwhole⟩ | ⟨ps, hlabel, hmore, htexts, -, -⟩
  · rw [hwhole, hnone]
    rfl
  · cases ps with
    | nil => cases hmore
    | cons p more =>
        rw [hlabel, label, map_byteOffset_labelFrom, htexts, seams_segments]

theorem partition_cutAt (file : String) (t : Text) (offsets : List Nat) :
    Chunk.Partition file t (cutAt file t offsets) := by
  rcases cutAt_cases file t offsets with ⟨-, hwhole⟩ | ⟨ps, hlabel, hmore, htexts, hlast, -⟩
  · rw [hwhole]
    exact partition_whole file t
  · rw [hlabel]
    exact partition_label (by rw [htexts, flatten_segments]) hlast hmore

/-- Cutting at offsets is a cut at each of them that lies between two characters, once. -/
structure CutsAt (t : Text) (offsets : List Nat) (cs : List Chunk) : Prop where
  mem_iff : ∀ n, n ∈ cs.tail.map Chunk.byteOffset ↔
    n ∈ offsets ∧ 0 < n ∧ n < Text.size t ∧ (Text.cut? n t).isSome = true
  increasing : (cs.map Chunk.byteOffset).Pairwise (· < ·)
  openInside : ∀ c ∈ cs.dropLast, c.openEnd = true

theorem cutsAt_cutAt (file : String) (t : Text) (offsets : List Nat) :
    CutsAt t offsets (cutAt file t offsets) := by
  have hoffsets := map_byteOffset_cutAt file t offsets
  constructor
  · intro n
    rw [List.map_tail, hoffsets, List.tail_cons, List.mem_filter, Text.mem_boundaries]
    simp [and_comm]
  · rw [hoffsets]
    exact (Text.pairwise_boundaries 0 t).sublist (List.filter_sublist.cons_cons 0)
  · rcases cutAt_cases file t offsets with ⟨-, hwhole⟩ | ⟨ps, hlabel, -, -, -, hopen⟩
    · rw [hwhole]
      exact fun c hc => absurd hc List.not_mem_nil
    · intro c hc
      have hends := congrArg List.dropLast (map_openEnd_label file ps)
      rw [← List.map_dropLast, ← List.map_dropLast] at hends
      rw [hlabel] at hc
      have hmem := List.mem_map_of_mem (f := Chunk.openEnd) hc
      rw [hends] at hmem
      obtain ⟨p, hp, hsame⟩ := List.mem_map.1 hmem
      rw [← hsame]
      exact hopen p hp

/-- Every way to split a file gives its parts in their order, each labelled with its place. -/
theorem partition_of_split (s : Splitter) (file : String) (t : Text) :
    (∀ items, (∀ item ∈ items, item < Text.size t → (Text.cut? item t).isSome = true) →
      ∃ cs, s.splitAtItems file t items = some cs ∧ Chunk.Partition file t cs) ∧
    (∃ cs, s.split file t = some cs ∧ Chunk.Partition file t cs) ∧
    ∀ offsets, Chunk.Partition file t (cutAt file t offsets) ∧
      CutsAt t offsets (cutAt file t offsets) := by
  refine ⟨fun items hitems => s.exists_splitAtItems_eq_some file hitems, ?_, fun offsets => ?_⟩
  · exact s.exists_splitAtItems_eq_some file fun item hitem => absurd hitem List.not_mem_nil
  · exact ⟨partition_cutAt file t offsets, cutsAt_cutAt file t offsets⟩

/-- A text with a character of two bytes, split between items that are not in order, and cut at
offsets of which some stand twice, inside the character or outside the text. -/
theorem partition_of_split_accented :
    let s : Splitter := ⟨4⟩
    let t : Text := ['a', 'é', '\n', 'b', '\n', 'c']
    (∀ item ∈ [6, 3], item < Text.size t → (Text.cut? item t).isSome = true) ∧
      s.splitAtItems "f" t [6, 3] =
        some [⟨"f", ['a', 'é'], 0, 0, 0, false, false, true⟩,
          ⟨"f", ['\n', 'b', '\n', 'c'], 1, 3, 0, false, false, true⟩] ∧
      (∃ cs, s.splitAtItems "f" t [6, 3] = some cs ∧ Chunk.Partition "f" t cs) ∧
      cutAt "f" t [5, 2, 9, 0, 3, 5, 7] =
        [⟨"f", ['a', 'é'], 0, 0, 0, false, true, true⟩,
          ⟨"f", ['\n', 'b'], 1, 3, 0, true, true, true⟩,
          ⟨"f", ['\n', 'c'], 2, 5, 1, true, false, true⟩] ∧
      CutsAt t [5, 2, 9, 0, 3, 5, 7] (cutAt "f" t [5, 2, 9, 0, 3, 5, 7]) := by
  intro s t
  have hitems : ∀ item ∈ [6, 3], item < Text.size t → (Text.cut? item t).isSome = true := by
    decide
  obtain ⟨hsplit, -, hcut⟩ := partition_of_split s "f" t
  exact ⟨hitems, by decide +kernel, hsplit [6, 3] hitems, by decide, (hcut [5, 2, 9, 0, 3, 5, 7]).2⟩

end Splitter

end ClonePrint
