import ClonePrint.Proofs.Labelling

/-!
# Every cut is the best one in its window

The window in which a large file is cut reaches as far as the limit allows, and over one
character if that alone is wider than the limit. In the window the last start of an item is
preferred, then the place behind the last line break, then the end of the window. So every
piece keeps to the limit unless it is a single wide character.
-/
namespace ClonePrint

namespace Text

theorem isSome_cut?_append {before t : Text} {n : Nat} (h : size before ≤ n) :
    (cut? n (before ++ t)).isSome = true ↔ (cut? (n - size before) t).isSome = true := by
  induction before generalizing n with
  | nil => rfl
  | cons c before ih =>
      have hc := Char.utf8Size_pos c
      simp only [size] at h
      rw [List.cons_append, isSome_cut?_cons (by omega), ih (by omega), size, Nat.sub_sub]
      exact and_iff_right (by omega)

theorem size_takeBytes_le (n : Nat) (t : Text) : size (takeBytes n t) ≤ n := by
  induction t generalizing n with
  | nil => exact Nat.zero_le n
  | cons c t ih =>
      unfold takeBytes
      split
      · have hrest := ih (n - c.utf8Size)
        simp only [size]
        omega
      · exact Nat.zero_le n

theorem le_size_takeBytes {m n : Nat} {t : Text} (hcut : (cut? m t).isSome = true) (hm : m ≤ n) :
    m ≤ size (takeBytes n t) := by
  induction t generalizing m n with
  | nil =>
      cases m with
      | zero => exact Nat.zero_le _
      | succ m => cases hcut
  | cons c t ih =>
      by_cases hzero : m = 0
      · omega
      · obtain ⟨hc, hrest⟩ := (isSome_cut?_cons (by omega) c t).1 hcut
        have hmore := ih hrest (Nat.sub_le_sub_right hm c.utf8Size)
        rw [takeBytes, if_pos (by omega), size]
        omega

theorem throughLastBreak?_eq_none_iff {t : Text} : throughLastBreak? t = none ↔ '\n' ∉ t := by
  induction t with
  | nil => simp [throughLastBreak?]
  | cons c t ih =>
      unfold throughLastBreak?
      split
      · rename_i front hfront
        have hmem : '\n' ∈ t := by
          by_contra hnot
          rw [ih.2 hnot] at hfront
          cases hfront
        simp [hmem]
      · rename_i hnone
        have hnot := ih.1 hnone
        by_cases hc : c = '\n'
        · simp [hc]
        · simp [hc, hnot, Ne.symm hc]

theorem exists_of_throughLastBreak? {t front : Text} (h : throughLastBreak? t = some front) :
    ∃ lines rest, front = lines ++ ['\n'] ∧ front ++ rest = t ∧ '\n' ∉ rest := by
  induction t generalizing front with
  | nil => cases h
  | cons c t ih =>
      unfold throughLastBreak? at h
      split at h
      · rename_i more hmore
        obtain rfl := Option.some.inj h
        obtain ⟨lines, rest, hlines, hrest, hnot⟩ := ih hmore
        exact ⟨c :: lines, rest, by rw [hlines]; rfl, by rw [← hrest]; rfl, hnot⟩
      · rename_i hnone
        split at h
        · rename_i hc
          obtain rfl := Option.some.inj h
          exact ⟨[], t, by rw [hc]; rfl, rfl, throughLastBreak?_eq_none_iff.1 hnone⟩
        · cases h

end Text

namespace Splitter

/-- The window of a text from byte `s` on ends at byte `e`: at the last boundary within the
limit, or behind the first character if that alone is wider. -/
structure WindowEnd (limit : Nat) (t : Text) (s e : Nat) : Prop where
  after : s < e
  boundary : (Text.cut? e t).isSome = true
  widest : ∀ n, (Text.cut? n t).isSome = true → s < n → n ≤ s + limit → n ≤ e
  fits : e ≤ s + limit ∨ ∀ n, (Text.cut? n t).isSome = true → s < n → e ≤ n

/-- The best place to cut the window from byte `s` to byte `e`, and whether the cut is open: the
last start of an item, or the last line break if no item starts there, or else the end. -/
inductive BestCut (items : List Nat) (t : Text) (s e : Nat) : Nat → Bool → Prop
  | item {n : Nat} (mem : n ∈ items) (after : s < n) (inside : n ≤ e)
      (last : ∀ m ∈ items, s < m → m ≤ e → m ≤ n) : BestCut items t s e n false
  | line {n : Nat} {lines rest : Text} (none : ∀ m ∈ items, s < m → ¬ m ≤ e)
      (before : Text.slice? s n t = some (lines ++ ['\n']))
      (behind : Text.slice? n e t = some rest) (last : '\n' ∉ rest) : BestCut items t s e n true
  | stop {window : Text} (none : ∀ m ∈ items, s < m → ¬ m ≤ e)
      (whole : Text.slice? s e t = some window) (unbroken : '\n' ∉ window) :
      BestCut items t s e e true

theorem BestCut.le {items : List Nat} {t : Text} {s e n : Nat} {isOpen : Bool}
    (h : BestCut items t s e n isOpen) : n ≤ e := by
  cases h with
  | item mem after inside last => exact inside
  | line none before behind last =>
      obtain ⟨front, back, -, -, hsize⟩ := Text.slice?_eq_some_iff.1 behind
      omega
  | stop none whole unbroken => exact Nat.le_refl e

theorem window_cases (limit : Nat) {t : Text} (h : t ≠ []) :
    window limit t = Text.takeBytes limit t ∧ Text.size (window limit t) ≤ limit ∨
      ∃ c rest, t = c :: rest ∧ limit < c.utf8Size ∧ window limit t = [c] := by
  cases t with
  | nil => exact absurd rfl h
  | cons c rest =>
      have hsize := Text.size_takeBytes_le limit (c :: rest)
      unfold window
      by_cases hc : c.utf8Size ≤ limit
      · simp only [Text.takeBytes, if_pos hc] at hsize ⊢
        exact .inl ⟨trivial, hsize⟩
      · refine .inr ⟨c, rest, rfl, by omega, ?_⟩
        simp only [Text.takeBytes, if_neg hc]
        rfl

theorem windowEnd_window {limit : Nat} {before t : Text} (hne : t ≠ []) :
    WindowEnd limit (before ++ t) (Text.size before)
      (Text.size before + Text.size (window limit t)) := by
  have hpos := size_pos (@window_ne_nil limit t hne)
  have hrest {n : Nat} (hn : Text.size before < n)
      (hcut : (Text.cut? n (before ++ t)).isSome = true) :
      (Text.cut? (n - Text.size before) t).isSome = true :=
    (Text.isSome_cut?_append (Nat.le_of_lt hn)).1 hcut
  constructor
  · omega
  · rw [Text.isSome_cut?_append (Nat.le_add_right ..), Nat.add_sub_cancel_left]
    obtain ⟨rest, hcut⟩ := exists_cut?_of_prefix (prefix_window limit t)
    exact Option.isSome_of_eq_some hcut
  · intro n hcut hn hlimit
    rcases window_cases limit hne with ⟨hwindow, -⟩ | ⟨c, rest, rfl, hwide, hwindow⟩
    · have hle := Text.le_size_takeBytes (hrest hn hcut)
        (show n - Text.size before ≤ limit by omega)
      rw [hwindow]
      omega
    · have hle := ((Text.isSome_cut?_cons (by omega) c rest).1 (hrest hn hcut)).1
      omega
  · rcases window_cases limit hne with ⟨-, hsize⟩ | ⟨c, rest, rfl, hwide, hwindow⟩
    · exact .inl (by omega)
    · refine .inr fun n hcut hn => ?_
      have hle := ((Text.isSome_cut?_cons (by omega) c rest).1 (hrest hn hcut)).1
      rw [hwindow]
      simp only [Text.size]
      omega

section
variable {items : List Nat} (hsorted : items.Pairwise (· ≤ ·))
include hsorted

theorem bestCut_cutPoint (limit : Nat) (before t : Text) :
    BestCut items (before ++ t) (Text.size before) (Text.size before + Text.size (window limit t))
      (Text.size before + (cutPoint limit items (Text.size before) t).1)
      (cutPoint limit items (Text.size before) t).2 := by
  obtain ⟨after, hwindow⟩ := prefix_window limit t
  unfold cutPoint
  dsimp only
  split
  · rename_i item hfind
    obtain ⟨hplace, later, earlier, hitems, hlater⟩ := List.find?_eq_some_iff_append.1 hfind
    simp only [Bool.and_eq_true, decide_eq_true_eq] at hplace
    have hitem : Text.size before + (item - Text.size before) = item := by omega
    rw [hitem]
    refine .item (List.mem_reverse.1 (List.mem_of_find?_eq_some hfind)) hplace.1 hplace.2
      fun m hm hstart hstop => ?_
    rw [← List.mem_reverse, hitems] at hm
    rcases List.mem_append.1 hm with hm | hm
    · have hfails := hlater m hm
      simp [hstart, hstop] at hfails
    -- The items are searched from the back, so what follows is not larger.
    · have hback := List.pairwise_reverse.2 hsorted
      rw [hitems] at hback
      rcases List.mem_cons.1 hm with rfl | hm
      · exact Nat.le_refl m
      · exact (List.pairwise_cons.1 (List.pairwise_append.1 hback).2.1).1 m hm
  · rename_i hfind
    have hnone : ∀ m ∈ items, Text.size before < m →
        ¬ m ≤ Text.size before + Text.size (window limit t) := by
      intro m hm hstart hstop
      have hfails := List.find?_eq_none.1 hfind m (List.mem_reverse.2 hm)
      simp [hstart, hstop] at hfails
    split
    · rename_i front hfront
      obtain ⟨lines, rest, hlines, hrest, hlast⟩ := Text.exists_of_throughLastBreak? hfront
      have hsize := congrArg Text.size hrest
      rw [Text.size_append] at hsize
      have hbefore : Text.slice? (Text.size before) (Text.size before + Text.size front)
          (before ++ t) = some (lines ++ ['\n']) := by
        rw [← hlines, ← hwindow, ← hrest]
        exact Text.slice?_eq_some_iff.2 ⟨before, rest ++ after, by simp, rfl, rfl⟩
      have hbehind : Text.slice? (Text.size before + Text.size front)
          (Text.size before + Text.size (window limit t)) (before ++ t) = some rest := by
        refine Text.slice?_eq_some_iff.2 ⟨before ++ front, after, ?_, Text.size_append .., ?_⟩
        · rw [← hwindow, ← hrest]
          simp
        · omega
      exact .line hnone hbefore hbehind hlast
    · rename_i hbreak
      exact .stop hnone (Text.slice?_eq_some_iff.2 ⟨before, after, by rw [hwindow], rfl, rfl⟩)
        (Text.throughLastBreak?_eq_none_iff.1 hbreak)

theorem cutPoint_le_window (limit : Nat) (before t : Text) :
    (cutPoint limit items (Text.size before) t).1 ≤ Text.size (window limit t) :=
  Nat.le_of_add_le_add_left (bestCut_cutPoint hsorted limit before t).le

end

/-- One chunk is cut off in front of another, because the text from its beginning on is beyond
the limit. -/
structure CutOff (limit : Nat) (items : List Nat) (t : Text) (c d : Chunk) : Prop where
  large : c.byteOffset + limit < Text.size t
  best : ∃ e, WindowEnd limit t c.byteOffset e ∧
    BestCut items t c.byteOffset e d.byteOffset c.openEnd

/-- A text is cut only where it has to be, at the best places, and into pieces of a bounded
size. -/
structure CutBest (limit : Nat) (items : List Nat) (t : Text) (cs : List Chunk) : Prop where
  cut : cs.IsChain (CutOff limit items t)
  last : ∃ c, cs.getLast? = some c ∧ Text.size t ≤ c.byteOffset + limit
  bounded : ∀ c ∈ cs, Text.size c.text ≤ limit ∨ ∃ x, c.text = [x] ∧ limit < x.utf8Size
  nonempty : 4 ≤ limit → ∀ c ∈ cs, c.text ≠ []

theorem CutBest.cons {limit : Nat} {items : List Nat} {t : Text} {c d : Chunk} {cs : List Chunk}
    (h : CutBest limit items t (d :: cs)) (hcut : CutOff limit items t c d)
    (hbounded : Text.size c.text ≤ limit ∨ ∃ x, c.text = [x] ∧ limit < x.utf8Size)
    (hne : c.text ≠ []) : CutBest limit items t (c :: d :: cs) := by
  constructor
  · exact .cons_cons hcut h.cut
  · obtain ⟨e, hlast, hsize⟩ := h.last
    exact ⟨e, by rw [List.getLast?_cons_cons, hlast], hsize⟩
  · intro x hx
    rcases List.mem_cons.1 hx with rfl | hx
    · exact hbounded
    · exact h.bounded x hx
  · intro hlimit x hx
    rcases List.mem_cons.1 hx with rfl | hx
    · exact hne
    · exact h.nonempty hlimit x hx

/-- What a cut takes off a text keeps to the limit, or it is one wide character. -/
theorem bounded_of_le_window {limit : Nat} {front rest : Text} (hne : front ≠ [])
    (h : Text.size front ≤ Text.size (window limit (front ++ rest))) :
    Text.size front ≤ limit ∨ ∃ x, front = [x] ∧ limit < x.utf8Size := by
  have hwhole : front ++ rest ≠ [] := List.append_ne_nil_of_left_ne_nil hne rest
  rcases window_cases limit hwhole with ⟨-, hsize⟩ | ⟨c, more, hc, hwide, hwindow⟩
  · exact .inl (Nat.le_trans h hsize)
  · cases front with
    | nil => exact absurd rfl hne
    | cons x front =>
        obtain ⟨rfl, -⟩ := List.cons.inj hc
        cases front with
        | nil => exact .inr ⟨x, rfl, hwide⟩
        | cons y front =>
            have hy := Char.utf8Size_pos y
            rw [hwindow] at h
            simp only [Text.size] at h
            omega

/-- A cut takes something off, and this keeps to the limit or is one wide character. -/
theorem bounded_of_cutPoint {limit : Nat} {items : List Nat} {before front rest : Text}
    (hsorted : items.Pairwise (· ≤ ·)) (hne : front ++ rest ≠ [])
    (hcut : Text.size front = (cutPoint limit items (Text.size before) (front ++ rest)).1) :
    front ≠ [] ∧ (Text.size front ≤ limit ∨ ∃ x, front = [x] ∧ limit < x.utf8Size) := by
  have hpos : 0 < (cutPoint limit items (Text.size before) (front ++ rest)).1 := cutPoint_pos hne
  have hle := cutPoint_le_window hsorted limit before (front ++ rest)
  have hfront : front ≠ [] := by
    rintro rfl
    simp only [Text.size] at hcut
    omega
  exact ⟨hfront, bounded_of_le_window hfront (Nat.le_trans (Nat.le_of_eq hcut) hle)⟩

theorem cutBest_carve {limit start : Nat} {items : List Nat} {whole before t : Text}
    {ps : List Piece} {file : String} {id lines : Nat} {openStart : Bool}
    (hsorted : items.Pairwise (· ≤ ·)) (hwhole : before ++ t = whole)
    (hstart : Text.size before = start) (hne : 4 ≤ limit → t ≠ [])
    (h : carve limit items start t = some ps) :
    CutBest limit items whole (labelFrom file id start lines openStart ps) := by
  fun_induction carve limit items start t generalizing before ps id lines openStart with
  | case1 start t hsize =>
      obtain rfl := Option.some.inj h
      have hlength := Text.size_append before t
      rw [hwhole, hstart] at hlength
      refine ⟨.singleton _, ⟨_, rfl, ?_⟩, fun c hc => .inl ?_, fun hlimit c hc => ?_⟩
      · change Text.size whole ≤ start + limit
        omega
      · rw [List.mem_singleton.1 hc]
        exact hsize
      · rw [List.mem_singleton.1 hc]
        exact hne hlimit
  | case2 => cases h
  | case3 start t hsize cut front rest hcut =>
      rename_i ih
      obtain ⟨more, hmore, rfl⟩ := Option.map_eq_some_iff.1 h
      obtain ⟨rfl, hfront⟩ := Text.cut?_eq_some_iff.1 hcut
      have htext : front ++ rest ≠ [] := by
        intro hnil
        rw [hnil] at hsize
        exact hsize (Nat.zero_le _)
      obtain ⟨hfrontne, hbounded⟩ :=
        @bounded_of_cutPoint limit items before front rest hsorted htext (by rw [hstart, hfront])
      have hlength := Text.size_append before (front ++ rest)
      rw [hwhole, hstart] at hlength
      have hrest : 4 ≤ limit → rest ≠ [] := by
        rintro hlimit rfl
        rw [List.append_nil] at hsize
        rcases hbounded with hfits | ⟨x, -, hwide⟩
        · exact hsize hfits
        · have hfour := x.utf8Size_le_four
          omega
      have hcuts := @ih (before ++ front) more (id + 1) (lines + Text.lineBreaks front) cut.2
        (by rw [List.append_assoc, hwhole]) (by rw [Text.size_append, hstart, hfront]) hrest hmore
      cases more with
      | nil => exact absurd rfl (carve_carved hmore).2.ne_nil
      | cons p more =>
          rw [labelFrom, hfront]
          refine hcuts.cons ⟨?_, ?_⟩ hbounded hfrontne
          · dsimp only
            omega
          · have hwindow := @windowEnd_window limit before _ htext
            have hbest := bestCut_cutPoint hsorted limit before (front ++ rest)
            rw [hwhole, hstart] at hwindow hbest
            exact ⟨_, hwindow, hbest⟩

theorem cutBest_splitAtItems {s : Splitter} {file : String} {t : Text} {items : List Nat}
    {cs : List Chunk} (hlarge : s.limit < Text.size t) (hsorted : items.Pairwise (· ≤ ·))
    (h : s.splitAtItems file t items = some cs) : CutBest s.limit items t cs := by
  rw [splitAtItems, if_pos (show s.needsSplit t = true from decide_eq_true hlarge)] at h
  obtain ⟨ps, hcarve, rfl⟩ := Option.map_eq_some_iff.1 h
  have hne : t ≠ [] := by
    rintro rfl
    cases hlarge
  exact cutBest_carve hsorted (List.nil_append t) rfl (fun _ => hne) hcarve

/-- A text beyond the limit is split into pieces of a bounded size, with every cut the best one
in its window. -/
theorem exists_best_cuts (s : Splitter) (file : String) {t : Text} {items : List Nat}
    (hlarge : s.limit < Text.size t) (hsorted : items.Pairwise (· ≤ ·))
    (hitems : ∀ item ∈ items, item < Text.size t → (Text.cut? item t).isSome = true) :
    ∃ cs, s.splitAtItems file t items = some cs ∧ Chunk.Partition file t cs ∧
      CutBest s.limit items t cs := by
  obtain ⟨cs, hcs, hpartition⟩ := s.exists_splitAtItems_eq_some file hitems
  exact ⟨cs, hcs, hpartition, cutBest_splitAtItems hlarge hsorted hcs⟩

/-- A text that is cut behind a line break, in front of a character that would not fit, and at
the start of an item. -/
theorem exists_best_cuts_accented :
    let s : Splitter := ⟨4⟩
    let t : Text := ['a', '\n', 'b', 'é', 'é', 'c', 'd', 'e', 'f']
    s.limit < Text.size t ∧ [0, 7].Pairwise (· ≤ ·) ∧
      (∀ item ∈ [0, 7], item < Text.size t → (Text.cut? item t).isSome = true) ∧
      s.splitAtItems "f" t [0, 7] =
        some [⟨"f", ['a', '\n'], 0, 0, 0, false, true, true⟩,
          ⟨"f", ['b', 'é'], 1, 2, 1, true, true, true⟩,
          ⟨"f", ['é'], 2, 5, 1, true, false, true⟩,
          ⟨"f", ['c', 'd', 'e', 'f'], 3, 7, 1, false, false, true⟩] ∧
      ∃ cs, s.splitAtItems "f" t [0, 7] = some cs ∧ Chunk.Partition "f" t cs ∧
        CutBest s.limit [0, 7] t cs := by
  intro s t
  have hlarge : s.limit < Text.size t := by decide
  have hitems : ∀ item ∈ [0, 7], item < Text.size t → (Text.cut? item t).isSome = true := by
    decide
  exact ⟨hlarge, by decide, hitems, by decide +kernel, exists_best_cuts s "f" hlarge (by decide) hitems⟩

end Splitter

end ClonePrint
