import ClonePrint.Proofs.Deciding
import ClonePrint.Proofs.Joining

/-!
# Where the pieces of a file lie

A chunk lies within a file when its text is the part of the file at its offset
and its line offset counts the line breaks in front of it. The pieces into which
a file is split lie within it, and every byte of the file is in exactly one of
them. Dividing a chunk, joining two neighbours and changing the edges of a chunk
preserve both properties.
-/
namespace ClonePrint

namespace Text

/-- A text can be divided after a number of bytes in one way only. -/
theorem append_inj {a b c d : Text} (h : a ++ b = c ++ d) (hsize : size a = size c) :
    a = c ∧ b = d := by
  have ha : cut? (size a) (a ++ b) = some (a, b) := cut?_eq_some_iff.2 ⟨rfl, rfl⟩
  have hc : cut? (size a) (a ++ b) = some (c, d) := cut?_eq_some_iff.2 ⟨h.symm, hsize.symm⟩
  simpa using ha.symm.trans hc

theorem slice?_eq_some_iff {start stop : Nat} {t part : Text} :
    slice? start stop t = some part ↔
      ∃ front back, front ++ (part ++ back) = t ∧ size front = start ∧ start + size part = stop := by
  unfold slice?
  constructor
  · intro h
    split at h
    · rename_i hle
      obtain ⟨⟨front, rest⟩, hfront, h⟩ := Option.bind_eq_some_iff.1 h
      obtain ⟨⟨middle, back⟩, hpart, rfl⟩ := Option.map_eq_some_iff.1 h
      obtain ⟨rfl, hsize⟩ := cut?_eq_some_iff.1 hfront
      obtain ⟨hrest, hstop⟩ := cut?_eq_some_iff.1 hpart
      dsimp only at hrest hstop
      refine ⟨front, back, by rw [hrest], hsize, ?_⟩
      dsimp only
      omega
    · cases h
  · rintro ⟨front, back, rfl, rfl, rfl⟩
    have hfront : cut? (size front) (front ++ (part ++ back)) = some (front, part ++ back) :=
      cut?_eq_some_iff.2 ⟨rfl, rfl⟩
    have hpart : cut? (size part) (part ++ back) = some (part, back) :=
      cut?_eq_some_iff.2 ⟨rfl, rfl⟩
    simp [hfront, hpart]

/-- Two parts of a text that follow each other are one part. -/
theorem slice?_append {i j k : Nat} {t a b : Text} (ha : slice? i j t = some a)
    (hb : slice? j k t = some b) : slice? i k t = some (a ++ b) := by
  obtain ⟨front, back, rfl, rfl, rfl⟩ := slice?_eq_some_iff.1 ha
  obtain ⟨front', back', hwhole, hsize, rfl⟩ := slice?_eq_some_iff.1 hb
  have hfront : front' ++ (b ++ back') = (front ++ a) ++ back := by
    rw [hwhole, List.append_assoc]
  obtain ⟨rfl, rfl⟩ := append_inj hfront (by rw [hsize, size_append])
  apply slice?_eq_some_iff.2
  refine ⟨front, back', by simp, rfl, ?_⟩
  rw [size_append, Nat.add_assoc]

end Text

namespace Chunk

/-- The chunk is the part of the text that its offsets say. -/
def Within (whole : Text) (c : Chunk) : Prop :=
  ∃ before after, before ++ (c.text ++ after) = whole ∧
    Text.size before = c.byteOffset ∧ Text.lineBreaks before = c.lineOffset

/-- Byte `i` of the file is in the chunk. -/
def covers (file : String) (i : Nat) (c : Chunk) : Bool :=
  decide (c.file = file ∧ c.byteOffset ≤ i ∧ i < c.endOffset)

theorem Within.front {whole skipped text : Text} {c : Chunk} (h : c.Within whole)
    (hdivides : skipped ++ text = c.text) : (c.front skipped).Within whole := by
  obtain ⟨before, after, hwhole, hsize, hlines⟩ := h
  refine ⟨before, text ++ after, ?_, hsize, hlines⟩
  rw [← hwhole, ← hdivides]
  simp [Chunk.front]

theorem Within.behind {whole skipped text : Text} {c : Chunk} (h : c.Within whole)
    (hdivides : skipped ++ text = c.text) : (c.behind skipped text).Within whole := by
  obtain ⟨before, after, hwhole, hsize, hlines⟩ := h
  refine ⟨before ++ skipped, after, ?_, ?_, ?_⟩
  · rw [← hwhole, ← hdivides]
    simp [Chunk.behind]
  · rw [Text.size_append, hsize]
    rfl
  · rw [Text.lineBreaks_append, hlines]
    rfl

theorem Within.concat {whole : Text} {c d : Chunk} (hc : c.Within whole) (hd : d.Within whole)
    (hadjacent : c.precedes d = true) : (c.concat d).Within whole := by
  obtain ⟨before, after, hwhole, hsize, hlines⟩ := hc
  obtain ⟨before', after', hwhole', hsize', -⟩ := hd
  have hnext := (precedes_iff.1 hadjacent).2
  -- What stands in front of `d` is what stands in front of `c`, and `c`.
  have hsame : before ++ c.text ++ after = before' ++ (d.text ++ after') := by
    rw [hwhole', ← hwhole, List.append_assoc]
  have hfront : Text.size (before ++ c.text) = Text.size before' := by
    rw [Text.size_append, hsize, hsize', ← hnext]
    rfl
  obtain ⟨-, rfl⟩ := Text.append_inj hsame hfront
  exact ⟨before, after', by rw [← hwhole]; simp [Chunk.concat], hsize, hlines⟩

/-- Bytes of two neighbours are bytes of one of them. -/
theorem countP_concat {c d : Chunk} (h : c.precedes d = true) (file : String) (i : Nat) :
    [c.concat d].countP (covers file i) = [c, d].countP (covers file i) := by
  have hend := concat_endOffset h
  obtain ⟨hfile, hnext⟩ := precedes_iff.1 h
  have hle : c.byteOffset ≤ c.endOffset := Nat.le_add_right ..
  have hle' : d.byteOffset ≤ d.endOffset := Nat.le_add_right ..
  simp only [List.countP_cons, List.countP_nil, covers, hend, decide_eq_true_eq]
  simp only [concat, ← hfile]
  by_cases hname : c.file = file
  · simp only [hname, true_and]
    split <;> split <;> split <;> omega
  · simp [hname]

/-- Bytes of a chunk are bytes of its beginning or of what follows. -/
theorem countP_front_behind {skipped text : Text} {c : Chunk}
    (hdivides : skipped ++ text = c.text) (file : String) (i : Nat) :
    [c.front skipped, c.behind skipped text].countP (covers file i) =
      [c].countP (covers file i) := by
  have hend : c.endOffset = c.byteOffset + Text.size skipped + Text.size text := by
    rw [endOffset, ← hdivides, Text.size_append]
    omega
  simp only [List.countP_cons, List.countP_nil, covers, decide_eq_true_eq, hend]
  simp only [front, behind, endOffset]
  by_cases hname : c.file = file
  · simp only [hname, true_and]
    split <;> split <;> split <;> omega
  · simp [hname]

end Chunk

/-- The pieces of a file from byte `start` on end at byte `stop`. None but the
last is empty, and a piece whose end is closed ends where an item starts. -/
def Carved (items : List Nat) (stop : Nat) : Nat → List Piece → Prop
  | _, [] => False
  | start, [p] => p.openEnd = false ∧ start + Text.size p.text = stop
  | start, p :: q :: more =>
      p.text ≠ [] ∧ (p.openEnd = false → start + Text.size p.text ∈ items) ∧
        Carved items stop (start + Text.size p.text) (q :: more)

theorem Carved.cons {items : List Nat} {stop start : Nat} {p : Piece} {ps : List Piece}
    (hne : p.text ≠ []) (hitem : p.openEnd = false → start + Text.size p.text ∈ items)
    (h : Carved items stop (start + Text.size p.text) ps) : Carved items stop start (p :: ps) := by
  cases ps with
  | nil => exact absurd h id
  | cons q ps => exact ⟨hne, hitem, h⟩

theorem Carved.mono {items items' : List Nat} {stop start : Nat} {ps : List Piece}
    (h : Carved items stop start ps) (hitems : items ⊆ items') : Carved items' stop start ps := by
  fun_induction Carved items stop start ps with
  | case1 => exact h
  | case2 => exact h
  | case3 start p q more ih =>
      exact ⟨h.1, fun hopen => hitems (h.2.1 hopen), ih h.2.2⟩

namespace Splitter

theorem mem_items_of_cutPoint {limit start : Nat} {items : List Nat} {t : Text}
    (h : (cutPoint limit items start t).2 = false) :
    start + (cutPoint limit items start t).1 ∈ items := by
  unfold cutPoint at h ⊢
  dsimp only at h ⊢
  split
  · rename_i item hfind
    have hstart := List.find?_some hfind
    have hmem := List.mem_of_find?_eq_some hfind
    simp only [Bool.and_eq_true, decide_eq_true_eq] at hstart
    have hitem : start + (item - start) = item := by omega
    rw [hitem]
    exact List.mem_reverse.1 hmem
  · rename_i hfind
    cases hbreak : Text.throughLastBreak? (window limit t) <;> simp [hfind, hbreak] at h

/-- Carving a text into pieces loses none of it. -/
theorem carve_carved {limit start : Nat} {items : List Nat} {t : Text} {ps : List Piece}
    (h : carve limit items start t = some ps) :
    (ps.map Piece.text).flatten = t ∧ Carved items (start + Text.size t) start ps := by
  fun_induction carve generalizing ps with
  | case1 start t hsize =>
      obtain rfl := Option.some.inj h
      exact ⟨by simp, rfl, rfl⟩
  | case2 => cases h
  | case3 start t hsize cut front rest hcut =>
      rename_i ih
      obtain ⟨more, hmore, rfl⟩ := Option.map_eq_some_iff.1 h
      obtain ⟨hflat, hcarved⟩ := ih hmore
      obtain ⟨rfl, hfront⟩ := Text.cut?_eq_some_iff.1 hcut
      have hne : front ++ rest ≠ [] := by
        intro hnil
        rw [hnil] at hsize
        exact hsize (Nat.zero_le _)
      have hpos : 0 < cut.1 := cutPoint_pos hne
      refine ⟨by simp [hflat], ?_⟩
      refine Carved.cons ?_ (fun hopen => ?_) ?_
      · rintro hnil
        simp only at hnil
        rw [hnil] at hfront
        simp only [Text.size] at hfront
        omega
      · rw [hfront]
        exact mem_items_of_cutPoint hopen
      · rw [Text.size_append, hfront, ← Nat.add_assoc]
        exact hcarved

theorem flatten_segments (wanted : Nat → Bool) (start : Nat) (t : Text) :
    (segments wanted start t).flatten = t := by
  induction t generalizing start with
  | nil => rfl
  | cons c t ih =>
      have hrest := ih (start + c.utf8Size)
      rw [segments]
      split
      · rename_i hnone
        rw [hnone] at hrest
        simp [← hrest]
      · rename_i segment more hmore
        rw [hmore] at hrest
        split <;> simp [← hrest]

theorem ne_nil_of_mem_segments {wanted : Nat → Bool} {start : Nat} {t : Text} (ht : t ≠ [])
    {segment : Text} (h : segment ∈ segments wanted start t) : segment ≠ [] := by
  induction t generalizing start segment with
  | nil => exact absurd rfl ht
  | cons c t ih =>
      rw [segments] at h
      split at h
      · simp_all
      · rename_i first more hmore
        have hmem {x : Text} (hx : x ∈ more) : x ≠ [] := by
          cases t with
          | nil =>
              rw [segments] at hmore
              cases hmore
              cases hx
          | cons d t => exact ih (List.cons_ne_nil d t) (hmore ▸ List.mem_cons_of_mem _ hx)
        split at h
        · rename_i hstop
          have ht : t ≠ [] := by
            rintro rfl
            simp at hstop
          rcases List.mem_cons.1 h with rfl | h
          · exact List.cons_ne_nil _ _
          · exact ih ht (hmore ▸ h)
        · rcases List.mem_cons.1 h with rfl | h
          · exact List.cons_ne_nil _ _
          · exact hmem h

theorem map_text_openInside (parts : List Text) : (openInside parts).map Piece.text = parts := by
  fun_induction openInside with
  | case1 => rfl
  | case2 => rfl
  | case3 t more hmore ih => rw [List.map_cons, ih]

theorem openInside_carved {parts : List Text} (start : Nat) (hne : parts ≠ [])
    (hparts : ∀ t ∈ parts, t ≠ []) :
    Carved [] (start + Text.size parts.flatten) start (openInside parts) := by
  fun_induction openInside generalizing start with
  | case1 => exact absurd rfl hne
  | case2 t => exact ⟨rfl, by simp⟩
  | case3 t more hmore ih =>
      refine Carved.cons (hparts t (by simp)) (fun h => absurd h (by simp)) ?_
      rw [List.flatten_cons, Text.size_append, ← Nat.add_assoc]
      exact ih _ (fun hnil => hmore (by simpa using hnil)) fun x hx => hparts x (by simp [hx])

/-- Labelled pieces lie where the texts in front of them end. -/
theorem within_of_mem_labelFrom {file : String} {id : Nat} {openStart : Bool}
    {ps : List Piece} {c : Chunk} (before : Text)
    (h : c ∈ labelFrom file id (Text.size before) (Text.lineBreaks before) openStart ps) :
    c.Within (before ++ (ps.map Piece.text).flatten) := by
  induction ps generalizing id openStart before with
  | nil => cases h
  | cons p more ih =>
      rw [labelFrom, ← Text.size_append, ← Text.lineBreaks_append] at h
      rcases List.mem_cons.1 h with rfl | h
      · exact ⟨before, (more.map Piece.text).flatten, rfl, rfl, rfl⟩
      · have hwithin := ih _ h
        rwa [List.append_assoc] at hwithin

/-- Labelled pieces are pieces of the file. -/
theorem of_mem_labelFrom {file : String} {id offset lines : Nat} {openStart : Bool}
    {ps : List Piece} {c : Chunk} (h : c ∈ labelFrom file id offset lines openStart ps) :
    c.file = file ∧ c.provisional = true := by
  induction ps generalizing id offset lines openStart with
  | nil => cases h
  | cons p more ih =>
      rcases List.mem_cons.1 h with rfl | h
      · exact ⟨rfl, rfl⟩
      · exact ih h

/-- Each byte is in one labelled piece. -/
theorem countP_labelFrom (file : String) (id offset lines : Nat) (openStart : Bool)
    (ps : List Piece) (i : Nat) :
    (labelFrom file id offset lines openStart ps).countP (Chunk.covers file i) =
      if offset ≤ i ∧ i < offset + Text.size (ps.map Piece.text).flatten then 1 else 0 := by
  induction ps generalizing id offset lines openStart with
  | nil => simp [labelFrom, Text.size]
  | cons p more ih =>
      rw [labelFrom, List.countP_cons, ih, List.map_cons, List.flatten_cons, Text.size_append]
      simp only [Chunk.covers, Chunk.endOffset, true_and, decide_eq_true_eq]
      split <;> split <;> split <;> omega

end Splitter

/-- The chunks as which a file may be queued: the whole file, or the pieces that a
splitter makes of it, at the given items or elsewhere. -/
inductive PiecesOf (name : String) (text : Text) (items : List Nat) : List Chunk → Prop
  | whole : PiecesOf name text items [Chunk.whole name text]
  | splitAtItems (s : Splitter) {pieces : List Chunk}
      (h : s.splitAtItems name text items = some pieces) : PiecesOf name text items pieces
  | split (s : Splitter) {pieces : List Chunk} (h : s.split name text = some pieces) :
      PiecesOf name text items pieces
  | cutAt (offsets : List Nat) :
      PiecesOf name text items (Splitter.cutAt name text offsets)

/-- A file that stays whole is one chunk, and every other is carved. -/
theorem PiecesOf.whole_or_carved {name : String} {text : Text} {items : List Nat}
    {pieces : List Chunk} (h : PiecesOf name text items pieces) :
    pieces = [Chunk.whole name text] ∨
      ∃ ps, pieces = Splitter.label name ps ∧ (ps.map Piece.text).flatten = text ∧
        Carved items (Text.size text) 0 ps := by
  have hsplit (s : Splitter) (starts : List Nat) (hstarts : starts ⊆ items)
      (h : s.splitAtItems name text starts = some pieces) :
      pieces = [Chunk.whole name text] ∨
        ∃ ps, pieces = Splitter.label name ps ∧ (ps.map Piece.text).flatten = text ∧
          Carved items (Text.size text) 0 ps := by
    rw [Splitter.splitAtItems] at h
    split at h
    · obtain ⟨ps, hcarve, rfl⟩ := Option.map_eq_some_iff.1 h
      obtain ⟨hflat, hcarved⟩ := Splitter.carve_carved hcarve
      rw [Nat.zero_add] at hcarved
      exact .inr ⟨ps, rfl, hflat, hcarved.mono hstarts⟩
    · exact .inl (Option.some.inj h).symm
  cases h with
  | whole => exact .inl rfl
  | splitAtItems s h => exact hsplit s items (List.Subset.refl _) h
  | split s h => exact hsplit s [] (List.nil_subset _) h
  | cutAt offsets =>
      have hflat := Splitter.flatten_segments (offsets.contains ·) 0 text
      rw [Splitter.cutAt]
      split
      · exact .inl rfl
      · exact .inl rfl
      · rename_i hnil hone
        refine .inr ⟨_, rfl, ?_, ?_⟩
        · rw [Splitter.map_text_openInside, hflat]
        · have htext : text ≠ [] := by
            rintro rfl
            exact hone [] rfl
          have hcarved := Splitter.openInside_carved 0 hnil
            fun t ht => Splitter.ne_nil_of_mem_segments htext ht
          rw [hflat, Nat.zero_add] at hcarved
          exact hcarved.mono (List.nil_subset _)

/-- A file together with the chunks as which it is queued. At its items it may be cut with closed
edges. -/
structure SplitFile where
  name : String
  text : Text
  items : List Nat
  pieces : List Chunk
  cut : PiecesOf name text items pieces

namespace SplitFile

theorem within {f : SplitFile} {c : Chunk} (h : c ∈ f.pieces) :
    c.file = f.name ∧ c.Within f.text ∧ TokenTree.Sound c := by
  rcases f.cut.whole_or_carved with hwhole | ⟨ps, hlabel, hflat, -⟩
  · rw [hwhole, List.mem_singleton] at h
    subst h
    exact ⟨rfl, ⟨[], [], by simp [Chunk.whole], rfl, rfl⟩, .inr rfl⟩
  · rw [hlabel] at h
    obtain ⟨hfile, hprovisional⟩ := Splitter.of_mem_labelFrom h
    have hwithin := Splitter.within_of_mem_labelFrom [] h
    rw [List.nil_append, hflat] at hwithin
    exact ⟨hfile, hwithin, .inl hprovisional⟩

/-- Each byte of the file is in one piece. -/
theorem countP_pieces (f : SplitFile) (i : Nat) :
    f.pieces.countP (Chunk.covers f.name i) = if i < Text.size f.text then 1 else 0 := by
  rcases f.cut.whole_or_carved with hwhole | ⟨ps, hlabel, hflat, -⟩
  · rw [hwhole]
    simp [List.countP_cons, Chunk.covers, Chunk.whole, Chunk.endOffset]
  · rw [hlabel, Splitter.label, Splitter.countP_labelFrom, hflat]
    simp

end SplitFile

end ClonePrint
