import ClonePrint.Chunk

/-!
# Splitting large files

A file that is larger than the limit is carved into pieces. Every window of the
text is cut at the last item start it holds, which leaves a closed edge. Without
one it is cut behind its last line break, or else at its end, which leaves an
open edge. Labelling the pieces gives each chunk its place in the file.
-/
namespace ClonePrint

structure Piece where
  text : Text
  openEnd : Bool
deriving Repr, DecidableEq

/-- Splits files into chunks of at most `limit` bytes. -/
structure Splitter where
  limit : Nat
deriving Repr, DecidableEq

namespace Splitter

def ofLimit (limit : Nat) : Splitter := ⟨max limit 1⟩

def needsSplit (s : Splitter) (t : Text) : Bool := s.limit < Text.size t

/-- The longest prefix within the limit, or one character if none fits. -/
def window (limit : Nat) (t : Text) : Text :=
  match Text.takeBytes limit t with
  | [] => t.take 1
  | front => front

/-- Where to cut a text that starts at byte `start` of its file, counted from
there, and whether the edge is open. -/
def cutPoint (limit : Nat) (items : List Nat) (start : Nat) (t : Text) : Nat × Bool :=
  let front := window limit t
  match items.reverse.find? fun item => start < item && item ≤ start + Text.size front with
  | some item => (item - start, false)
  | none =>
      match Text.throughLastBreak? front with
      | some lines => (Text.size lines, true)
      | none => (Text.size front, true)

theorem size_pos {t : Text} (h : t ≠ []) : 0 < Text.size t := by
  cases t with
  | nil => exact absurd rfl h
  | cons c t => have := Char.utf8Size_pos c; simp only [Text.size]; omega

theorem throughLastBreak?_ne_nil {t front : Text} (h : Text.throughLastBreak? t = some front) :
    front ≠ [] := by
  cases t with
  | nil => simp [Text.throughLastBreak?] at h
  | cons c t =>
      simp only [Text.throughLastBreak?] at h
      split at h
      · cases h; simp
      · split at h
        · cases h; simp
        · cases h

theorem window_ne_nil {limit : Nat} {t : Text} (h : t ≠ []) : window limit t ≠ [] := by
  unfold window
  split
  · cases t with
    | nil => exact absurd rfl h
    | cons c t => simp
  · rename_i hne; exact hne

/-- A cut always makes progress. -/
theorem cutPoint_pos {limit start : Nat} {items : List Nat} {t : Text} (h : t ≠ []) :
    0 < (cutPoint limit items start t).1 := by
  unfold cutPoint
  dsimp only
  split
  · rename_i item hfind
    have := List.find?_some hfind
    simp only [Bool.and_eq_true, decide_eq_true_eq] at this
    dsimp only
    omega
  · split
    · rename_i lines hlines
      exact size_pos (throughLastBreak?_ne_nil hlines)
    · exact size_pos (window_ne_nil h)

/-- The pieces of a text that starts at byte `start` of its file, or nothing if
an item start lies inside a character. -/
def carve (limit : Nat) (items : List Nat) (start : Nat) (t : Text) : Option (List Piece) :=
  if Text.size t ≤ limit then some [⟨t, false⟩]
  else
    let cut := cutPoint limit items start t
    match _hcut : Text.cut? cut.1 t with
    | none => none
    | some (front, rest) =>
        (carve limit items (start + cut.1) rest).map (⟨front, cut.2⟩ :: ·)
termination_by t.length
decreasing_by
  obtain ⟨happ, hsize⟩ := Text.cut?_eq_some_iff.1 _hcut
  have hne : t ≠ [] := by
    rintro rfl
    simp [Text.size] at *
  have hpos : 0 < cut.1 := cutPoint_pos hne
  cases front with
  | nil => simp only [Text.size] at hsize; omega
  | cons c front => rw [← happ]; simp only [List.cons_append, List.length_cons,
      List.length_append]; omega

/-- Give consecutive pieces their places, from a known place on. -/
def labelFrom (file : String) (id offset lines : Nat) (openStart : Bool) :
    List Piece → List Chunk
  | [] => []
  | p :: more =>
      ⟨file, p.text, id, offset, lines, openStart, p.openEnd, true⟩ ::
        labelFrom file (id + 1) (offset + Text.size p.text) (lines + Text.lineBreaks p.text)
          p.openEnd more

def label (file : String) (pieces : List Piece) : List Chunk :=
  labelFrom file 0 0 0 false pieces

/-- Split a file between its items where that is possible. A file within the
limit stays whole. -/
def splitAtItems (s : Splitter) (file : String) (t : Text) (items : List Nat) :
    Option (List Chunk) :=
  if s.needsSplit t then (carve s.limit items 0 t).map (label file)
  else some [Chunk.whole file t]

def split (s : Splitter) (file : String) (t : Text) : Option (List Chunk) :=
  s.splitAtItems file t []

/-- Break a text behind every character that ends at a wanted offset, the last
character excepted. -/
def segments (wanted : Nat → Bool) : Nat → Text → List Text
  | _, [] => [[]]
  | start, c :: t =>
      let stop := start + c.utf8Size
      match segments wanted stop t with
      | [] => [[c]]
      | segment :: more =>
          if !t.isEmpty && wanted stop then [c] :: segment :: more
          else (c :: segment) :: more

def openInside : List Text → List Piece
  | [] => []
  | [t] => [⟨t, false⟩]
  | t :: more => ⟨t, true⟩ :: openInside more

/-- Cut a file at the given byte offsets. Offsets inside a character or not
strictly inside the text are ignored, and every inner edge is open. -/
def cutAt (file : String) (t : Text) (offsets : List Nat) : List Chunk :=
  match segments (offsets.contains ·) 0 t with
  | [] | [_] => [Chunk.whole file t]
  | parts => label file (openInside parts)

end Splitter

end ClonePrint
