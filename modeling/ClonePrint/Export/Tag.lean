import ClonePrint.Text.Blank

/-!
# Tags of an export

An export of a source file is text with tags in between. It need not be well
formed, so it is read tag by tag: each reading takes the text up to the next
opening bracket, then a name, then whatever else stands inside the brackets. A
reading of a non-empty rest always consumes something.
-/
namespace ClonePrint

/-- Replace every occurrence of `&` followed by `name` with one character. -/
def Text.replaceEntity (name : Text) (c : Char) : Text → Text
  | [] => []
  | x :: t =>
      if x = '&' ∧ name.isPrefixOf t then c :: replaceEntity name c (t.drop name.length)
      else x :: replaceEntity name c t
termination_by t => t.length
decreasing_by
  · simp only [List.length_drop, List.length_cons]; omega
  · simp

/-- Decode the five predefined entities. The ampersand comes last, so nothing
that it uncovers is decoded again. -/
def Text.decodeEntities (t : Text) : Text :=
  let t := replaceEntity "lt;".toList '<' t
  let t := replaceEntity "gt;".toList '>' t
  let t := replaceEntity "quot;".toList '"' t
  let t := replaceEntity "apos;".toList '\'' t
  replaceEntity "amp;".toList '&' t

/-- One tag, with its name as written, slashes included. The text since the previous tag is
decoded and without blanks. -/
structure Tag where
  name : Text
  textBefore : Text
  attributes : Text
deriving Repr, DecidableEq

namespace Tag

def isClosing (tag : Tag) : Bool := tag.name.head? == some '/'

def isSelfClosing (tag : Tag) : Bool :=
  tag.name.getLast? == some '/' || tag.attributes.getLast? == some '/'

def dropLastSlash (name : Text) : Text :=
  if name.getLast? = some '/' then name.dropLast else name

/-- The name without the slash in front of it or behind it. -/
def bareName (tag : Tag) : Text :=
  match tag.name with
  | '/' :: name => dropLastSlash name
  | name => dropLastSlash name

end Tag

/-- The unread part of an export and the line breaks read so far. -/
structure TagStream where
  rest : Text
  line : Nat := 0
deriving Repr, DecidableEq

namespace TagStream

/-- A text divided at the first character that stops it. -/
structure Stretch where
  front : Text
  stop : Option Char
  rest : Text

def stretch (stops : Char → Bool) : Text → Stretch
  | [] => ⟨[], none, []⟩
  | c :: t =>
      if stops c then ⟨[], some c, t⟩
      else { stretch stops t with front := c :: (stretch stops t).front }

def after (s : TagStream) (read : Stretch) : TagStream :=
  ⟨read.rest, s.line + Text.lineBreaks read.front + if read.stop = some '\n' then 1 else 0⟩

def endsName (c : Char) : Bool := c == ' ' || c == '\t' || c == '\r' || c == '\n' || c == '>'

def isEmpty (s : TagStream) : Bool := Text.isAllBlank s.rest

/-- Read the next tag: the text in front of it, its name, and its attributes if
the name did not end with the closing bracket. -/
def next (s : TagStream) : Tag × TagStream :=
  let before := stretch (· == '<') s.rest
  let name := stretch endsName before.rest
  let named := (s.after before).after name
  let textBefore := Text.decodeEntities (Text.stripBlanks before.front)
  if name.stop = none ∨ name.stop = some '>' then (⟨name.front, textBefore, []⟩, named)
  else
    let attributes := stretch (· == '>') name.rest
    (⟨name.front, textBefore, Text.trim attributes.front⟩, named.after attributes)

theorem stretch_rest_length_le (stops : Char → Bool) (t : Text) :
    (stretch stops t).rest.length ≤ t.length := by
  induction t with
  | nil => simp [stretch]
  | cons c t ih =>
      simp only [stretch]
      split
      · simp
      · simp only [List.length_cons]; omega

theorem stretch_rest_length_lt (stops : Char → Bool) {t : Text} (h : t ≠ []) :
    (stretch stops t).rest.length < t.length := by
  cases t with
  | nil => exact absurd rfl h
  | cons c t =>
      simp only [stretch]
      split
      · simp
      · have := stretch_rest_length_le stops t
        simp only [List.length_cons]; omega

/-- A reading of a non-empty rest makes progress. -/
theorem next_rest_length_lt {s : TagStream} (h : s.rest ≠ []) :
    s.next.2.rest.length < s.rest.length := by
  have first := stretch_rest_length_lt (· == '<') h
  have second := stretch_rest_length_le endsName (stretch (· == '<') s.rest).rest
  have third := stretch_rest_length_le (· == '>')
    (stretch endsName (stretch (· == '<') s.rest).rest).rest
  unfold next
  dsimp only
  split <;> simp only [after] <;> omega

/-- A rest that is more than blanks is not empty. -/
theorem rest_ne_nil {s : TagStream} (h : s.isEmpty = false) : s.rest ≠ [] := by
  rintro hnil
  simp [isEmpty, hnil, Text.isAllBlank] at h

/-- The readings of a whole stream, each with what is unread behind it. -/
def readings (s : TagStream) : List (Tag × TagStream) :=
  if _h : s.isEmpty then [] else s.next :: readings s.next.2
termination_by s.rest.length
decreasing_by exact next_rest_length_lt (rest_ne_nil (by simpa using _h))

/-- Skip everything up to and including the tag that closes a comment. -/
def skipComment (s : TagStream) : TagStream :=
  if _h : s.isEmpty then s
  else
    let read := s.next
    if read.1.name = "/comment".toList then read.2 else skipComment read.2
termination_by s.rest.length
decreasing_by exact next_rest_length_lt (rest_ne_nil (by simpa using _h))

theorem skipComment_rest_length_le (s : TagStream) :
    s.skipComment.rest.length ≤ s.rest.length := by
  fun_induction skipComment s with
  | case1 s h => exact Nat.le_refl _
  | case2 s h read hname =>
      exact Nat.le_of_lt (next_rest_length_lt (rest_ne_nil (by simpa using h)))
  | case3 s h read hname ih =>
      exact Nat.le_trans ih
        (Nat.le_of_lt (next_rest_length_lt (rest_ne_nil (by simpa using h))))

end TagStream

end ClonePrint
