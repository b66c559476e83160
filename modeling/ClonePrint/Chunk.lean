import ClonePrint.Error
import ClonePrint.Text

/-!
# Chunks

A chunk is a contiguous byte range of one file. It knows where it sits in the
file and whether either edge cuts through a top-level item. Adjacent chunks can
be joined again, in any order, and a chunk can hand on the part of it that is
not yet understood.
-/
namespace ClonePrint

/-- A contiguous byte range of one file. The offsets count what stands in front of it, an open
edge cuts through an item, and a provisional chunk is a piece of a larger file whose edges no
parse has confirmed. -/
structure Chunk where
  file : String
  text : Text
  id : Nat
  byteOffset : Nat
  lineOffset : Nat
  openStart : Bool
  openEnd : Bool
  provisional : Bool := false
deriving Repr, DecidableEq

namespace Chunk

def whole (file : String) (text : Text) : Chunk :=
  ⟨file, text, 0, 0, 0, false, false, false⟩

/-- Neither edge cuts through an item, so the chunk parses on its own. -/
def isClosed (c : Chunk) : Bool := !c.openStart && !c.openEnd

theorem isClosed_iff {c : Chunk} :
    c.isClosed = true ↔ c.openStart = false ∧ c.openEnd = false := by
  simp [isClosed]

def endOffset (c : Chunk) : Nat := c.byteOffset + Text.size c.text

def precedes (c d : Chunk) : Bool := c.file == d.file && c.endOffset == d.byteOffset

/-- Join two chunks of which the one with the smaller id ends where the other
starts. Of two equal ids the first argument comes first. -/
def join (c d : Chunk) : Except Error Chunk :=
  if c.file ≠ d.file then
    .error (.chunk ("cannot join chunks of different files: " ++ c.file ++ " and " ++ d.file))
  else
    let (first, second) := if c.id ≤ d.id then (c, d) else (d, c)
    if first.precedes second then
      .ok { first with
        text := first.text ++ second.text
        openEnd := second.openEnd
        provisional := first.provisional || second.provisional }
    else
      .error (.chunk ("chunks " ++ toString first.id ++ " and " ++ toString second.id ++
        " of " ++ first.file ++ " are not adjacent"))

/-- The part from byte `offset` of the text on, or nothing if that is inside a
character. An offset past the end leaves an empty part. A part that starts
behind the beginning starts at an item. Its line offset is a word of 32 bits, so
fewer than 2 ^ 32 line breaks may stand in front of it. -/
def tailFrom? (offset : Nat) (c : Chunk) : Option Chunk :=
  let skipped := min offset (Text.size c.text)
  (Text.cut? skipped c.text).map fun parts =>
    { c with
      text := parts.2
      byteOffset := c.byteOffset + skipped
      lineOffset := c.lineOffset + Text.lineBreaks parts.1
      openStart := skipped == 0 && c.openStart }

/-- The same text with open edges, so that it is parsed again only together with
a neighbour. The start of a file stays closed. -/
def reopened (c : Chunk) : Chunk :=
  { c with openStart := c.byteOffset != 0, openEnd := true }

/-- The same text, to be parsed on its own whatever its edges are. -/
def settled (c : Chunk) : Chunk :=
  { c with openStart := false, openEnd := false, provisional := false }

end Chunk

end ClonePrint
