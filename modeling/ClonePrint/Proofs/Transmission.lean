import Mathlib.Tactic.FinCases
import ClonePrint.Proofs.WireFormat

/-!
# A row of messages falls apart into its messages

The line of a value has one line break, and that is its last byte. So whatever a name, a
source text or a log line holds, a row of lines divided at the line breaks is the row of
values again. This is so for the messages of both directions and for fingerprints and
chunks on their own; the numbers may be as large as their columns allow.
-/
namespace ClonePrint.Wire

/-- Values of the kind `fits` travel as lines. The only line break of a line is its last byte, a
line says what was written, and a row of lines, divided at its line breaks, says every value in
its turn. -/
structure Carried {α : Type} [Encoded α] (fits : α → Prop) : Prop where
  closed : ∀ a, fits a → ∃ front, Text.bytes (encodeLine a) = front ++ [10] ∧ 10 ∉ front
  read : ∀ a, fits a → decodeLine? (encodeLine a) = some a
  divided : ∀ row : List α, (∀ a ∈ row, fits a) →
    (Worker.decodeLines (Text.bytes (row.flatMap encodeLine))).map (·.bind decodeLine?) =
      row.map some

section
variable {α : Type} [Encoded α]

theorem Faithful.bytes_encodeLine {a : α} (h : Faithful a) :
    ∃ front, Text.bytes (encodeLine a) = front ++ [10] ∧ 10 ∉ front := by
  have hten : Text.bytes ['\n'] = [10] := by decide
  refine ⟨Text.bytes (Encoded.toJson a).write, ?_, ?_⟩
  · rw [encodeLine, Text.bytes_append, hten]
  · exact Text.ten_notMem_bytes h.newline_notMem_write

theorem bind_decodeLine?_decodeLines {row : List α} (h : ∀ a ∈ row, Faithful a) :
    (Worker.decodeLines (Text.bytes (row.flatMap encodeLine))).map (·.bind decodeLine?) =
      row.map some := by
  rw [decodeLines_encodeLine h, List.map_map, List.map_map]
  apply List.map_congr_left
  intro a ha
  -- the line has lost its break here, which the reader does not mind
  exact (h a ha).decodeLine?_write

theorem Carried.of_faithful {fits : α → Prop} (h : ∀ {a : α}, fits a → Faithful a) :
    Carried fits where
  closed _ ha := (h ha).bytes_encodeLine
  read _ ha := (h ha).decodeLine?_encodeLine
  divided _ hrow := bind_decodeLine?_decodeLines fun a ha => h (hrow a ha)

end

/-- Everything that is ever written as a line is carried: what workers say and what they are
told, fingerprints and chunks. -/
theorem carried :
    Carried Reply.Fits ∧ Carried Dispatch.Fits ∧ Carried Fingerprint.Fits ∧ Carried Chunk.Fits :=
  ⟨.of_faithful faithful_reply, .of_faithful faithful_dispatch, .of_faithful faithful_fingerprint,
    .of_faithful faithful_chunk⟩

/-- Texts with quotes, backslashes, line breaks and blanks at their ends, and the largest
numbers. -/
def awkward : List Reply :=
  [.log .warn " \"\\\r\n\t\x00 ", .idle,
   .result "\n" [⟨"\\n", "\x7b\"kind\":\"IDLE\"\x7d\n", "é\u2028", Json.maxWord, 0⟩],
   .remainder ⟨"", "\n\n \x1f".toList, Json.maxWord, Json.maxLong, Json.maxWord, true, true, true⟩]

theorem carried_awkward :
    (∀ reply ∈ awkward, reply.Fits) ∧
      (Worker.decodeLines (Text.bytes (awkward.flatMap encodeLine))).map (·.bind decodeLine?) =
        awkward.map some := by
  have hfits : ∀ reply ∈ awkward, reply.Fits := by
    intro reply hreply
    fin_cases hreply
    · trivial
    · trivial
    · intro f hf
      rw [List.mem_singleton.1 hf]
      exact ⟨le_rfl, Nat.zero_le _⟩
    · exact ⟨le_rfl, le_rfl, le_rfl⟩
  exact ⟨hfits, carried.1.divided awkward hfits⟩

end ClonePrint.Wire
