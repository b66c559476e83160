import ClonePrint.Proofs.JsonText
import ClonePrint.Worker

/-!
# One line for each value

A written value holds no line break, so a row of values that is sent with a break behind
each one falls apart into just these values again, as text and as UTF-8 bytes.
-/
namespace ClonePrint

namespace Text

theorem trimEnd_concat_of_isBlank {c : Char} (h : isBlank c = true) (t : Text) :
    trimEnd (t ++ [c]) = trimEnd t := by
  simp [trimEnd, h]

theorem trimEnd_concat {c : Char} (h : isBlank c = false) (t : Text) :
    trimEnd (t ++ [c]) = t ++ [c] := by
  simp [trimEnd, h]

/-- The UTF-8 bytes of a text. -/
def bytes (t : Text) : List UInt8 := t.flatMap String.utf8EncodeChar

theorem bytes_append (a b : Text) : bytes (a ++ b) = bytes a ++ bytes b := List.flatMap_append

theorem utf8Encode_eq_bytes (t : Text) : t.utf8Encode = ⟨(bytes t).toArray⟩ := by
  apply ByteArray.ext
  apply Array.toList_inj.1
  exact List.toList_data_toByteArray

theorem fromUTF8?_bytes (t : Text) :
    (String.fromUTF8? ⟨(bytes t).toArray⟩).map String.toList = some t := by
  rw [← utf8Encode_eq_bytes, String.fromUTF8?, dif_pos ByteArray.isValidUTF8_utf8Encode,
    Option.map_some]
  exact congrArg some (String.toList_ofList (l := t))

theorem le_or (b : UInt8) {mask : UInt8} (h : mask.toNat.testBit 7 = true) :
    128 ≤ (b ||| mask).toNat := by
  refine Nat.ge_two_pow_of_testBit (i := 7) ?_
  rw [UInt8.toNat_or, Nat.testBit_or, h, Bool.or_true]

/-- The bytes of a longer character have their highest bit set. -/
theorem le_of_mem_utf8EncodeChar {c : Char} {b : UInt8} (h : b ∈ String.utf8EncodeChar c)
    (hlong : c.utf8Size ≠ 1) : 128 ≤ b.toNat := by
  rcases Char.utf8Size_eq c with hsize | hsize | hsize | hsize
  · exact absurd hsize hlong
  · rw [String.utf8EncodeChar_eq_cons_cons hsize] at h
    simp only [List.mem_cons, List.not_mem_nil, or_false] at h
    rcases h with rfl | rfl <;> exact le_or _ (by decide)
  · rw [String.utf8EncodeChar_eq_cons_cons_cons hsize] at h
    simp only [List.mem_cons, List.not_mem_nil, or_false] at h
    rcases h with rfl | rfl | rfl <;> exact le_or _ (by decide)
  · rw [String.utf8EncodeChar_eq_cons_cons_cons_cons hsize] at h
    simp only [List.mem_cons, List.not_mem_nil, or_false] at h
    rcases h with rfl | rfl | rfl | rfl <;> exact le_or _ (by decide)

theorem toNat_toUInt8 {c : Char} (h : c.utf8Size = 1) : c.val.toUInt8.toNat = c.val.toNat := by
  have hsmall := UInt32.le_iff_toNat_le.1 (Char.utf8Size_eq_one_iff.1 h)
  rw [UInt32.toNat_toUInt8]
  simp only [UInt32.reduceToNat] at hsmall
  omega

/-- The byte of a character that has only one is part of no other character. -/
theorem eq_of_mem_utf8EncodeChar {c d : Char} (hd : d.utf8Size = 1)
    (h : d.val.toUInt8 ∈ String.utf8EncodeChar c) : c = d := by
  have hc : c.utf8Size = 1 := by
    refine Decidable.byContradiction fun hlong => ?_
    have hhigh := le_of_mem_utf8EncodeChar h hlong
    have hsmall := UInt32.le_iff_toNat_le.1 (Char.utf8Size_eq_one_iff.1 hd)
    rw [toNat_toUInt8 hd] at hhigh
    exact absurd (hhigh.trans hsmall) (by decide)
  rw [String.utf8EncodeChar_eq_singleton hc, List.mem_singleton] at h
  have hcode := congrArg UInt8.toNat h
  rw [toNat_toUInt8 hd, toNat_toUInt8 hc] at hcode
  exact Char.ext (UInt32.toNat_inj.1 hcode.symm)

theorem ten_notMem_bytes {t : Text} (h : '\n' ∉ t) : 10 ∉ bytes t := by
  intro hten
  obtain ⟨c, hc, hmem⟩ := List.mem_flatMap.1 hten
  rw [eq_of_mem_utf8EncodeChar (d := '\n') rfl hmem] at hc
  exact h hc

end Text

namespace Worker

theorem linesOf_append {line : List UInt8} (h : 10 ∉ line) (more : List UInt8) :
    linesOf (line ++ 10 :: more) = line :: linesOf more := by
  induction line with
  | nil => rfl
  | cons b line ih =>
      have hb : b ≠ 10 := fun hb => h (by simp [hb])
      have hline : 10 ∉ line := fun hmem => h (by simp [hmem])
      rw [List.cons_append, linesOf, if_neg hb, ih hline]

/-- Texts without line breaks are found again in the bytes of their lines. -/
theorem decodeLines_bytes {texts : List Text} (h : ∀ t ∈ texts, '\n' ∉ t) :
    decodeLines (Text.bytes (texts.flatMap (· ++ ['\n']))) = texts.map some := by
  induction texts with
  | nil => rfl
  | cons t texts ih =>
      have hten : Text.bytes ['\n'] = [10] := by decide
      have hlines := linesOf_append (Text.ten_notMem_bytes (h t (by simp)))
        (Text.bytes (texts.flatMap (· ++ ['\n'])))
      rw [List.flatMap_cons, Text.bytes_append, Text.bytes_append, hten, List.append_assoc,
        List.singleton_append, decodeLines, hlines, List.map_cons, List.map_cons,
        Text.fromUTF8?_bytes]
      exact congrArg (some t :: ·) (ih fun t ht => h t (by simp [ht]))

end Worker

namespace Json

open Text (decimal)

theorem newline_notMem_escapeChar (c : Char) : '\n' ∉ escapeChar c := by
  rw [escapeChar]
  split_ifs with hquote hslash hline hreturn htab hback hform hcontrol
  · decide
  · decide
  · decide
  · decide
  · decide
  · decide
  · decide
  · have hall : ∀ n < 0x20, '\n' ∉
        "\\u00".toList ++ [Text.hexDigit (n / 16), Text.hexDigit (n % 16)] := by decide
    exact hall c.toNat hcontrol
  · simpa using Ne.symm hline

theorem newline_notMem_writeText (t : Text) : '\n' ∉ writeText t := by
  simp [writeText, newline_notMem_escapeChar]

theorem newline_notMem_decimal (n : Nat) : '\n' ∉ decimal n := by
  intro h
  exact absurd (Text.isDigit_of_mem_decimal h) (by decide)

theorem newline_notMem_writeItems {items : List Json} (h : ∀ j ∈ items, '\n' ∉ j.write) :
    '\n' ∉ writeItems items := by
  induction items with
  | nil => decide
  | cons item items ih =>
      rw [writeItems]
      simp [h item, ih fun j hj => h j (by simp [hj])]

theorem newline_notMem_writeField (name : Text) {j : Json} (h : '\n' ∉ j.write) :
    '\n' ∉ writeField (some name, j) := by
  simp [writeField, newline_notMem_writeText, h]

theorem newline_notMem_writeFields {fields : List (String × Json)}
    (h : ∀ f ∈ fields, '\n' ∉ f.2.write) :
    '\n' ∉ writeFields (fields.map fun f => (some f.1.toList, f.2)) := by
  induction fields with
  | nil => decide
  | cons field fields ih =>
      rw [List.map_cons, writeFields]
      simp [newline_notMem_writeField _ (h field (by simp)), ih fun f hf => h f (by simp [hf])]

/-- A written value takes up no more than one line. -/
theorem Plain.newline_notMem_write {j : Json} (h : j.Plain) : '\n' ∉ j.write := by
  induction h with
  | null => decide
  | bool b => cases b <;> decide
  | number n => exact newline_notMem_decimal n
  | text t => exact newline_notMem_writeText t
  | @array items _ ih =>
      cases items with
      | nil => decide
      | cons item items =>
          have hmore := newline_notMem_writeItems fun j hj => ih j (List.mem_cons_of_mem _ hj)
          rw [write]
          simp [ih item (by simp), hmore]
  | @object fields _ ih =>
      cases fields with
      | nil => decide
      | cons field fields =>
          have hfield := newline_notMem_writeField field.1.toList (ih field (by simp))
          have hmore := newline_notMem_writeFields fun f hf => ih f (List.mem_cons_of_mem _ hf)
          rw [ofFields, List.map_cons, write]
          simp [hfield, hmore]

theorem exists_writeFields_eq (fields : List (Option Text × Json)) :
    ∃ front, writeFields fields = front ++ ['}'] := by
  induction fields with
  | nil => exact ⟨[], rfl⟩
  | cons field fields ih =>
      obtain ⟨front, hfront⟩ := ih
      exact ⟨',' :: (writeField field ++ front), by simp [writeFields, hfront]⟩

/-- The shape of a written object that is not empty. -/
theorem exists_write_ofFields_eq (field : String × Json) (fields : List (String × Json)) :
    ∃ inner, (ofFields (field :: fields)).write = '{' :: (inner ++ ['}']) := by
  obtain ⟨front, hfront⟩ := exists_writeFields_eq (fields.map fun f => (some f.1.toList, f.2))
  refine ⟨writeField (some field.1.toList, field.2) ++ front, ?_⟩
  rw [ofFields, List.map_cons, write, hfront, List.append_assoc]

end Json

end ClonePrint
