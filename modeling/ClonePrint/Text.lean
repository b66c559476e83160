/-!
# Text measured in bytes

A text is the sequence of its characters. Every offset into a text counts UTF-8
bytes, so an offset is usable only where one character ends and the next one
starts. `cut?` succeeds at exactly those offsets, and its two parts give the
text back.
-/
namespace ClonePrint

/-- Source code, canonical bodies and tagged exports, character by character. -/
abbrev Text := List Char

namespace Text

/-- Length in UTF-8 bytes. -/
def size : Text → Nat
  | [] => 0
  | c :: t => c.utf8Size + size t

/-- The parts before and after byte `n`, if `n` is a character boundary. -/
def cut? : Nat → Text → Option (Text × Text)
  | 0, t => some ([], t)
  | _ + 1, [] => none
  | n + 1, c :: t =>
      if c.utf8Size ≤ n + 1 then
        (cut? (n + 1 - c.utf8Size) t).map fun parts => (c :: parts.1, parts.2)
      else none

/-- The longest prefix of at most `n` bytes. -/
def takeBytes : Nat → Text → Text
  | _, [] => []
  | n, c :: t => if c.utf8Size ≤ n then c :: takeBytes (n - c.utf8Size) t else []

/-- The characters between two byte offsets, if both are boundaries in order. -/
def slice? (start stop : Nat) (t : Text) : Option Text :=
  if start ≤ stop then
    (cut? start t).bind fun front => (cut? (stop - start) front.2).map Prod.fst
  else none

def lineBreaks (t : Text) : Nat := t.count '\n'

/-- The row of a byte offset: the line breaks in front of it. -/
def rowAt (offset : Nat) (t : Text) : Nat := lineBreaks (takeBytes offset t)

def throughLastBreak? : Text → Option Text
  | [] => none
  | c :: t =>
      match throughLastBreak? t with
      | some front => some (c :: front)
      | none => if c = '\n' then some [c] else none

theorem size_append (a b : Text) : size (a ++ b) = size a + size b := by
  induction a with
  | nil => simp [size]
  | cons c a ih => simp only [List.cons_append, size, ih]; omega

theorem lineBreaks_append (a b : Text) :
    lineBreaks (a ++ b) = lineBreaks a + lineBreaks b := List.count_append

/-- A cut finds the one way to divide a text after `n` bytes. -/
theorem cut?_eq_some_iff {n : Nat} {t a b : Text} :
    cut? n t = some (a, b) ↔ a ++ b = t ∧ size a = n := by
  induction t generalizing n a b with
  | nil =>
      cases n with
      | zero =>
          simp only [cut?, Option.some.injEq, Prod.mk.injEq, List.append_eq_nil_iff]
          constructor
          · rintro ⟨rfl, rfl⟩; simp [size]
          · rintro ⟨⟨rfl, rfl⟩, -⟩; simp
      | succ n =>
          simp only [cut?, reduceCtorEq, List.append_eq_nil_iff, false_iff]
          rintro ⟨⟨rfl, rfl⟩, h⟩
          simp [size] at h
  | cons c t ih =>
      have hc := Char.utf8Size_pos c
      cases n with
      | zero =>
          simp only [cut?, Option.some.injEq, Prod.mk.injEq]
          constructor
          · rintro ⟨rfl, rfl⟩; simp [size]
          · rintro ⟨h, hs⟩
            cases a with
            | nil => exact ⟨rfl, h.symm⟩
            | cons d a => have := Char.utf8Size_pos d; simp only [size] at hs; omega
      | succ n =>
          simp only [cut?]
          split
          · rename_i hle
            simp only [Option.map_eq_some_iff, Prod.mk.injEq, Prod.exists]
            constructor
            · rintro ⟨a', b', h, rfl, rfl⟩
              obtain ⟨rfl, hs⟩ := ih.1 h
              exact ⟨rfl, by simp only [size]; omega⟩
            · rintro ⟨h, hs⟩
              cases a with
              | nil => simp [size] at hs
              | cons d a =>
                  simp only [List.cons_append, List.cons.injEq] at h
                  obtain ⟨rfl, h⟩ := h
                  refine ⟨a, b, ih.2 ⟨h, ?_⟩, rfl, rfl⟩
                  simp only [size] at hs; omega
          · rename_i hle
            simp only [reduceCtorEq, false_iff]
            rintro ⟨h, hs⟩
            cases a with
            | nil => simp [size] at hs
            | cons d a =>
                simp only [List.cons_append, List.cons.injEq] at h
                obtain ⟨rfl, -⟩ := h
                simp only [size] at hs
                omega

end Text

end ClonePrint
