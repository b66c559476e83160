import Mathlib.Tactic.IntervalCases
import Mathlib.Tactic.SplitIfs
import ClonePrint.Json.Read

/-!
# Values are read back as they were written

A written value starts with a character that says of which kind it is, and it ends where it
says so; only a number ends where something else starts. So a value that is read from the
front of a text is the one that was written there, whatever follows.
-/
namespace ClonePrint

namespace Text

theorem digitBelow?_digit (n : Nat) : digitBelow? 10 (digit n) = some (n % 10) := by
  have hall : ∀ d < 10, digitBelow? 10 (Char.ofNat (48 + d)) = some d := by decide
  exact hall (n % 10) (Nat.mod_lt n (by decide))

theorem isDigit_digit (n : Nat) : isDigit (digit n) = true := by
  rw [isDigit, digitBelow?_digit, Option.isSome_some]

theorem decimal_induction {motive : Nat → Text → Prop}
    (small : ∀ n < 10, motive n [digit n])
    (large : ∀ n, 10 ≤ n → motive (n / 10) (decimal (n / 10)) →
      motive n (decimal (n / 10) ++ [digit n])) (n : Nat) : motive n (decimal n) := by
  induction n using Nat.strong_induction_on with
  | _ n ih =>
      rw [decimal]
      split_ifs with hsmall
      · exact small n hsmall
      · exact large n (by omega) (ih (n / 10) (by omega))

theorem isDigit_of_mem_decimal {n : Nat} {c : Char} (h : c ∈ decimal n) : isDigit c = true := by
  have hall : ∀ c ∈ decimal n, isDigit c = true := by
    apply decimal_induction (motive := fun _ t => ∀ c ∈ t, isDigit c = true)
    · intro n _ c hc
      rw [List.mem_singleton] at hc
      rw [hc, isDigit_digit]
    · intro n _ ih c hc
      rcases List.mem_append.1 hc with hc | hc
      · exact ih c hc
      · rw [List.mem_singleton] at hc
        rw [hc, isDigit_digit]
  exact hall c h

theorem decimal_ne_nil (n : Nat) : decimal n ≠ [] := by
  rw [decimal]
  split_ifs <;> simp

theorem readDigits?_decimal (n : Nat) : readDigits? 10 (decimal n) = some n := by
  have hfold : (decimal n).foldlM (fun n c => (digitBelow? 10 c).map (n * 10 + ·)) 0 = some n := by
    apply decimal_induction (motive := fun n t =>
      t.foldlM (fun n c => (digitBelow? 10 c).map (n * 10 + ·)) 0 = some n)
    · intro n hn
      simp [digitBelow?_digit, Nat.mod_eq_of_lt hn]
    · intro n _ ih
      have hsum : n / 10 * 10 + n % 10 = n := by omega
      simp [ih, digitBelow?_digit, hsum]
  rw [readDigits?, if_neg (by simpa using decimal_ne_nil n), hfold]

/-- Only zero starts with a zero. -/
theorem eq_nil_of_decimal_eq {n : Nat} {more : Text} (h : decimal n = '0' :: more) : more = [] := by
  induction n using Nat.strong_induction_on generalizing more with
  | _ n ih =>
      rw [decimal] at h
      split_ifs at h with hsmall
      · exact (List.cons.inj h).2.symm
      · cases hfront : decimal (n / 10) with
        | nil => exact absurd hfront (decimal_ne_nil _)
        | cons c front =>
            rw [hfront, List.cons_append, List.cons.injEq] at h
            rw [h.1] at hfront
            have hzero := ih (n / 10) (by omega) hfront
            have hvalue := readDigits?_decimal (n / 10)
            rw [hfront, hzero] at hvalue
            have htoo : (0 : Nat) = n / 10 := Option.some.inj hvalue
            omega

end Text

namespace Json

open Text (decimal)

/-- What may follow a value in a text that was written. -/
def Stops (rest : Text) : Prop := ∀ c ∈ rest.head?, c = ',' ∨ c = ']' ∨ c = '}'

theorem stops_cons {c : Char} (h : c = ',' ∨ c = ']' ∨ c = '}') (rest : Text) :
    Stops (c :: rest) := by
  intro d hd
  obtain rfl := Option.some.inj hd
  exact h

theorem Stops.not_isDigit {rest : Text} (h : Stops rest) :
    ∀ c ∈ rest.head?, Text.isDigit c = false := by
  intro c hc
  rcases h c hc with rfl | rfl | rfl <;> decide

theorem readRow?_decimal {n : Nat} {rest : Text} (h : Stops rest) :
    readRow? (decimal n ++ rest) = some (decimal n, rest) := by
  have hall : ∀ c ∈ decimal n, Text.isDigit c = true := fun c hc => Text.isDigit_of_mem_decimal hc
  have hrest : rest.takeWhile Text.isDigit = [] ∧ rest.dropWhile Text.isDigit = rest := by
    cases rest with
    | nil => exact ⟨rfl, rfl⟩
    | cons c rest => simp [h.not_isDigit c rfl]
  rw [readRow?, List.takeWhile_append_of_pos hall, List.dropWhile_append_of_pos hall, hrest.1,
    hrest.2, List.append_nil]
  cases hdigits : decimal n with
  | nil => exact absurd hdigits (Text.decimal_ne_nil n)
  | cons c more => rfl

theorem readWhole?_decimal {n : Nat} {rest : Text} (h : Stops rest) :
    readWhole? (decimal n ++ rest) = some (decimal n, rest) := by
  have hrow := readRow?_decimal (n := n) h
  cases hdigits : decimal n with
  | nil => exact absurd hdigits (Text.decimal_ne_nil n)
  | cons c more =>
      rw [hdigits] at hrow
      by_cases hzero : c = '0'
      · subst hzero
        rw [Text.eq_nil_of_decimal_eq hdigits]
        rfl
      · rw [List.cons_append, readWhole?, ← List.cons_append, hrow]
        simpa using hzero

theorem readNumber?_decimal {n : Nat} {rest : Text} (h : Stops rest) :
    readNumber? (decimal n ++ rest) = some (decimal n, rest) := by
  have hfraction : readFraction? rest = some ([], rest) := by
    cases rest with
    | nil => rfl
    | cons c rest => rcases h c rfl with rfl | rfl | rfl <;> rfl
  have hexponent : readExponent? rest = some ([], rest) := by
    cases rest with
    | nil => rfl
    | cons c rest => rcases h c rfl with rfl | rfl | rfl <;> rfl
  have hunsigned : readUnsigned? (decimal n ++ rest) = some (decimal n, rest) := by
    simp [readUnsigned?, readWhole?_decimal h, hfraction, hexponent]
  cases hdigits : decimal n with
  | nil => exact absurd hdigits (Text.decimal_ne_nil n)
  | cons c more =>
      have hc : Text.isDigit c = true := Text.isDigit_of_mem_decimal (n := n) (by simp [hdigits])
      rw [← hdigits, ← hunsigned, hdigits, List.cons_append, readNumber?]
      intro t ht
      rw [(List.cons.inj ht).1] at hc
      exact absurd hc (by decide)

theorem readUnits?_controlEscape {c : Char} (h : c.toNat < 0x20) (rest : Text) :
    readUnits? (controlEscape c ++ rest) =
      (readUnits? rest).map fun read => (c.toNat :: read.1, read.2) := by
  have hunit : Text.readDigits? 16
      ['0', '0', Text.hexDigit (c.toNat / 16), Text.hexDigit (c.toNat % 16)] = some c.toNat := by
    have hall : ∀ n < 0x20, Text.readDigits? 16
        ['0', '0', Text.hexDigit (n / 16), Text.hexDigit (n % 16)] = some n := by decide
    exact hall c.toNat h
  change (Text.readDigits? 16 ['0', '0', Text.hexDigit (c.toNat / 16),
    Text.hexDigit (c.toNat % 16)]).bind _ = _
  rw [hunit, Option.bind_some]
  rfl

/-- A character is read back from the way it is written in a string. -/
theorem readUnits?_escapeChar (c : Char) (rest : Text) :
    readUnits? (escapeChar c ++ rest) =
      (readUnits? rest).map fun read => (c.toNat :: read.1, read.2) := by
  rw [escapeChar]
  split_ifs with hquote hslash hline hreturn htab hback hform hcontrol
  · subst hquote
    rfl
  · subst hslash
    rfl
  · subst hline
    rfl
  · subst hreturn
    rfl
  · subst htab
    rfl
  · rw [← Char.ofNat_toNat c, hback]
    rfl
  · rw [← Char.ofNat_toNat c, hform]
    rfl
  · exact readUnits?_controlEscape hcontrol rest
  · rw [List.singleton_append, readUnits?, if_neg (by simp [hslash, hcontrol])]
    · exact hquote
    · intro _ _ _ _ _ h
      exact absurd h hslash
    · intro _ _ h
      exact absurd h hslash

theorem readUnits?_flatMap_escapeChar (t rest : Text) :
    readUnits? (t.flatMap escapeChar ++ '"' :: rest) = some (t.map Char.toNat, rest) := by
  induction t with
  | nil => rfl
  | cons c t ih =>
      rw [List.flatMap_cons, List.append_assoc, readUnits?_escapeChar, ih]
      rfl

/-- No character is half of a surrogate pair. -/
theorem not_surrogate (c : Char) : c.toNat < 0xD800 ∨ 0xE000 ≤ c.toNat := by
  rcases c.valid with h | h
  · exact .inl h
  · right
    exact h.1

theorem joinUnits?_map_toNat (t : Text) : joinUnits? (t.map Char.toNat) = some t := by
  induction t with
  | nil => rfl
  | cons c t ih =>
      have hc := not_surrogate c
      cases t with
      | nil =>
          rw [List.map_cons, List.map_nil, joinUnits?, if_neg (by omega), Char.ofNat_toNat]
      | cons d t =>
          rw [List.map_cons] at ih
          rw [List.map_cons, List.map_cons, joinUnits?, if_neg (by omega), if_neg (by omega), ih,
            Char.ofNat_toNat]
          rfl

theorem readString?_writeText (t rest : Text) :
    readString? (t.flatMap escapeChar ++ '"' :: rest) = some (some t, rest) := by
  rw [readString?, readUnits?_flatMap_escapeChar, Option.map_some, joinUnits?_map_toNat]

/-- A value that holds natural numbers, text and values of the same sort. -/
inductive Plain : Json → Prop
  | null : Plain .null
  | bool (b : Bool) : Plain (.bool b)
  | number (n : Nat) : Plain (.ofNat n)
  | text (t : Text) : Plain (.ofText t)
  | array {items : List Json} (h : ∀ j ∈ items, Plain j) : Plain (.array items)
  | object {fields : List (String × Json)} (h : ∀ f ∈ fields, Plain f.2) : Plain (.ofFields fields)

/-- A written value is read back, whatever it is followed by. A value inside another one costs
two steps of depth and at least two characters. -/
def Reads (j : Json) : Prop :=
  ∀ depth rest, 2 * j.write.length < depth → Stops rest →
    readValue? depth (j.write ++ rest) = some (j, rest)

theorem skipGap_cons {c : Char} (h : isGap c = false) (t : Text) : skipGap (c :: t) = c :: t := by
  rw [skipGap, List.dropWhile_cons_of_neg]
  simp [h]

/-- A number starts with a digit. -/
theorem exists_decimal_eq (n : Nat) :
    ∃ d more, d < 10 ∧ decimal n = Char.ofNat (48 + d) :: more := by
  apply Text.decimal_induction
    (motive := fun _ t => ∃ d more, d < 10 ∧ t = Char.ofNat (48 + d) :: more)
  · intro n _
    exact ⟨n % 10, [], Nat.mod_lt n (by decide), rfl⟩
  · rintro n _ ⟨d, more, hd, hfront⟩
    rw [hfront, List.cons_append]
    exact ⟨d, _, hd, rfl⟩

theorem isGap_digit {d : Nat} (h : d < 10) :
    isGap (Char.ofNat (48 + d)) = false ∧ Char.ofNat (48 + d) ≠ ']' := by
  revert d
  decide

theorem Plain.exists_write_eq {j : Json} (h : j.Plain) :
    ∃ c more, j.write = c :: more ∧ isGap c = false ∧ c ≠ ']' := by
  cases h with
  | null => exact ⟨_, _, rfl, by decide, by decide⟩
  | bool b => cases b <;> exact ⟨_, _, rfl, by decide, by decide⟩
  | number n =>
      obtain ⟨d, more, hd, hdigits⟩ := exists_decimal_eq n
      exact ⟨_, more, hdigits, isGap_digit hd⟩
  | text t => exact ⟨_, _, rfl, by decide, by decide⟩
  | @array items _ => cases items <;> exact ⟨_, _, rfl, by decide, by decide⟩
  | @object fields _ => cases fields <;> exact ⟨_, _, rfl, by decide, by decide⟩

theorem reads_ofNat (n : Nat) : Reads (.ofNat n) := by
  intro depth rest hdepth hstops
  obtain ⟨d, more, hd, hdigits⟩ := exists_decimal_eq n
  cases depth with
  | zero => omega
  | succ depth =>
      have hnumber := readNumber?_decimal (n := n) hstops
      change readValue? (depth + 1) (decimal n ++ rest) = some (.number (decimal n), rest)
      rw [hdigits, List.cons_append] at hnumber ⊢
      rw [readValue?, skipGap_cons (isGap_digit hd).1]
      have hread := congrArg (Option.map fun read => (Json.number read.1, read.2)) hnumber
      interval_cases d <;> exact hread

theorem reads_ofText (t : Text) : Reads (.ofText t) := by
  intro depth rest hdepth hstops
  cases depth with
  | zero => omega
  | succ depth =>
      have hstring := readString?_writeText t rest
      have hwrite : (ofText t).write ++ rest = '"' :: (t.flatMap escapeChar ++ '"' :: rest) := by
        simp [ofText, write, writeText]
      rw [hwrite, readValue?, skipGap_cons (by decide)]
      simp only [hstring]
      rfl

/-- The items of an array are read back one after the other. -/
theorem readItems?_write {item : Json} {items : List Json} (hitem : Reads item)
    (hitems : ∀ j ∈ items, Reads j) (depth : Nat) (rest : Text)
    (hdepth : 2 * (item.write.length + (writeItems items).length) < depth) :
    readItems? depth (item.write ++ (writeItems items ++ rest)) = some (item :: items, rest) := by
  induction items generalizing item depth with
  | nil =>
      cases depth with
      | zero => omega
      | succ depth =>
          simp only [writeItems, List.length_singleton] at hdepth
          rw [readItems?, writeItems, List.singleton_append,
            hitem depth _ (by omega) (stops_cons (by decide) rest), Option.bind_some]
          rfl
  | cons next more ih =>
      cases depth with
      | zero => omega
      | succ depth =>
          simp only [writeItems, List.length_cons, List.length_append] at hdepth
          rw [readItems?, writeItems, List.cons_append,
            hitem depth _ (by omega) (stops_cons (by decide) _), Option.bind_some,
            skipGap_cons (by decide), List.append_assoc]
          have hmore := ih (hitems next (by simp)) (fun j hj => hitems j (by simp [hj])) depth
            (by omega)
          simp only [hmore]
          rfl

theorem reads_array {items : List Json} (hplain : ∀ j ∈ items, j.Plain)
    (hitems : ∀ j ∈ items, Reads j) : Reads (.array items) := by
  intro depth rest hdepth hstops
  cases depth with
  | zero => omega
  | succ depth =>
      cases items with
      | nil =>
          rw [write, List.cons_append, readValue?, skipGap_cons (by decide)]
          rfl
      | cons item more =>
          obtain ⟨c, tail, hitem, hgap, hend⟩ := (hplain item (by simp)).exists_write_eq
          rw [write, List.length_cons, List.length_append] at hdepth
          have hmore : ∀ j ∈ more, Reads j := fun j hj => hitems j (by simp [hj])
          have hread := readItems?_write (hitems item (by simp)) hmore depth rest (by omega)
          rw [write, List.cons_append, readValue?, skipGap_cons (by decide), List.append_assoc]
          rw [hitem, List.cons_append] at hread ⊢
          simp only [skipGap_cons hgap]
          split
          · rename_i h
            exact absurd (List.cons.inj h).1 hend
          · rw [hread, Option.map_some]

theorem writeField_append (name : Text) (value : Json) (tail : Text) :
    writeField (some name, value) ++ tail =
      '"' :: (name.flatMap escapeChar ++ '"' :: (':' :: (value.write ++ tail))) := by
  simp [writeField, writeText]

/-- A field is read back up to the comma or to the end behind it. -/
theorem readFields?_field_comma (name : Text) {value : Json} (hvalue : Reads value) {depth : Nat}
    (hdepth : 2 * value.write.length < depth) (tail : Text) :
    readFields? (depth + 1) (writeField (some name, value) ++ ',' :: tail) =
      (readFields? depth tail).map fun more => ((some name, value) :: more.1, more.2) := by
  have hread := hvalue depth (',' :: tail) hdepth (stops_cons (by decide) tail)
  rw [writeField_append, readFields?, skipGap_cons (by decide)]
  simp only [readString?_writeText, Option.bind_some, skipGap_cons (c := ':') (by decide), hread,
    skipGap_cons (c := ',') (by decide)]

theorem readFields?_field_end (name : Text) {value : Json} (hvalue : Reads value) {depth : Nat}
    (hdepth : 2 * value.write.length < depth) (tail : Text) :
    readFields? (depth + 1) (writeField (some name, value) ++ '}' :: tail) =
      some ([(some name, value)], tail) := by
  have hread := hvalue depth ('}' :: tail) hdepth (stops_cons (by decide) tail)
  rw [writeField_append, readFields?, skipGap_cons (by decide)]
  simp only [readString?_writeText, Option.bind_some, skipGap_cons (c := ':') (by decide), hread,
    skipGap_cons (c := '}') (by decide)]

theorem length_writeField (name : Text) (value : Json) :
    value.write.length < (writeField (some name, value)).length := by
  simp [writeField]
  omega

/-- The fields of an object are read back one after the other. -/
theorem readFields?_write {field : String × Json} {fields : List (String × Json)}
    (hfield : Reads field.2) (hfields : ∀ f ∈ fields, Reads f.2) (depth : Nat) (rest : Text)
    (hdepth : 2 * ((writeField (some field.1.toList, field.2)).length +
      (writeFields (fields.map fun f => (some f.1.toList, f.2))).length) < depth) :
    readFields? depth (writeField (some field.1.toList, field.2) ++
      (writeFields (fields.map fun f => (some f.1.toList, f.2)) ++ rest)) =
        some ((field :: fields).map fun f => (some f.1.toList, f.2), rest) := by
  have hlength := length_writeField field.1.toList field.2
  induction fields generalizing field depth with
  | nil =>
      cases depth with
      | zero => omega
      | succ depth =>
          rw [List.map_nil, writeFields, List.singleton_append,
            readFields?_field_end _ hfield (by omega)]
          rfl
  | cons next more ih =>
      cases depth with
      | zero => omega
      | succ depth =>
          simp only [List.map_cons, writeFields, List.length_cons, List.length_append] at hdepth
          have hmore := ih (hfields next (by simp)) (fun f hf => hfields f (by simp [hf])) depth
            (by omega) (length_writeField ..)
          rw [List.map_cons, writeFields, List.cons_append,
            readFields?_field_comma _ hfield (by omega), List.append_assoc, hmore]
          rfl

theorem reads_ofFields {fields : List (String × Json)} (hfields : ∀ f ∈ fields, Reads f.2) :
    Reads (.ofFields fields) := by
  intro depth rest hdepth hstops
  cases depth with
  | zero => omega
  | succ depth =>
      cases fields with
      | nil =>
          rw [ofFields, List.map_nil, write, List.cons_append, readValue?, skipGap_cons (by decide)]
          rfl
      | cons field more =>
          rw [ofFields, List.map_cons, write, List.length_cons, List.length_append] at hdepth
          have hmore : ∀ f ∈ more, Reads f.2 := fun f hf => hfields f (by simp [hf])
          have hread := readFields?_write (hfields field (by simp)) hmore depth rest (by omega)
          have hhead : ∃ tail, writeField (some field.1.toList, field.2) = '"' :: tail := by
            exact ⟨_, by rw [writeField, writeText, List.cons_append]⟩
          obtain ⟨tail, hhead⟩ := hhead
          rw [ofFields, List.map_cons, write, List.cons_append, readValue?,
            skipGap_cons (by decide), List.append_assoc]
          rw [hhead, List.cons_append] at hread ⊢
          simp only [skipGap_cons (c := '"') (by decide)]
          exact congrArg (Option.map fun read => (object read.1, read.2)) hread

/-- A written value is read back. -/
theorem Plain.reads {j : Json} (h : j.Plain) : Reads j := by
  induction h with
  | null =>
      intro depth rest hdepth _
      cases depth with
      | zero => omega
      | succ depth => rfl
  | bool b =>
      intro depth rest hdepth _
      cases depth with
      | zero => omega
      | succ depth => cases b <;> rfl
  | number n => exact reads_ofNat n
  | text t => exact reads_ofText t
  | array h ih => exact reads_array h ih
  | object h ih => exact reads_ofFields ih

theorem read?_write {j : Json} (h : j.Plain) : read? j.write = some j := by
  have hread := h.reads (2 * j.write.length + 1) [] (by omega) (fun c hc => by cases hc)
  rw [List.append_nil] at hread
  rw [read?, hread]
  rfl

end Json

end ClonePrint
