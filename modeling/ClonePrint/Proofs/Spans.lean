import ClonePrint.Export.Tag
import ClonePrint.Proofs.Framing
import ClonePrint.Proofs.Pieces
import ClonePrint.Proofs.Scanning

/-!
# The spans of tags

An export is read to its end, span by span. A span is the text in front of a tag and the tag, and
it begins where the span before it ended. Only the end of the export cuts a span short. The same
spans are found when the bytes of the export are searched one by one, because what stops a
search is a character of one byte, which is part of no other character.
-/
namespace ClonePrint

/-- What one reading takes up: text without a tag behind it, or text and a tag, which has nothing
but a name or has attributes behind one more character. The export may end in any part of it. -/
inductive TagSpan where
  | untagged (before : Text)
  | named (before name : Text) (closed : Bool)
  | attributed (before name : Text) (delimiter : Char) (attributes : Text) (closed : Bool)
deriving Repr, DecidableEq

namespace TagSpan

/-- The closing bracket, unless the export ends in front of it. -/
def bracket (closed : Bool) : Text := if closed then ['>'] else []

def written : TagSpan → Text
  | untagged before => before
  | named before name closed => before ++ '<' :: (name ++ bracket closed)
  | attributed before name delimiter attributes closed =>
      before ++ '<' :: (name ++ delimiter :: (attributes ++ bracket closed))

def tag : TagSpan → Tag
  | untagged before => ⟨[], Text.decodeEntities (Text.stripBlanks before), []⟩
  | named before name _ => ⟨name, Text.decodeEntities (Text.stripBlanks before), []⟩
  | attributed before name _ attributes _ =>
      ⟨name, Text.decodeEntities (Text.stripBlanks before), Text.trim attributes⟩

/-- The export does not end in the span. -/
def isWhole : TagSpan → Bool
  | untagged _ => false
  | named _ _ closed | attributed _ _ _ _ closed => closed

/-- No part holds a character that would have ended it. -/
def IsProper : TagSpan → Prop
  | untagged before => '<' ∉ before
  | named before name _ => '<' ∉ before ∧ ∀ c ∈ name, TagStream.endsName c = false
  | attributed before name delimiter attributes _ =>
      '<' ∉ before ∧ (∀ c ∈ name, TagStream.endsName c = false) ∧
        TagStream.endsName delimiter = true ∧ delimiter ≠ '>' ∧ '>' ∉ attributes

/-- The spans as they stand in the export, one behind the other. -/
def join (spans : List TagSpan) : Text := spans.flatMap written

theorem join_cons (span : TagSpan) (spans : List TagSpan) :
    join (span :: spans) = span.written ++ join spans := List.flatMap_cons

theorem join_append (front back : List TagSpan) : join (front ++ back) = join front ++ join back :=
  List.flatMap_append

theorem join_concat (front : List TagSpan) (span : TagSpan) :
    join (front ++ [span]) = join front ++ span.written := by
  rw [join_append, join_cons]
  exact congrArg _ (List.append_nil _)

/-- The text begins with the span, and the rest stands behind it. -/
structure Begins (span : TagSpan) (t rest : Text) : Prop where
  text_eq : t = span.written ++ rest
  proper : span.IsProper
  whole : span.isWhole = false → rest = []

end TagSpan

namespace TagStream

theorem stretch_of_forall {stops : Char → Bool} {t : Text} (h : ∀ c ∈ t, stops c = false) :
    stretch stops t = ⟨t, none, []⟩ := by
  induction t with
  | nil => rfl
  | cons c t ih =>
      rw [stretch, if_neg (Bool.eq_false_iff.1 (h c List.mem_cons_self)),
        ih fun d hd => h d (List.mem_cons_of_mem _ hd)]

/-- Either nothing stops, or there is a first character that does. -/
theorem forall_or_exists_stop (stops : Char → Bool) (t : Text) :
    (∀ c ∈ t, stops c = false) ∨ ∃ front c rest, t = front ++ c :: rest ∧
      (∀ d ∈ front, stops d = false) ∧ stops c = true := by
  induction t with
  | nil => exact .inl fun c hc => by cases hc
  | cons d t ih =>
      by_cases hd : stops d = true
      · exact .inr ⟨[], d, t, rfl, by simp, hd⟩
      · have hgoes := Bool.eq_false_iff.2 hd
        obtain hall | ⟨front, c, rest, rfl, hfront, hc⟩ := ih
        · exact .inl (List.forall_mem_cons.2 ⟨hgoes, hall⟩)
        · exact .inr ⟨d :: front, c, rest, rfl, List.forall_mem_cons.2 ⟨hgoes, hfront⟩, hc⟩

theorem notMem_or_exists_eq (c : Char) (t : Text) :
    c ∉ t ∨ ∃ front rest, t = front ++ c :: rest ∧ c ∉ front := by
  by_cases h : c ∈ t
  · obtain ⟨front, rest, htext, hfront⟩ := List.eq_append_cons_of_mem h
    exact .inr ⟨front, rest, htext, hfront⟩
  · exact .inl h

theorem beq_eq_false_of_notMem {c : Char} {t : Text} (h : c ∉ t) : ∀ d ∈ t, (d == c) = false :=
  fun _ hd => beq_false_of_ne fun heq => h (heq ▸ hd)

/-- Every text begins with a span. -/
theorem exists_begins (t : Text) : ∃ (span : TagSpan) (rest : Text), span.Begins t rest := by
  obtain hopen | ⟨before, more, rfl, hopen⟩ := notMem_or_exists_eq '<' t
  · exact ⟨.untagged t, [], (List.append_nil t).symm, hopen, fun _ => rfl⟩
  obtain hname | ⟨name, d, more, rfl, hname, hd⟩ := forall_or_exists_stop endsName more
  · exact ⟨.named before more false, [], by simp [TagSpan.written, TagSpan.bracket],
      ⟨hopen, hname⟩, fun _ => rfl⟩
  by_cases hclose : d = '>'
  · subst hclose
    exact ⟨.named before name true, more, by simp [TagSpan.written, TagSpan.bracket],
      ⟨hopen, hname⟩, fun hcut => by cases hcut⟩
  obtain hattributes | ⟨attributes, rest, rfl, hattributes⟩ := notMem_or_exists_eq '>' more
  · exact ⟨.attributed before name d more false, [], by simp [TagSpan.written, TagSpan.bracket],
      ⟨hopen, hname, hd, hclose, hattributes⟩, fun _ => rfl⟩
  · exact ⟨.attributed before name d attributes true, rest,
      by simp [TagSpan.written, TagSpan.bracket], ⟨hopen, hname, hd, hclose, hattributes⟩,
      fun hcut => by cases hcut⟩

theorem after_end (s : TagStream) (front : Text) :
    s.after ⟨front, none, []⟩ = ⟨[], s.line + Text.lineBreaks front⟩ := rfl

/-- A reading takes up the span that the text begins with. -/
theorem next_of_begins {span : TagSpan} {t rest : Text} (h : span.Begins t rest) (line : Nat) :
    next ⟨t, line⟩ = (span.tag, ⟨rest, line + Text.lineBreaks span.written⟩) := by
  obtain ⟨rfl, hproper, hwhole⟩ := h
  have hbracket {before : Text} (hopen : '<' ∉ before) (t : Text) :
      stretch (· == '<') (before ++ '<' :: t) = ⟨before, some '<', t⟩ :=
    stretch_append (beq_eq_false_of_notMem hopen) rfl t
  cases span with
  | untagged before =>
      obtain rfl := hwhole rfl
      rw [List.append_nil, TagSpan.written, next,
        stretch_of_forall (beq_eq_false_of_notMem hproper)]
      rfl
  | named before name closed =>
      obtain ⟨hopen, hname⟩ := hproper
      cases closed with
      | false =>
          obtain rfl := hwhole rfl
          have hwritten : (TagSpan.named before name false).written = before ++ '<' :: name := by
            simp [TagSpan.written, TagSpan.bracket]
          rw [List.append_nil, hwritten, next, hbracket hopen]
          simp only [after_stretch, stretch_of_forall hname, after_end, true_or, ↓reduceIte]
          rw [Nat.add_assoc, ← Text.lineBreaks_append, List.append_assoc, List.singleton_append]
          rfl
      | true =>
          have hwritten : (TagSpan.named before name true).written = before ++ startTag name [] :=
            rfl
          rw [hwritten, List.append_assoc, next_startTag hopen hname rfl]
          rfl
  | attributed before name delimiter attributes closed =>
      obtain ⟨hopen, hname, hdelimiter, hclose, hattributes⟩ := hproper
      cases closed with
      | false =>
          obtain rfl := hwhole rfl
          have hwritten : (TagSpan.attributed before name delimiter attributes false).written =
              before ++ '<' :: (name ++ delimiter :: attributes) := by
            simp [TagSpan.written, TagSpan.bracket]
          rw [List.append_nil, hwritten, next, hbracket hopen]
          simp only [after_stretch, stretch_append hname hdelimiter,
            stretch_of_forall (beq_eq_false_of_notMem hattributes), after_end]
          rw [if_neg (by simp [hclose]), Nat.add_assoc, Nat.add_assoc, ← Text.lineBreaks_append,
            ← Text.lineBreaks_append]
          simp only [List.append_assoc, List.singleton_append]
          rfl
      | true =>
          have hwritten : (TagSpan.attributed before name delimiter attributes true).written =
              before ++ startTag name (delimiter :: attributes) := rfl
          have hlist : areAttributes (delimiter :: attributes) = true := by
            simp [areAttributes, hdelimiter, Ne.symm hclose, hattributes]
          rw [hwritten, List.append_assoc, next_startTag hopen hname hlist,
            Text.trim_cons_of_isBlank (isBlank_of_endsName hdelimiter hclose)]
          rfl

end TagStream

namespace Text

theorem length_bytes (t : Text) : (bytes t).length = size t := by
  induction t with
  | nil => rfl
  | cons c t ih =>
      rw [bytes, List.flatMap_cons, List.length_append, String.length_utf8EncodeChar]
      exact congrArg _ ih

theorem count_bytes (t : Text) : (bytes t).count 10 = lineBreaks t := by
  induction t with
  | nil => rfl
  | cons c t ih =>
      have hchar : (String.utf8EncodeChar c).count 10 = if c = '\n' then 1 else 0 := by
        split
        · rename_i hc
          rw [hc]
          rfl
        · rename_i hc
          exact List.count_eq_zero_of_not_mem fun h =>
            hc (eq_of_mem_utf8EncodeChar (d := '\n') rfl h)
      have hlast : (c :: t).count '\n' = t.count '\n' + if c = '\n' then 1 else 0 := by
        rw [List.count_cons]
        simp
      rw [bytes, List.flatMap_cons, List.count_append, hchar, lineBreaks, hlast, Nat.add_comm]
      exact congrArg (· + _) ih

end Text

/-- A place between two bytes: how many bytes are in front of it, and how many line breaks. -/
structure BytePlace where
  offset : Nat := 0
  line : Nat := 0
deriving Repr, DecidableEq

namespace BytePlace

/-- What a search has come to, at the byte that stopped it or at the end. -/
structure Stop where
  offset : Nat
  byte : Option UInt8
  after : BytePlace
deriving Repr, DecidableEq

/-- Search for a byte that stops, one by one. The list holds the bytes behind the place. -/
def search (stops : List UInt8) (p : BytePlace) : List UInt8 → Stop
  | [] => ⟨p.offset, none, p⟩
  | b :: ahead =>
      let next : BytePlace := ⟨p.offset + 1, p.line + if b = 10 then 1 else 0⟩
      if stops.contains b then ⟨p.offset, some b, next⟩ else search stops next ahead

/-- The part of a text that a search has passed over, the byte that stopped it, and the place
behind. -/
structure Part where
  text : Text
  byte : Option UInt8
  after : BytePlace

/-- Search the bytes of a text from a place on. There is no part if the search begins or ends
inside a character. -/
def part? (stops t : Text) (p : BytePlace) : Option Part :=
  let found := p.search (Text.bytes stops) ((Text.bytes t).drop p.offset)
  (Text.slice? p.offset found.offset t).map (⟨·, found.byte, found.after⟩)

/-- Read the next tag of a text from its bytes. -/
def next? (t : Text) (p : BytePlace) : Option (Tag × BytePlace) :=
  (part? ['<'] t p).bind fun before =>
    let textBefore := Text.decodeEntities (Text.stripBlanks before.text)
    (part? [' ', '\t', '\r', '\n', '>'] t before.after).bind fun name =>
      if name.byte = none ∨ name.byte = some 62 then some (⟨name.text, textBefore, []⟩, name.after)
      else
        (part? ['>'] t name.after).map fun attributes =>
          (⟨name.text, textBefore, Text.trim attributes.text⟩, attributes.after)

/-- Whether nothing but blanks is left of a text, if the place is not inside a character. -/
def isEmpty? (t : Text) (p : BytePlace) : Option Bool :=
  (Text.cut? p.offset t).map fun parts => Text.isAllBlank parts.2

/-- The place behind a text. -/
def behind (t : Text) : BytePlace := ⟨(Text.bytes t).length, (Text.bytes t).count 10⟩

theorem behind_append (a b : Text) : behind (a ++ b) =
    ⟨(behind a).offset + (Text.bytes b).length, (behind a).line + (Text.bytes b).count 10⟩ := by
  rw [behind, Text.bytes_append, List.length_append, List.count_append]
  rfl

theorem drop_behind (front rest : Text) :
    (Text.bytes (front ++ rest)).drop (behind front).offset = Text.bytes rest := by
  rw [behind, Text.bytes_append, List.drop_left]

theorem slice?_behind (front part rest : Text) :
    Text.slice? (behind front).offset (behind (front ++ part)).offset (front ++ (part ++ rest)) =
      some part :=
  Text.slice?_eq_some_iff.2 ⟨front, rest, rfl, (Text.length_bytes front).symm, by
    rw [behind_append, Text.length_bytes]⟩

theorem cut?_behind (front rest : Text) :
    Text.cut? (behind front).offset (front ++ rest) = some (front, rest) :=
  Text.cut?_eq_some_iff.2 ⟨rfl, (Text.length_bytes front).symm⟩

theorem search_append {bytes : List UInt8} {front : List UInt8} (h : ∀ b ∈ front, b ∉ bytes)
    (ahead : List UInt8) (p : BytePlace) : p.search bytes (front ++ ahead) =
      search bytes ⟨p.offset + front.length, p.line + front.count 10⟩ ahead := by
  induction front generalizing p with
  | nil => rfl
  | cons b front ih =>
      have hb : bytes.contains b = false := by
        rw [← Bool.not_eq_true, List.contains_iff_mem]
        exact h b List.mem_cons_self
      rw [List.cons_append, search, hb, if_neg Bool.false_ne_true,
        ih fun d hd => h d (List.mem_cons_of_mem _ hd), List.length_cons, List.count_cons]
      simp only [beq_iff_eq, Nat.add_assoc, Nat.add_comm 1, Nat.add_comm (ite _ _ _)]

section seek

variable {stops : List Char} (hsingle : ∀ c ∈ stops, c.utf8Size = 1) {part : Text}
  (hpart : ∀ c ∈ part, c ∉ stops) (front : Text)
include hsingle hpart

/-- The search passes as a whole over characters that do not stop it. -/
theorem search_behind_append (ahead : List UInt8) :
    (behind front).search (Text.bytes stops) (Text.bytes part ++ ahead) =
      (behind (front ++ part)).search (Text.bytes stops) ahead := by
  have hbytes : ∀ b ∈ Text.bytes part, b ∉ Text.bytes stops := by
    intro b hb hstop
    obtain ⟨c, hc, hbc⟩ := List.mem_flatMap.1 hb
    obtain ⟨d, hd, hbd⟩ := List.mem_flatMap.1 hstop
    rw [String.utf8EncodeChar_eq_singleton (hsingle d hd), List.mem_singleton] at hbd
    subst hbd
    exact hpart c hc (Text.eq_of_mem_utf8EncodeChar (hsingle d hd) hbc ▸ hd)
  rw [search_append hbytes, behind_append]

theorem part?_end {t : Text} (ht : t = front ++ part) :
    part? stops t (behind front) = some ⟨part, none, behind t⟩ := by
  subst ht
  have hsearch : (behind front).search (Text.bytes stops) (Text.bytes part) =
      ⟨(behind (front ++ part)).offset, none, behind (front ++ part)⟩ := by
    have hpass := search_behind_append hsingle hpart front []
    rw [List.append_nil] at hpass
    exact hpass
  have hslice := slice?_behind front part []
  rw [List.append_nil] at hslice
  rw [part?, drop_behind, hsearch]
  exact congrArg _ hslice

theorem part?_stop {c : Char} (hc : c ∈ stops) {t rest : Text}
    (ht : t = front ++ (part ++ c :: rest)) : part? stops t (behind front) =
      some ⟨part, some c.val.toUInt8, behind (front ++ (part ++ [c]))⟩ := by
  subst ht
  have hbyte : Text.bytes [c] = [c.val.toUInt8] := by
    rw [Text.bytes, List.flatMap_singleton, String.utf8EncodeChar_eq_singleton (hsingle c hc)]
  have hmem : (Text.bytes stops).contains c.val.toUInt8 = true := by
    rw [List.contains_iff_mem]
    refine List.mem_flatMap.2 ⟨c, hc, ?_⟩
    rw [String.utf8EncodeChar_eq_singleton (hsingle c hc)]
    exact List.mem_singleton_self _
  have hrest : Text.bytes (part ++ c :: rest) =
      Text.bytes part ++ c.val.toUInt8 :: Text.bytes rest := by
    rw [Text.bytes_append, ← List.singleton_append, Text.bytes_append, hbyte]
    rfl
  have hsearch : (behind front).search (Text.bytes stops) (Text.bytes (part ++ c :: rest)) =
      ⟨(behind (front ++ part)).offset, some c.val.toUInt8, behind (front ++ (part ++ [c]))⟩ := by
    rw [hrest, search_behind_append hsingle hpart, search, hmem, if_pos rfl, ← List.append_assoc,
      behind_append (front ++ part), hbyte, List.count_singleton]
    simp only [List.length_singleton, beq_iff_eq]
  rw [part?, drop_behind, hsearch]
  exact congrArg _ (slice?_behind front part (c :: rest))

end seek

theorem notMem_singleton_of_notMem {c : Char} {t : Text} (h : c ∉ t) : ∀ d ∈ t, d ∉ [c] :=
  fun _ hd hstop => h (List.mem_singleton.1 hstop ▸ hd)

theorem mem_nameStops {c : Char} :
    c ∈ [' ', '\t', '\r', '\n', '>'] ↔ TagStream.endsName c = true := by
  simp [TagStream.endsName, or_assoc]

theorem notMem_nameStops {name : Text} (h : ∀ c ∈ name, TagStream.endsName c = false) :
    ∀ c ∈ name, c ∉ [' ', '\t', '\r', '\n', '>'] :=
  fun c hc hstop => Bool.false_ne_true ((h c hc).symm.trans (mem_nameStops.1 hstop))

theorem utf8Size_nameStops : ∀ c ∈ [' ', '\t', '\r', '\n', '>'], c.utf8Size = 1 := by
  simp only [List.forall_mem_cons]
  exact ⟨rfl, rfl, rfl, rfl, rfl, by simp⟩

theorem utf8Size_brackets : ∀ c ∈ ['<', '>'], c.utf8Size = 1 := by
  simp only [List.forall_mem_cons]
  exact ⟨rfl, rfl, by simp⟩

theorem byte_ne_of_ne {c : Char} (h : c ∈ [' ', '\t', '\r', '\n', '>']) (hc : c ≠ '>') :
    c.val.toUInt8 ≠ 62 := by
  intro hbyte
  refine hc (Text.eq_of_mem_utf8EncodeChar (d := '>') rfl ?_)
  rw [String.utf8EncodeChar_eq_singleton (utf8Size_nameStops c h), hbyte]
  exact List.mem_singleton_self _

/-- The bytes of the text lead to the same span. -/
theorem next?_of_begins {span : TagSpan} {t rest : Text} (h : span.Begins t rest) (front : Text) :
    next? (front ++ t) (behind front) = some (span.tag, behind (front ++ span.written)) := by
  obtain ⟨htext, hproper, hwhole⟩ := h
  have hbracket {c : Char} (h : c ∈ ['<', '>']) : ∀ d ∈ [c], d.utf8Size = 1 :=
    List.forall_mem_singleton.2 (utf8Size_brackets c h)
  have hopening {before more : Text} (hopen : '<' ∉ before) (ht : t = before ++ '<' :: more) :
      part? ['<'] (front ++ t) (behind front) =
        some ⟨before, some 60, behind (front ++ (before ++ ['<']))⟩ :=
    part?_stop (hbracket (by simp)) (notMem_singleton_of_notMem hopen) front
      (List.mem_singleton_self _) (congrArg _ ht)
  cases span with
  | untagged before =>
      have ht : t = before := by
        rw [htext, hwhole rfl, TagSpan.written, List.append_nil]
      have hnothing : ∀ c ∈ ([] : Text), c ∉ [' ', '\t', '\r', '\n', '>'] := by simp
      rw [next?, part?_end (hbracket (by simp)) (notMem_singleton_of_notMem hproper) front
        (congrArg _ ht), Option.bind_some]
      dsimp only
      rw [part?_end utf8Size_nameStops hnothing (front ++ t) (by simp), ht]
      rfl
  | named before name closed =>
      obtain ⟨hopen, hname⟩ := hproper
      cases closed with
      | false =>
          have ht : t = before ++ '<' :: name := by
            simp [htext, hwhole rfl, TagSpan.written, TagSpan.bracket]
          have hnamed : front ++ t = front ++ (before ++ ['<']) ++ name := by simp [ht]
          rw [next?, hopening hopen ht, Option.bind_some]
          dsimp only
          rw [part?_end utf8Size_nameStops (notMem_nameStops hname) _ hnamed]
          simp [TagSpan.tag, TagSpan.written, TagSpan.bracket, ht]
      | true =>
          have ht : t = before ++ '<' :: (name ++ '>' :: rest) := by
            simp [htext, TagSpan.written, TagSpan.bracket]
          have hnamed : front ++ t = front ++ (before ++ ['<']) ++ (name ++ '>' :: rest) := by
            simp [ht]
          have hstop := mem_nameStops.2 (show TagStream.endsName '>' = true by decide)
          rw [next?, hopening hopen ht, Option.bind_some]
          dsimp only
          rw [part?_stop utf8Size_nameStops (notMem_nameStops hname) _ hstop hnamed]
          simp [TagSpan.tag, TagSpan.written, TagSpan.bracket]
  | attributed before name delimiter attributes closed =>
      obtain ⟨hopen, hname, hdelimiter, hclose, hattributes⟩ := hproper
      have hstop := mem_nameStops.2 hdelimiter
      have hbyte : ¬(some delimiter.val.toUInt8 = none ∨ some delimiter.val.toUInt8 = some 62) := by
        simpa using byte_ne_of_ne hstop hclose
      have ht : t = before ++ '<' :: (name ++ delimiter ::
          (attributes ++ (TagSpan.bracket closed ++ rest))) := by
        simp [htext, TagSpan.written]
      have hnamed : front ++ t = front ++ (before ++ ['<']) ++ (name ++ delimiter ::
          (attributes ++ (TagSpan.bracket closed ++ rest))) := by
        simp [ht]
      rw [next?, hopening hopen ht, Option.bind_some]
      dsimp only
      rw [part?_stop utf8Size_nameStops (notMem_nameStops hname) _ hstop hnamed, Option.bind_some]
      dsimp only
      rw [if_neg hbyte]
      cases closed with
      | false =>
          have hlisted : front ++ t =
              front ++ (before ++ ['<']) ++ (name ++ [delimiter]) ++ attributes := by
            simp [ht, hwhole rfl, TagSpan.bracket]
          rw [part?_end (hbracket (by simp)) (notMem_singleton_of_notMem hattributes) _ hlisted]
          simp [TagSpan.tag, TagSpan.written, TagSpan.bracket, ht, hwhole rfl]
      | true =>
          have hlisted : front ++ t = front ++ (before ++ ['<']) ++ (name ++ [delimiter]) ++
              (attributes ++ '>' :: rest) := by
            simp [ht, TagSpan.bracket]
          rw [part?_stop (hbracket (by simp)) (notMem_singleton_of_notMem hattributes) _
            (List.mem_singleton_self _) hlisted]
          simp [TagSpan.tag, TagSpan.written, TagSpan.bracket]

end BytePlace

namespace TagSpan

/-- The spans stand one behind the other from the beginning of the text, each in front of more than
blanks, and only blanks stand behind them. -/
inductive Divide (blank : Text) : List TagSpan → Text → Prop
  | nil (isBlank : Text.isAllBlank blank = true) : Divide blank [] blank
  | cons {span : TagSpan} {spans : List TagSpan} {t rest : Text}
      (notBlank : Text.isAllBlank t = false) (begins : span.Begins t rest)
      (more : Divide blank spans rest) : Divide blank (span :: spans) t

section

variable {span : TagSpan} {spans front back : List TagSpan} {blank t rest : Text}

theorem Begins.length_lt (h : span.Begins t rest) (hnot : Text.isAllBlank t = false) :
    rest.length < t.length := by
  have hne : (⟨t, 0⟩ : TagStream).rest ≠ [] := TagStream.rest_ne_nil hnot
  have hlt := TagStream.next_rest_length_lt hne
  rwa [TagStream.next_of_begins h] at hlt

theorem exists_divide (t : Text) : ∃ spans blank, Divide blank spans t := by
  induction hlength : t.length using Nat.strongRecOn generalizing t with
  | ind n ih =>
      cases hblank : Text.isAllBlank t with
      | true => exact ⟨[], t, .nil hblank⟩
      | false =>
          obtain ⟨span, rest, hbegins⟩ := TagStream.exists_begins t
          obtain ⟨spans, blank, hdivide⟩ :=
            ih rest.length (hlength ▸ hbegins.length_lt hblank) rest rfl
          exact ⟨span :: spans, blank, .cons hblank hbegins hdivide⟩

theorem Divide.text_eq (h : Divide blank spans t) : t = join spans ++ blank := by
  induction h with
  | nil isBlank => rfl
  | cons notBlank begins more ih => rw [begins.text_eq, ih, join_cons, List.append_assoc]

theorem Divide.isBlank (h : Divide blank spans t) : Text.isAllBlank blank = true := by
  induction h with
  | nil isBlank => exact isBlank
  | cons notBlank begins more ih => exact ih

/-- Every reading takes up at least one character. -/
theorem Divide.length_le (h : Divide blank spans t) : spans.length ≤ t.length := by
  induction h with
  | nil isBlank => exact Nat.zero_le _
  | cons notBlank begins more ih =>
      exact Nat.succ_le_of_lt (ih.trans_lt (begins.length_lt notBlank))

theorem Divide.map_fst_readings (h : Divide blank spans t) (line : Nat) :
    (TagStream.readings ⟨t, line⟩).map Prod.fst = spans.map tag := by
  induction h generalizing line with
  | nil isBlank =>
      have hempty : (⟨_, line⟩ : TagStream).isEmpty = true := isBlank
      rw [TagStream.readings, dif_pos hempty, List.map_nil, List.map_nil]
  | cons notBlank begins more ih =>
      have hnot : ¬(⟨_, line⟩ : TagStream).isEmpty = true := Bool.eq_false_iff.1 notBlank
      rw [TagStream.readings, dif_neg hnot, TagStream.next_of_begins begins, List.map_cons,
        List.map_cons, ih]

theorem Divide.behind (h : Divide blank (front ++ back) t) :
    Divide blank back (join back ++ blank) := by
  induction front generalizing t with
  | nil => exact h.text_eq ▸ h
  | cons first front ih =>
      cases h with
      | cons notBlank begins more => exact ih more

/-- What the first span leaves, and what stands behind it. -/
theorem Divide.cases_cons (h : Divide blank (span :: back) t) :
    Text.isAllBlank t = false ∧ span.Begins t (join back ++ blank) ∧
      Divide blank back (join back ++ blank) := by
  cases h with
  | cons notBlank begins more =>
      have hrest := more.text_eq
      subst hrest
      exact ⟨notBlank, begins, more⟩

/-- Nothing stands behind a span that was cut short. -/
theorem Divide.of_isWhole_eq_false (h : Divide blank (span :: back) t)
    (hcut : span.isWhole = false) : back = [] ∧ blank = [] := by
  obtain ⟨-, hbegins, hmore⟩ := h.cases_cons
  rw [hbegins.whole hcut] at hmore
  cases hmore with
  | nil isBlank => exact ⟨rfl, rfl⟩
  | cons notBlank => cases notBlank

end

end TagSpan

open TagSpan BytePlace

/-- The export is read to its end, one span after the other, also from its bytes. No part of a
span holds what would have ended it, only the end of the export cuts a span short, and the line of
a tag is the number of line breaks in front. -/
structure TagStream.ReadBy (t : Text) (spans : List TagSpan) (blank : Text) : Prop where
  text_eq : t = join spans ++ blank
  isBlank : Text.isAllBlank blank = true
  length_le : spans.length ≤ t.length
  readings : (TagStream.readings ⟨t, 0⟩).map Prod.fst = spans.map tag
  proper {front back : List TagSpan} {span : TagSpan} : spans = front ++ span :: back →
    span.IsProper ∧ (span.isWhole = false → back = [] ∧ blank = [])
  next {front back : List TagSpan} {span : TagSpan} : spans = front ++ span :: back →
    let s : TagStream := ⟨join (span :: back) ++ blank, (behind (join front)).line⟩
    s.isEmpty = false ∧
      s.next = (span.tag, ⟨join back ++ blank, (behind (join (front ++ [span]))).line⟩)
  next? {front back : List TagSpan} {span : TagSpan} : spans = front ++ span :: back →
    (behind (join front)).isEmpty? t = some false ∧
      (behind (join front)).next? t = some (span.tag, behind (join (front ++ [span])))
  isEmpty? : (behind (join spans)).isEmpty? t = some true

/-- Every text is read to its end. -/
theorem TagStream.exists_readBy (t : Text) : ∃ spans blank, TagStream.ReadBy t spans blank := by
  obtain ⟨spans, blank, hdivide⟩ := exists_divide t
  have hbehind {front back : List TagSpan} {span : TagSpan} (h : spans = front ++ span :: back) :
      Divide blank (span :: back) (join (span :: back) ++ blank) := (h ▸ hdivide).behind
  have htext {front back : List TagSpan} (h : spans = front ++ back) :
      t = join front ++ (join back ++ blank) := by
    rw [hdivide.text_eq, h, join_append, List.append_assoc]
  refine ⟨spans, blank, hdivide.text_eq, hdivide.isBlank, hdivide.length_le,
    hdivide.map_fst_readings 0, fun h => ?_, fun h => ?_, fun h => ?_, ?_⟩
  · obtain ⟨-, hbegins, -⟩ := (hbehind h).cases_cons
    exact ⟨hbegins.proper, (hbehind h).of_isWhole_eq_false⟩
  · obtain ⟨hnot, hbegins, -⟩ := (hbehind h).cases_cons
    refine ⟨hnot, ?_⟩
    rw [next_of_begins hbegins, join_concat, behind_append, Text.count_bytes]
  · obtain ⟨hnot, hbegins, -⟩ := (hbehind h).cases_cons
    rw [htext h]
    refine ⟨?_, ?_⟩
    · rw [BytePlace.isEmpty?, cut?_behind, Option.map_some, hnot]
    · rw [next?_of_begins hbegins, join_concat]
  · rw [hdivide.text_eq, BytePlace.isEmpty?, cut?_behind, Option.map_some, hdivide.isBlank]

end ClonePrint
