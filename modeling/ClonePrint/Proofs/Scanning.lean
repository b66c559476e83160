import ClonePrint.Proofs.Document
import ClonePrint.Proofs.Outline

/-!
# The tags of a document

A document is read back tag by tag as it was written. Each run of text comes with the
tag behind it, so what stands in an element is read together with its closing tag.
Comments are read over.
-/
namespace ClonePrint

namespace Text

theorem trim_cons_of_isBlank {c : Char} (h : isBlank c = true) (t : Text) :
    trim (c :: t) = trim t := by
  rw [trim, trimStart, List.dropWhile_cons_of_pos h, trim, trimStart]

theorem getLast?_trim_append_singleton {c : Char} (h : isBlank c = false) (t : Text) :
    (trim (t ++ [c])).getLast? = some c := by
  have hlast : trimStart (t ++ [c]) = trimStart t ++ [c] := by
    rw [trimStart, List.dropWhile_append, trimStart]
    split
    · rename_i hempty
      rw [List.isEmpty_iff.1 hempty, List.dropWhile_cons_of_neg (by simp [h]), List.nil_append]
    · rfl
  rw [trim, hlast, trimEnd, List.reverse_append, List.reverse_singleton, List.singleton_append,
    List.dropWhile_cons_of_neg (by simp [h]), List.getLast?_reverse, List.head?_cons]

end Text

namespace TagStream

theorem stretch_append {stops : Char → Bool} {front : Text} {c : Char}
    (hfront : ∀ x ∈ front, stops x = false) (hc : stops c = true) (rest : Text) :
    stretch stops (front ++ c :: rest) = ⟨front, some c, rest⟩ := by
  induction front with
  | nil => rw [List.nil_append, stretch, if_pos hc]
  | cons x front ih =>
      rw [List.cons_append, stretch, if_neg (Bool.eq_false_iff.1 (hfront x List.mem_cons_self)),
        ih fun y hy => hfront y (List.mem_cons_of_mem _ hy)]

theorem after_stretch (s : TagStream) (front : Text) (c : Char) (rest : Text) :
    s.after ⟨front, some c, rest⟩ = ⟨rest, s.line + Text.lineBreaks (front ++ [c])⟩ := by
  have hlast : Text.lineBreaks [c] = if some c = some '\n' then 1 else 0 := by
    rw [Text.lineBreaks, List.count_singleton]
    simp
  rw [after, Text.lineBreaks_append, hlast, Nat.add_assoc]

end TagStream

/-- What ends the name of a tag is blank unless it ends the tag. -/
theorem isBlank_of_endsName {c : Char} (h : TagStream.endsName c = true) (hc : c ≠ '>') :
    Text.isBlank c = true := by
  simp only [TagStream.endsName, Bool.or_eq_true, beq_iff_eq] at h
  rcases h with (((rfl | rfl) | rfl) | rfl) | rfl
  any_goals decide
  exact absurd rfl hc

theorem areAttributes_cons {sep : Char} {attributes : Text}
    (h : areAttributes (sep :: attributes) = true) :
    TagStream.endsName sep = true ∧ sep ≠ '>' ∧ '>' ∉ attributes := by
  obtain ⟨hsep, hno⟩ := Bool.and_eq_true_iff.1 h
  rw [Bool.not_eq_true', ← Bool.not_eq_true, List.contains_iff_mem, List.mem_cons, not_or] at hno
  exact ⟨hsep, Ne.symm hno.1, hno.2⟩

namespace TagStream

theorem next_startTag {before name attributes : Text} (hbefore : '<' ∉ before)
    (hname : ∀ c ∈ name, endsName c = false) (hattributes : areAttributes attributes = true)
    (more : Text) (line : Nat) :
    next ⟨before ++ (startTag name attributes ++ more), line⟩ =
      (⟨name, Text.decodeEntities (Text.stripBlanks before), Text.trim attributes⟩,
        ⟨more, line + Text.lineBreaks (before ++ startTag name attributes)⟩) := by
  have hopening : stretch (· == '<') (before ++ (startTag name attributes ++ more)) =
      ⟨before, some '<', name ++ (attributes ++ ['>']) ++ more⟩ :=
    stretch_append (fun x hx => beq_false_of_ne fun h => hbefore (by rwa [← h])) rfl _
  rw [next, hopening]
  simp only [after_stretch]
  cases attributes with
  | nil =>
      have hnamed : stretch endsName (name ++ ([] ++ ['>']) ++ more) = ⟨name, some '>', more⟩ := by
        rw [List.nil_append, List.append_assoc]
        exact stretch_append hname (by decide) more
      rw [hnamed]
      have hwhole : before ++ startTag name [] = before ++ ['<'] ++ (name ++ ['>']) := by
        simp [startTag]
      simp only [after_stretch]
      rw [if_pos (.inr trivial), hwhole, Text.lineBreaks_append (before ++ ['<']), Nat.add_assoc]
      rfl
  | cons sep attributes =>
      obtain ⟨hsep, hends, hno⟩ := areAttributes_cons hattributes
      have hnamed : stretch endsName (name ++ (sep :: attributes ++ ['>']) ++ more) =
          ⟨name, some sep, attributes ++ '>' :: more⟩ := by
        rw [List.append_assoc, List.cons_append, List.cons_append, List.append_assoc]
        exact stretch_append hname hsep _
      have hclosing : stretch (· == '>') (attributes ++ '>' :: more) =
          ⟨attributes, some '>', more⟩ :=
        stretch_append (fun x hx => beq_false_of_ne fun h => hno (by rwa [← h])) rfl _
      have hwhole : before ++ startTag name (sep :: attributes) =
          before ++ ['<'] ++ ((name ++ [sep]) ++ (attributes ++ ['>'])) := by
        simp [startTag]
      rw [hnamed]
      simp only [after_stretch, hclosing]
      rw [if_neg (by simp [hends]), hwhole, Text.lineBreaks_append (before ++ ['<']),
        Text.lineBreaks_append (name ++ [sep]), Text.trim_cons_of_isBlank
          (isBlank_of_endsName hsep hends), Nat.add_assoc, Nat.add_assoc]

theorem isEmpty_of_mem {s : TagStream} (h : '<' ∈ s.rest) : s.isEmpty = false := by
  rw [isEmpty, Text.isAllBlank, ← Bool.not_eq_true, List.all_eq_true]
  exact fun hblank => absurd (hblank '<' h) (by decide)

theorem isEmpty_startTag (before name attributes more : Text) (line : Nat) :
    (⟨before ++ (startTag name attributes ++ more), line⟩ : TagStream).isEmpty = false :=
  isEmpty_of_mem (List.mem_append_right _ List.mem_cons_self)

theorem processed_of_isEmpty {s : TagStream} (h : s.isEmpty = true) : s.processed = [] := by
  rw [processed, dif_pos h]

theorem processed_startTag {before name attributes : Text} (hbefore : '<' ∉ before)
    (hname : ∀ c ∈ name, endsName c = false) (hattributes : areAttributes attributes = true)
    (more : Text) (line : Nat) :
    processed ⟨before ++ (startTag name attributes ++ more), line⟩ =
      let tag : Tag :=
        ⟨name, Text.decodeEntities (Text.stripBlanks before), Text.trim attributes⟩
      let s : TagStream := ⟨more, line + Text.lineBreaks (before ++ startTag name attributes)⟩
      ⟨tag, s.line⟩ :: processed (s.beyond tag) := by
  rw [processed, dif_neg (by rw [isEmpty_startTag]; exact Bool.false_ne_true),
    next_startTag hbefore hname hattributes]

theorem skipComment_startTag {before name attributes : Text} (hbefore : '<' ∉ before)
    (hname : ∀ c ∈ name, endsName c = false) (hattributes : areAttributes attributes = true)
    (more : Text) (line : Nat) :
    skipComment ⟨before ++ (startTag name attributes ++ more), line⟩ =
      let s : TagStream := ⟨more, line + Text.lineBreaks (before ++ startTag name attributes)⟩
      if name = "/comment".toList then s else s.skipComment := by
  rw [skipComment, dif_neg (by rw [isEmpty_startTag]; exact Bool.false_ne_true),
    next_startTag hbefore hname hattributes]

end TagStream

section names

variable {name : Text} (h : isElementName name = true)
include h

theorem ne_nil_of_isElementName : name ≠ [] := by
  rintro rfl
  exact Bool.noConfusion h

theorem plain_of_isElementName {c : Char} (hc : c ∈ name) :
    TagStream.endsName c = false ∧ c ≠ '/' := by
  rw [isElementName, Bool.and_eq_true, Bool.and_eq_true, List.all_eq_true] at h
  have hplain := h.1.2 c hc
  simp only [List.all_cons, List.all_nil, Bool.and_true, Bool.and_eq_true, bne_iff_ne] at hplain
  obtain ⟨hspace, htab, hreturn, hbreak, -, hends, hslash⟩ := hplain
  refine ⟨?_, hslash⟩
  simp [TagStream.endsName, hspace, htab, hreturn, hbreak, hends]

theorem endsName_closing {c : Char} (hc : c ∈ '/' :: name) : TagStream.endsName c = false := by
  obtain rfl | hc := List.mem_cons.1 hc
  · decide
  · exact (plain_of_isElementName h hc).1

theorem not_isPrefix_of_isElementName : "comment".toList.isPrefixOf name = false := by
  rw [isElementName, Bool.and_eq_true, Bool.not_eq_true'] at h
  exact h.2

theorem dropLastSlash_of_isElementName : Tag.dropLastSlash name = name := by
  rw [Tag.dropLastSlash, if_neg]
  intro hlast
  exact (plain_of_isElementName h (List.mem_of_getLast? hlast)).2 rfl

variable (text attributes : Text)

theorem isClosing_of_isElementName : (⟨name, text, attributes⟩ : Tag).isClosing = false := by
  obtain ⟨c, name, rfl⟩ := List.exists_cons_of_ne_nil (ne_nil_of_isElementName h)
  exact beq_false_of_ne fun hc =>
    (plain_of_isElementName h List.mem_cons_self).2 (Option.some.inj hc)

theorem opensComment_of_isElementName :
    Reader.opensComment (⟨name, text, attributes⟩ : Tag) = false := not_isPrefix_of_isElementName h

theorem bareName_of_isElementName : (⟨name, text, attributes⟩ : Tag).bareName = name := by
  rw [Tag.bareName]
  split
  · rename_i name' hname
    simp only at hname
    rw [hname] at h
    exact absurd rfl (plain_of_isElementName h List.mem_cons_self).2
  · exact dropLastSlash_of_isElementName h

theorem bareName_closing : (⟨'/' :: name, text, attributes⟩ : Tag).bareName = name :=
  dropLastSlash_of_isElementName h

theorem isSelfClosing_of_isElementName (hplain : isUnslashed attributes = true) :
    (⟨name, text, attributes⟩ : Tag).isSelfClosing = false := by
  rw [Tag.isSelfClosing, Bool.or_eq_false_iff]
  refine ⟨beq_false_of_ne fun hlast => ?_, by simpa [isUnslashed] using hplain⟩
  exact (plain_of_isElementName h (List.mem_of_getLast? hlast)).2 rfl

end names

/-- How an empty element is read. Its slash belongs to the name if there are no attributes. -/
def Tag.ofEmpty (name text attributes : Text) : Tag :=
  if attributes.isEmpty then ⟨name ++ ['/'], text, []⟩
  else ⟨name, text, Text.trim (attributes ++ ['/'])⟩

section empty

variable {name : Text} (h : isElementName name = true) (text attributes : Text)
include h

theorem isClosing_ofEmpty : (Tag.ofEmpty name text attributes).isClosing = false := by
  rw [Tag.ofEmpty]
  split
  · obtain ⟨c, name, rfl⟩ := List.exists_cons_of_ne_nil (ne_nil_of_isElementName h)
    exact beq_false_of_ne fun hc =>
      (plain_of_isElementName h List.mem_cons_self).2 (Option.some.inj hc)
  · exact isClosing_of_isElementName h text _

theorem opensComment_ofEmpty : Reader.opensComment (Tag.ofEmpty name text attributes) = false := by
  rw [Tag.ofEmpty]
  split
  · rw [Reader.opensComment, ← Bool.not_eq_true, List.isPrefixOf_iff_prefix, List.prefix_concat_iff]
    rintro (hwhole | hprefix)
    · have hlast := congrArg List.getLast? hwhole
      rw [List.getLast?_concat] at hlast
      exact absurd hlast (by decide)
    · rw [← List.isPrefixOf_iff_prefix, not_isPrefix_of_isElementName h] at hprefix
      exact Bool.noConfusion hprefix
  · exact opensComment_of_isElementName h text _

theorem exists_emptyTag_eq {attributes : Text} (hattributes : areAttributes attributes = true) :
    ∃ name' attributes', emptyTag name attributes = startTag name' attributes' ∧
      (∀ c ∈ name', TagStream.endsName c = false) ∧ areAttributes attributes' = true ∧
      name' ≠ "/comment".toList ∧
      ∀ text, Tag.ofEmpty name text attributes = ⟨name', text, Text.trim attributes'⟩ := by
  cases attributes with
  | nil =>
      refine ⟨name ++ ['/'], [], by simp [emptyTag, startTag], fun c hc => ?_, rfl, ?_,
        fun text => rfl⟩
      · obtain hc | hc := List.mem_append.1 hc
        · exact (plain_of_isElementName h hc).1
        · rw [List.mem_singleton.1 hc]
          decide
      · intro hcomment
        have hlast := congrArg List.getLast? hcomment
        rw [List.getLast?_concat] at hlast
        exact absurd hlast (by decide)
  | cons sep attributes =>
      refine ⟨name, sep :: attributes ++ ['/'], rfl, fun c hc => (plain_of_isElementName h hc).1,
        ?_, ?_, fun text => rfl⟩
      · obtain ⟨hsep, hno⟩ := Bool.and_eq_true_iff.1 hattributes
        refine Bool.and_eq_true_iff.2 ⟨hsep, ?_⟩
        rw [List.contains_append, Bool.not_or, Bool.and_eq_true]
        exact ⟨hno, by decide⟩
      · rintro rfl
        exact absurd rfl (plain_of_isElementName h List.mem_cons_self).2

end empty

theorem isSelfClosing_ofEmpty (name text attributes : Text) :
    (Tag.ofEmpty name text attributes).isSelfClosing = true := by
  rw [Tag.ofEmpty, Tag.isSelfClosing]
  split
  · simp
  · rw [Text.getLast?_trim_append_singleton (by decide)]
    simp

/-- The tags of what stands in an element and the tag that closes it, given the line breaks
in front of the unit and what stands between it and the content. -/
def Content.tags (close : Text) (base : Nat) (front : Text) : Content → List PlacedTag
  | last text =>
      [⟨⟨'/' :: close, Text.stripBlanks text, []⟩,
        base + Text.lineBreaks (front ++ (Text.escape text ++ endTag close))⟩]
  | element text name attributes inner rest =>
      let opened := front ++ (Text.escape text ++ startTag name attributes)
      let closed := opened ++ (inner.render ++ endTag name)
      ⟨⟨name, Text.stripBlanks text, Text.trim attributes⟩, base + Text.lineBreaks opened⟩ ::
        (inner.tags name base opened ++ rest.tags close base closed)
  | empty text name attributes rest =>
      let closed := front ++ (Text.escape text ++ emptyTag name attributes)
      ⟨Tag.ofEmpty name (Text.stripBlanks text) attributes, base + Text.lineBreaks closed⟩ ::
        rest.tags close base closed
  | comment text attributes inner rest =>
      let opened := front ++ (Text.escape text ++ startTag "comment".toList attributes)
      ⟨⟨"comment".toList, Text.stripBlanks text, Text.trim attributes⟩,
          base + Text.lineBreaks opened⟩ ::
        rest.tags close base (opened ++ (inner.render ++ endTag "comment".toList))

/-- No slash stands in front of the closing bracket, not even with blanks in between. -/
def isPlain (attributes : Text) : Bool := isUnslashed (Text.trim attributes)

namespace TagStream

theorem beyond_of_not_opensComment {tag : Tag} (h : Reader.opensComment tag = false)
    (s : TagStream) : s.beyond tag = s := by
  rw [beyond, h]
  simp

theorem beyond_of_isClosing {tag : Tag} (h : tag.isClosing = true) (s : TagStream) :
    s.beyond tag = s := by
  rw [beyond, h]
  simp

/-- The text in front of a tag comes with it as it was before it was escaped. -/
theorem processed_escape {name attributes : Text} (hname : ∀ c ∈ name, endsName c = false)
    (hattributes : areAttributes attributes = true) (text more : Text) (line : Nat) :
    processed ⟨Text.escape text ++ (startTag name attributes ++ more), line⟩ =
      let tag : Tag := ⟨name, Text.stripBlanks text, Text.trim attributes⟩
      let s : TagStream := ⟨more, line + Text.lineBreaks (Text.escape text ++ startTag name attributes)⟩
      ⟨tag, s.line⟩ :: processed (s.beyond tag) := by
  rw [processed_startTag (Text.not_mem_escape text) hname hattributes,
    Text.decodeEntities_stripBlanks_escape]

end TagStream

namespace Content

open TagStream

variable {c : Content} {close : Text}

theorem endsName_comment : ∀ c ∈ "comment".toList, endsName c = false :=
  Text.forall_mem_of_all (by decide)

theorem beyond_comment {attributes : Text} (h : isPlain attributes = true) (text : Text)
    (s : TagStream) :
    s.beyond ⟨"comment".toList, text, Text.trim attributes⟩ = s.skipComment := by
  have hopen : (⟨"comment".toList, text, Text.trim attributes⟩ : Tag).isSelfClosing = false := by
    rw [Tag.isSelfClosing, Bool.or_eq_false_iff]
    exact ⟨beq_false_of_ne (show "comment".toList.getLast? ≠ some '/' by decide),
      by simpa [isPlain, isUnslashed] using h⟩
  rw [beyond, hopen]
  rfl

/-- What stands in a comment is read over tag by tag. -/
theorem skipComment_render {unslashed : Text → Bool} (hfree : c.isCommentFree = true)
    (hwell : c.isWellFormed unslashed = true) (hclose : ∀ x ∈ close, endsName x = false) (more : Text) (line : Nat) :
    skipComment ⟨c.render ++ (endTag close ++ more), line⟩ =
      let s : TagStream := ⟨more, line + Text.lineBreaks (c.render ++ endTag close)⟩
      if close = "comment".toList then s else s.skipComment := by
  induction c generalizing close more line with
  | last text =>
      have hclosing : ∀ x ∈ '/' :: close, endsName x = false := by
        intro x hx
        obtain rfl | hx := List.mem_cons.1 hx
        · decide
        · exact hclose x hx
      rw [render, endTag, skipComment_startTag (Text.not_mem_escape text) hclosing rfl]
      have hword : '/' :: close = "/comment".toList ↔ close = "comment".toList :=
        ⟨fun h => (List.cons.inj h).2, fun h => congrArg ('/' :: ·) h⟩
      simp only [hword]
  | element text name attributes inner rest ihInner ihRest =>
      simp only [isWellFormed, Bool.and_eq_true] at hwell
      obtain ⟨⟨⟨⟨hname, hattributes⟩, -⟩, hinner⟩, hrest⟩ := hwell
      obtain ⟨hfreeInner, hfreeRest⟩ := Bool.and_eq_true_iff.1 hfree
      have hplain {x : Char} (hx : x ∈ name) := plain_of_isElementName hname hx
      have hother : name ≠ "/comment".toList := by
        rintro rfl
        exact absurd rfl (hplain List.mem_cons_self).2
      have hnoComment : name ≠ "comment".toList := by
        rintro rfl
        exact absurd hname (by decide)
      simp only [render, List.append_assoc]
      rw [skipComment_startTag (Text.not_mem_escape text) (fun x hx => (hplain hx).1) hattributes]
      simp only
      rw [if_neg hother, ihInner hfreeInner hinner fun x hx => (hplain hx).1]
      simp only
      rw [if_neg hnoComment, ihRest hfreeRest hrest hclose]
      simp only [Nat.add_assoc, ← Text.lineBreaks_append, List.append_assoc]
  | empty text name attributes rest ih =>
      simp only [isWellFormed, Bool.and_eq_true] at hwell
      obtain ⟨⟨⟨⟨hname, -⟩, hattributes⟩, -⟩, hrest⟩ := hwell
      obtain ⟨name', attributes', htag, hname', hattributes', hother, -⟩ :=
        exists_emptyTag_eq hname hattributes
      simp only [render, List.append_assoc]
      rw [htag, skipComment_startTag (Text.not_mem_escape text) hname' hattributes', ← htag]
      simp only
      rw [if_neg hother, ih hfree hrest hclose]
      simp only [Nat.add_assoc, ← Text.lineBreaks_append, List.append_assoc]
  | comment => exact Bool.noConfusion hfree

/-- The tags are read as they were written. -/
theorem processed_render (hwell : c.isWellFormed isPlain = true)
    (hclose : isElementName close = true) (base : Nat) (front more : Text) :
    processed ⟨c.render ++ (endTag close ++ more), base + Text.lineBreaks front⟩ =
      c.tags close base front ++
        processed ⟨more, base + Text.lineBreaks (front ++ (c.render ++ endTag close))⟩ := by
  induction c generalizing close front more with
  | last text =>
      rw [render, endTag, processed_escape (fun x hx => endsName_closing hclose hx) rfl]
      simp only
      rw [beyond_of_isClosing rfl, tags, List.singleton_append, endTag, Nat.add_assoc,
        ← Text.lineBreaks_append]
      rfl
  | element text name attributes inner rest ihInner ihRest =>
      simp only [isWellFormed, Bool.and_eq_true] at hwell
      obtain ⟨⟨⟨⟨hname, hattributes⟩, -⟩, hinner⟩, hrest⟩ := hwell
      simp only [render, List.append_assoc]
      rw [processed_escape (fun x hx => (plain_of_isElementName hname hx).1) hattributes]
      simp only
      rw [beyond_of_not_opensComment (opensComment_of_isElementName hname _ _), Nat.add_assoc,
        ← Text.lineBreaks_append, ihInner hinner hname, ihRest hrest hclose, tags,
        List.cons_append, List.append_assoc]
      simp only [List.append_assoc]
  | empty text name attributes rest ih =>
      simp only [isWellFormed, Bool.and_eq_true] at hwell
      obtain ⟨⟨⟨⟨hname, -⟩, hattributes⟩, -⟩, hrest⟩ := hwell
      obtain ⟨name', attributes', htag, hname', hattributes', -, hread⟩ :=
        exists_emptyTag_eq hname hattributes
      simp only [render, List.append_assoc]
      rw [htag, processed_escape hname' hattributes', ← hread, ← htag]
      simp only
      rw [beyond_of_not_opensComment (opensComment_ofEmpty hname _ _), Nat.add_assoc,
        ← Text.lineBreaks_append, ih hrest hclose, tags, List.cons_append]
      simp only [List.append_assoc]
  | comment text attributes inner rest ihInner ihRest =>
      simp only [isWellFormed, Bool.and_eq_true] at hwell
      obtain ⟨⟨⟨⟨hattributes, hplain⟩, hfree⟩, hinner⟩, hrest⟩ := hwell
      simp only [render, List.append_assoc]
      rw [processed_escape endsName_comment hattributes]
      simp only
      rw [beyond_comment hplain, skipComment_render hfree hinner endsName_comment]
      simp only [↓reduceIte]
      rw [Nat.add_assoc, ← Text.lineBreaks_append, Nat.add_assoc, ← Text.lineBreaks_append,
        ihRest hrest hclose, tags, List.cons_append]
      simp only [List.append_assoc]

end Content

end ClonePrint
