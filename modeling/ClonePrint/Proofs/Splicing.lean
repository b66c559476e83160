import ClonePrint.Proofs.Rephrasing

/-!
# Functions spliced into an export

What is read of a tag depends on what stands in front of it in two ways only: by the line, and by
whether a comment is open there. So when a function is cut out of an export between two tags and
another one is put in its place, the same tags stand around both, and the two exports differ in
what is read of the function.
-/
namespace ClonePrint

namespace TagSpan

/-- The export goes on behind the span. -/
structure IsComplete (span : TagSpan) : Prop where
  proper : span.IsProper
  whole : span.isWhole = true

-- The search for an instance would check every character there is against the name.
instance (span : TagSpan) : Decidable span.IsProper :=
  match span with
  | untagged before => decidable_of_iff ((!before.contains '<') = true) (by simp [IsProper])
  | named before name _ =>
      decidable_of_iff ((!before.contains '<' && name.all fun c => !TagStream.endsName c) = true)
        (by simp [IsProper])
  | attributed before name delimiter attributes _ =>
      decidable_of_iff ((!before.contains '<' && name.all (fun c => !TagStream.endsName c) &&
          TagStream.endsName delimiter && delimiter != '>' && !attributes.contains '>') = true)
        (by simp [IsProper, and_assoc])

instance (span : TagSpan) : Decidable span.IsComplete :=
  decidable_of_iff (span.IsProper ∧ span.isWhole = true) ⟨fun h => ⟨h.1, h.2⟩, fun h => ⟨h.1, h.2⟩⟩

def before : TagSpan → Text
  | untagged before | named before _ _ | attributed before _ _ _ _ => before

/-- The span with more text in front of the tag. -/
def following (front : Text) : TagSpan → TagSpan
  | untagged before => untagged (front ++ before)
  | named before name closed => named (front ++ before) name closed
  | attributed before name delimiter attributes closed =>
      attributed (front ++ before) name delimiter attributes closed

/-- The tags that are processed, given the line breaks in front of the first span and whether a
comment is open there. -/
def placed : Bool → Nat → List TagSpan → List PlacedTag
  | _, _, [] => []
  | true, breaks, span :: spans =>
      placed (span.tag.name ≠ "/comment".toList) (breaks + Text.lineBreaks span.written) spans
  | false, breaks, span :: spans =>
      ⟨span.tag, breaks + Text.lineBreaks span.written⟩ ::
        placed span.tag.beginsComment (breaks + Text.lineBreaks span.written) spans

/-- A comment is open behind the spans. -/
def endsInComment : Bool → List TagSpan → Bool
  | inComment, [] => inComment
  | true, span :: spans => endsInComment (span.tag.name ≠ "/comment".toList) spans
  | false, span :: spans => endsInComment span.tag.beginsComment spans

section
variable {span : TagSpan} {spans : List TagSpan}

theorem written_following (front : Text) (span : TagSpan) :
    (span.following front).written = front ++ span.written := by
  cases span <;> simp [following, written]

theorem name_following (front : Text) (span : TagSpan) :
    (span.following front).tag.name = span.tag.name := by
  cases span <;> rfl

theorem attributes_following (front : Text) (span : TagSpan) :
    (span.following front).tag.attributes = span.tag.attributes := by
  cases span <;> rfl

/-- Of the text in front of a tag nothing but the text is read. -/
theorem textBefore_following (front : Text) (h : span.before = []) :
    (span.following front).tag.textBefore = Text.decodeEntities (Text.stripBlanks front) := by
  cases span <;> simp_all [following, before, tag]

theorem IsComplete.following {front : Text} (h : span.IsComplete) (hfront : '<' ∉ front) :
    (span.following front).IsComplete := by
  obtain ⟨hproper, hwhole⟩ := h
  cases span with
  | untagged before => cases hwhole
  | named before name closed =>
      obtain ⟨hopen, hname⟩ := hproper
      exact ⟨⟨by simp [hfront, hopen], hname⟩, hwhole⟩
  | attributed before name delimiter attributes closed =>
      obtain ⟨hopen, hrest⟩ := hproper
      exact ⟨⟨by simp [hfront, hopen], hrest⟩, hwhole⟩

theorem IsComplete.begins (h : span.IsComplete) (rest : Text) :
    span.Begins (span.written ++ rest) rest :=
  ⟨rfl, h.proper, fun hcut => Bool.noConfusion (hcut.symm.trans h.whole)⟩

theorem IsComplete.mem_written (h : span.IsComplete) : '<' ∈ span.written := by
  cases span with
  | untagged before => cases h.whole
  | named before name closed => simp [written]
  | attributed before name delimiter attributes closed => simp [written]

theorem endsInComment_append (inComment : Bool) (front back : List TagSpan) :
    endsInComment inComment (front ++ back) =
      endsInComment (endsInComment inComment front) back := by
  induction front generalizing inComment with
  | nil => cases inComment <;> rfl
  | cons span front ih => cases inComment <;> exact ih _

theorem lineBreaks_join_cons (breaks : Nat) (span : TagSpan) (spans : List TagSpan) :
    breaks + Text.lineBreaks (join (span :: spans)) =
      breaks + Text.lineBreaks span.written + Text.lineBreaks (join spans) := by
  rw [join_cons, Text.lineBreaks_append, Nat.add_assoc]

theorem placed_append (inComment : Bool) (breaks : Nat) (front back : List TagSpan) :
    placed inComment breaks (front ++ back) = placed inComment breaks front ++
      placed (endsInComment inComment front) (breaks + Text.lineBreaks (join front)) back := by
  induction front generalizing inComment breaks with
  | nil => cases inComment <;> rfl
  | cons span front ih =>
      rw [lineBreaks_join_cons]
      cases inComment with
      | true => exact ih _ _
      | false => exact congrArg (_ :: ·) (ih _ _)

/-- Which tags are processed does not depend on the line. -/
theorem map_tag_placed (inComment : Bool) (breaks : Nat) (spans : List TagSpan) :
    (placed inComment breaks spans).map PlacedTag.tag =
      Tag.outsideComments inComment (spans.map tag) := by
  induction spans generalizing inComment breaks with
  | nil => cases inComment <;> rfl
  | cons span spans ih =>
      cases inComment with
      | true => exact ih _ _
      | false => exact congrArg (_ :: ·) (ih _ _)

end

end TagSpan

namespace TagStream

open TagSpan

variable {s s' : TagStream} {span : TagSpan}

/-- What is unread once a comment, if one is open, has been passed over. -/
def outside (inComment : Bool) (s : TagStream) : TagStream := if inComment then s.skipComment else s

theorem isEmpty_written (h : span.IsComplete) (rest : Text) (breaks : Nat) :
    (⟨span.written ++ rest, breaks⟩ : TagStream).isEmpty = false :=
  isEmpty_of_mem (List.mem_append_left _ h.mem_written)

theorem processed_written (h : span.IsComplete) (rest : Text) (breaks : Nat) :
    processed ⟨span.written ++ rest, breaks⟩ =
      ⟨span.tag, breaks + Text.lineBreaks span.written⟩ ::
        ((⟨rest, breaks + Text.lineBreaks span.written⟩ : TagStream).outside
          span.tag.beginsComment).processed := by
  rw [processed, dif_neg (Bool.eq_false_iff.1 (isEmpty_written h rest breaks)),
    next_of_begins (h.begins rest)]
  rfl

theorem skipComment_written (h : span.IsComplete) (rest : Text) (breaks : Nat) :
    skipComment ⟨span.written ++ rest, breaks⟩ =
      (⟨rest, breaks + Text.lineBreaks span.written⟩ : TagStream).outside
        (span.tag.name ≠ "/comment".toList) := by
  rw [skipComment, dif_neg (Bool.eq_false_iff.1 (isEmpty_written h rest breaks)),
    next_of_begins (h.begins rest)]
  dsimp only
  by_cases hname : span.tag.name = "/comment".toList
  · rw [if_pos hname, decide_eq_false (not_not.2 hname), outside, if_neg Bool.false_ne_true]
  · rw [if_neg hname, decide_eq_true hname, outside, if_pos rfl]

/-- The spans are read one by one, and then what stands behind them. -/
theorem processed_join {spans : List TagSpan} (h : ∀ span ∈ spans, span.IsComplete) (rest : Text)
    (inComment : Bool) (breaks : Nat) :
    ((⟨join spans ++ rest, breaks⟩ : TagStream).outside inComment).processed =
      placed inComment breaks spans ++
        ((⟨rest, breaks + Text.lineBreaks (join spans)⟩ : TagStream).outside
          (endsInComment inComment spans)).processed := by
  induction spans generalizing inComment breaks with
  | nil => cases inComment <;> rfl
  | cons span spans ih =>
      obtain ⟨hspan, hspans⟩ := List.forall_mem_cons.1 h
      rw [lineBreaks_join_cons, join_cons, List.append_assoc]
      cases inComment with
      | true =>
          have hskip := skipComment_written hspan (join spans ++ rest) breaks
          rw [outside, if_pos rfl, hskip]
          exact ih hspans _ _
      | false =>
          rw [outside, if_neg Bool.false_ne_true, processed_written hspan]
          exact congrArg (_ :: ·) (ih hspans _ _)

/-! ### The line of a stream -/

theorem next_congr (h : s.rest = s'.rest) :
    s.next.1 = s'.next.1 ∧ s.next.2.rest = s'.next.2.rest := by
  obtain ⟨span, rest, hbegins⟩ := exists_begins s.rest
  have hnext := next_of_begins hbegins s.line
  have hnext' := next_of_begins (h ▸ hbegins) s'.line
  exact ⟨(congrArg (·.1) hnext).trans (congrArg (·.1) hnext').symm,
    (congrArg (·.2.rest) hnext).trans (congrArg (·.2.rest) hnext').symm⟩

theorem isEmpty_congr (h : s.rest = s'.rest) : s.isEmpty = s'.isEmpty := congrArg Text.isAllBlank h

theorem rest_skipComment_congr (h : s.rest = s'.rest) :
    s.skipComment.rest = s'.skipComment.rest := by
  fun_induction skipComment s generalizing s' with
  | case1 s hempty =>
      rw [isEmpty_congr h] at hempty
      rw [skipComment.eq_def s', dif_pos hempty]
      exact h
  | case2 s hempty read =>
      rename_i hname
      obtain ⟨htag, hrest⟩ := next_congr h
      rw [isEmpty_congr h] at hempty
      rw [htag] at hname
      rw [skipComment.eq_def s', dif_neg hempty, if_pos hname]
      exact hrest
  | case3 s hempty read hname =>
      rename_i ih
      obtain ⟨htag, hrest⟩ := next_congr h
      rw [isEmpty_congr h] at hempty
      rw [htag] at hname
      rw [skipComment.eq_def s', dif_neg hempty, if_neg hname]
      exact ih hrest

/-- On whatever line a text begins, the same tags are processed. -/
theorem map_tag_processed_congr (h : s.rest = s'.rest) :
    s.processed.map PlacedTag.tag = s'.processed.map PlacedTag.tag := by
  fun_induction processed s generalizing s' with
  | case1 s hempty =>
      rw [isEmpty_congr h] at hempty
      rw [processed_of_isEmpty hempty]
  | case2 s hempty ih =>
      obtain ⟨htag, hrest⟩ := next_congr h
      rw [isEmpty_congr h] at hempty
      have hbeyond : (s.next.2.beyond s.next.1).rest = (s'.next.2.beyond s'.next.1).rest := by
        rw [beyond, beyond, ← htag]
        split
        · exact rest_skipComment_congr hrest
        · exact hrest
      rw [processed.eq_def s', dif_neg hempty, List.map_cons, List.map_cons, ih hbeyond, htag]

end TagStream

theorem unwinds_map_unplaced (names : List Text) (tags : List PlacedTag) :
    unwinds names (tags.map PlacedTag.unplaced) = unwinds names tags := by
  induction tags generalizing names with
  | nil => rfl
  | cons p tags ih =>
      have hnesting : p.unplaced.nesting? names = p.nesting? names := rfl
      rw [List.map_cons, unwinds, unwinds, hnesting]
      exact congrArg (Option.any · (p.nesting? names)) (funext ih)

theorem beginsComment_of_isClosing {tag : Tag} (h : tag.isClosing = true) :
    tag.beginsComment = false := by
  rw [Tag.beginsComment, h]
  rfl

theorem beginsComment_of_not {tag : Tag} (h : Reader.opensComment tag = false) :
    tag.beginsComment = false := by
  rw [Tag.beginsComment, h, Bool.and_false, Bool.false_and]

theorem PlacedTag.opensComment_of_opensFunction {p : PlacedTag} (h : p.opensFunction = true) :
    Reader.opensComment p.tag = false := by
  rw [opensFunction, passes, Bool.and_eq_true, Bool.and_eq_true, Bool.not_eq_true',
    Bool.not_eq_true', Bool.or_eq_false_iff] at h
  exact h.1.2.1

theorem PlacedTag.opensComment_of_isUnit {p : PlacedTag} (h : p.isUnit = true) :
    Reader.opensComment p.tag = false := by
  rw [isUnit, Bool.and_eq_true, Bool.and_eq_true, Bool.not_eq_true', Bool.not_eq_true'] at h
  exact h.1.2

/-- A function as it is written in an export. -/
structure WrittenFunction where
  opener : TagSpan
  inner : List TagSpan
  closer : TagSpan

namespace WrittenFunction

open TagSpan

def spans (f : WrittenFunction) : List TagSpan := f.opener :: (f.inner ++ [f.closer])

def text (f : WrittenFunction) : Text := join f.spans

/-- The function as it is read behind some text, given the line breaks in front of this text. -/
def read (before : Text) (breaks : Nat) (f : WrittenFunction) : FunctionSpan :=
  let opened := breaks + Text.lineBreaks (f.opener.following before).written
  { opener := ⟨(f.opener.following before).tag, opened⟩
    inner := placed false opened f.inner
    closer := ⟨f.closer.tag,
      opened + Text.lineBreaks (join f.inner) + Text.lineBreaks f.closer.written⟩ }

/-- The function begins with its opening tag, ends with its closing tag and is balanced between
them. -/
structure IsBalanced (f : WrittenFunction) : Prop where
  complete : ∀ span ∈ f.spans, span.IsComplete
  begins : f.opener.before = []
  uncommented : endsInComment false f.inner = false
  balanced : (f.read [] 0).IsBalanced

variable {f : WrittenFunction} (h : f.IsBalanced) (before : Text) (breaks : Nat)
include h

/-- A balanced function is balanced wherever it stands. -/
theorem IsBalanced.isBalanced_read : (f.read before breaks).IsBalanced := by
  obtain ⟨hopens, hunwinds, hcloses⟩ := h.balanced
  refine ⟨?_, ?_, hcloses⟩
  · rw [← hopens]
    simp only [read, PlacedTag.opensFunction, PlacedTag.passes, Reader.opensComment,
      Tag.isClosing, Tag.isSelfClosing, Tag.bareName, name_following, attributes_following]
  · have htags : (f.read before breaks).inner.map PlacedTag.tag =
        (f.read [] 0).inner.map PlacedTag.tag := by
      simp only [read, map_tag_placed]
    rw [← unwinds_map_unplaced, PlacedTag.map_unplaced_eq htags, unwinds_map_unplaced]
    exact hunwinds

theorem IsBalanced.complete_following (hbefore : '<' ∉ before) :
    ∀ span ∈ f.opener.following before :: (f.inner ++ [f.closer]), span.IsComplete := by
  obtain ⟨hopener, hrest⟩ := List.forall_mem_cons.1 h.complete
  exact List.forall_mem_cons.2 ⟨hopener.following hbefore, hrest⟩

/-- What is processed of a function is the function as it is read, and no comment is open behind
it. -/
theorem IsBalanced.placed_eq :
    placed false breaks (f.opener.following before :: (f.inner ++ [f.closer])) =
        (f.read before breaks).tags ∧
      endsInComment false (f.opener.following before :: (f.inner ++ [f.closer])) = false := by
  obtain ⟨hopens, -, hcloses⟩ := h.isBalanced_read before breaks
  have hopener : (f.opener.following before).tag.beginsComment = false :=
    beginsComment_of_not (PlacedTag.opensComment_of_opensFunction hopens)
  have hcloser : f.closer.tag.beginsComment = false :=
    beginsComment_of_isClosing (Bool.and_eq_true_iff.1 hcloses).1
  constructor
  · rw [placed, hopener, placed_append, h.uncommented]
    rfl
  · rw [endsInComment, hopener, endsInComment_append, h.uncommented, endsInComment, hcloser]
    rfl

end WrittenFunction

/-- What stands around a function in an export. -/
structure Surroundings where
  declaration : TagSpan
  unit : TagSpan
  front : List TagSpan
  before : Text
  back : Text

namespace Surroundings

open TagSpan

def spans (s : Surroundings) : List TagSpan := s.declaration :: s.unit :: s.front

/-- The export with a text in the place of the function. -/
def around (segment : Text) (s : Surroundings) : Text :=
  join s.spans ++ (s.before ++ (segment ++ s.back))

/-- The place is behind a tag, inside the unit and not in a comment. -/
structure IsOpen (s : Surroundings) : Prop where
  complete : ∀ span ∈ s.spans, span.IsComplete
  declared : s.declaration.tag.name = "?xml".toList
  isUnit : (⟨s.unit.tag, 0⟩ : PlacedTag).isUnit = true
  uncommented : endsInComment false s.front = false
  before : '<' ∉ s.before

variable {s : Surroundings} {f f' : WrittenFunction}

theorem around_text (s : Surroundings) (f : WrittenFunction) : s.around f.text =
    s.declaration.written ++ (join (s.unit :: (s.front ++
      f.opener.following s.before :: (f.inner ++ [f.closer]))) ++ s.back) := by
  simp only [around, spans, WrittenFunction.text, WrittenFunction.spans, join_cons, join_append,
    written_following, List.append_assoc]

/-- Around the function stand the same tags, whatever it is. -/
theorem tags_around (hs : s.IsOpen) (hf : f.IsBalanced) :
    Reading.tags (s.around f.text) =
      ⟨s.unit.tag, Text.lineBreaks (join [s.declaration, s.unit])⟩ ::
        (placed false (Text.lineBreaks (join [s.declaration, s.unit])) s.front ++
          ((f.read s.before (Text.lineBreaks (join s.spans))).tags ++
            TagStream.processed ⟨s.back,
              Text.lineBreaks (join s.spans ++ (s.before ++ f.text))⟩)) := by
  obtain ⟨hdeclaration, hrest⟩ := List.forall_mem_cons.1 hs.complete
  obtain ⟨hunit, hfront⟩ := List.forall_mem_cons.1 hrest
  have hwritten := hf.complete_following s.before hs.before
  have hcomplete : ∀ span ∈ s.unit :: (s.front ++
      f.opener.following s.before :: (f.inner ++ [f.closer])), span.IsComplete :=
    List.forall_mem_cons.2 ⟨hunit, List.forall_mem_append.2 ⟨hfront, hwritten⟩⟩
  have hplain : s.unit.tag.beginsComment = false :=
    beginsComment_of_not (PlacedTag.opensComment_of_isUnit hs.isUnit)
  have hunitBreaks : 0 + Text.lineBreaks s.declaration.written + Text.lineBreaks s.unit.written =
      Text.lineBreaks (join [s.declaration, s.unit]) := by
    simp [join, Text.lineBreaks_append]
  have hfrontBreaks : Text.lineBreaks (join [s.declaration, s.unit]) +
      Text.lineBreaks (join s.front) = Text.lineBreaks (join s.spans) := by
    rw [← Text.lineBreaks_append, ← join_append]
    rfl
  have hread := TagStream.processed_join hcomplete s.back false
    (0 + Text.lineBreaks s.declaration.written)
  obtain ⟨hfunction, hclosed⟩ := hf.placed_eq s.before (Text.lineBreaks (join s.spans))
  rw [placed, hplain, placed_append, hs.uncommented, hunitBreaks, hfrontBreaks, hfunction,
    endsInComment, hplain, endsInComment_append, hs.uncommented, hclosed] at hread
  have hbackBreaks : 0 + Text.lineBreaks s.declaration.written + Text.lineBreaks (join (s.unit ::
      (s.front ++ f.opener.following s.before :: (f.inner ++ [f.closer])))) =
        Text.lineBreaks (join s.spans ++ (s.before ++ f.text)) := by
    simp only [spans, WrittenFunction.text, WrittenFunction.spans, join_cons, join_append,
      written_following, Text.lineBreaks_append, Nat.zero_add, Nat.add_assoc]
  rw [hbackBreaks, List.cons_append, List.append_assoc] at hread
  rw [Reading.tags, around_text, TagStream.next_of_begins (hdeclaration.begins _)]
  exact hread

/-- The export with a function in its place. -/
def toExport (s : Surroundings) (f : WrittenFunction) (hs : s.IsOpen) (hf : f.IsBalanced) :
    FunctionExport where
  text := s.around f.text
  unit := ⟨s.unit.tag, Text.lineBreaks (join [s.declaration, s.unit])⟩
  front := placed false (Text.lineBreaks (join [s.declaration, s.unit])) s.front
  span := f.read s.before (Text.lineBreaks (join s.spans))
  back := TagStream.processed ⟨s.back, Text.lineBreaks (join s.spans ++ (s.before ++ f.text))⟩
  declared := by
    have hbegins := (hs.complete s.declaration List.mem_cons_self).begins
    rw [around_text, TagStream.next_of_begins (hbegins _)]
    exact hs.declared
  tags_eq := tags_around hs hf
  isUnit := hs.isUnit
  isBalanced := hf.isBalanced_read s.before _

/-- When one balanced function is put in the place of another, the tags around them agree. -/
theorem sameAround_toExport (hs : s.IsOpen) (hf : f.IsBalanced) (hf' : f'.IsBalanced) :
    (s.toExport f hs hf).SameAround (s.toExport f' hs hf') := by
  constructor
  · rfl
  · exact TagStream.map_tag_processed_congr rfl
  · exact (textBefore_following s.before hf.begins).trans
      (textBefore_following s.before hf'.begins).symm

/-- So what is found outside of them agrees as well. -/
theorem agreeAround (hs : s.IsOpen) (hf : f.IsBalanced) (hf' : f'.IsBalanced)
    (file file' : String) :
    ∃ reading reading', Reading.ofExport? file {} (s.around f.text) = some (.ok reading) ∧
      Reading.ofExport? file' {} (s.around f'.text) = some (.ok reading') ∧
        reading.corruptions = reading'.corruptions ∧
          AgreeAround Fingerprint.SameBody (· = (s.toExport f hs hf).found file)
            (· = (s.toExport f' hs hf').found file') reading.found reading'.found :=
  (sameAround_toExport hs hf hf').agreeAround file file'

end Surroundings

end ClonePrint
