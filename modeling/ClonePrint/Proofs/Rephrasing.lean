import ClonePrint.Proofs.Segments
import ClonePrint.Proofs.Spans

/-!
# Exports in other words

Names, blanks and comments do not show in a digest. Two exports whose tags agree one by one are
read in step: the same elements are open, the same bodies have been read, and the same closing
tags do not fit. Which texts may differ depends on the place where they stand, and the place
depends on the tags in front of it only.
-/
namespace ClonePrint

/-- The tags of an export. Text behind the last one belongs to none. -/
def TagStream.tags (s : TagStream) : List Tag :=
  if _h : '<' ∈ s.rest then s.next.1 :: tags s.next.2 else []
termination_by s.rest.length
decreasing_by exact next_rest_length_lt (List.ne_nil_of_mem _h)

namespace Tag

/-- Everything up to the end of a comment is passed over behind the tag. -/
def beginsComment (tag : Tag) : Bool :=
  !tag.isClosing && Reader.opensComment tag && !tag.isSelfClosing

/-- The tags that do not stand in a comment, given whether the first one does. -/
def outsideComments : Bool → List Tag → List Tag
  | _, [] => []
  | true, tag :: tags => outsideComments (tag.name ≠ "/comment".toList) tags
  | false, tag :: tags => tag :: outsideComments tag.beginsComment tags

/-- An XML declaration comes first, and a unit tag behind it. -/
def areHeaded : List Tag → Bool
  | declaration :: unit :: _ =>
      declaration.name = "?xml".toList && (⟨unit, 0⟩ : PlacedTag).isUnit
  | _ => false

theorem exists_of_areHeaded {tags : List Tag} (h : areHeaded tags = true) :
    ∃ declaration unit more, tags = declaration :: unit :: more := by
  match tags, h with
  | declaration :: unit :: more, _ => exact ⟨declaration, unit, more, rfl⟩

end Tag

/-- Where a text stands, with the names of the open elements, innermost first. Outside functions
none counts. -/
structure TagPlace where
  names : List Text := []
  inComment : Bool := false
deriving Repr, DecidableEq

namespace TagPlace

/-- The place behind a tag. A closing tag that does not fit ends everything that is open. -/
def behind (p : TagPlace) (tag : Tag) : TagPlace :=
  if p.inComment then { p with inComment := tag.name ≠ "/comment".toList }
  else if tag.isClosing then
    { names := if p.names.head? = some tag.bareName then p.names.tail else [] }
  else if Reader.opensComment tag then { p with inComment := !tag.isSelfClosing }
  else if tag.isSelfClosing ∨ tag.bareName ≠ "function".toList ∧ p.names = [] then p
  else { names := tag.bareName :: p.names }

/-- Text directly inside a name is replaced, unless the name belongs to a type. -/
def isReplaced (p : TagPlace) : Bool :=
  p.names.head? = some "name".toList &&
    p.names.find? (fun name => name ≠ "name".toList) ≠ some "type".toList

/-- The two texts may stand at this place in two exports. They are compared as they are read,
without blanks. In a comment and outside functions they may differ, and in a name that is replaced
if neither is blank. -/
def agree (p : TagPlace) (a b : Text) : Bool :=
  a = b || p.inComment || p.names.isEmpty || (p.isReplaced && !a.isEmpty && !b.isEmpty)

/-- Tag by tag the names agree, which tags are self-closing, and the texts in front. Attributes
may differ otherwise. -/
def agreeAll : TagPlace → List Tag → List Tag → Bool
  | _, [], [] => true
  | p, a :: as, b :: bs =>
      a.name = b.name && a.isSelfClosing = b.isSelfClosing && p.agree a.textBefore b.textBefore &&
        agreeAll (p.behind a) as bs
  | _, _, _ => false

/-- Outside functions nothing but a function counts. -/
theorem behind_start {tag : Tag} (hcomment : Reader.opensComment tag = false)
    (hname : tag.bareName ≠ "function".toList) : ({} : TagPlace).behind tag = {} := by
  rw [behind, hcomment]
  split
  · rename_i hcommented
    cases hcommented
  · split
    · rfl
    · exact if_pos (.inr ⟨hname, rfl⟩)

/-- Both exports have a header if one has. -/
theorem exists_of_agreeAll {declaration unit : Tag} {tags tags' : List Tag}
    (hheaded : Tag.areHeaded (declaration :: unit :: tags) = true)
    (h : agreeAll {} (declaration :: unit :: tags) tags' = true) : ∃ declaration' unit' more,
      tags' = declaration' :: unit' :: more ∧
        Tag.areHeaded (declaration' :: unit' :: more) = true ∧ agreeAll {} tags more = true := by
  match tags', h with
  | [_], h => simp [agreeAll] at h
  | declaration' :: unit' :: more, h =>
      simp only [agreeAll, Bool.and_eq_true, decide_eq_true_eq] at h
      obtain ⟨⟨⟨hdeclaration, -⟩, -⟩, ⟨⟨hunit, -⟩, -⟩, hmore⟩ := h
      simp only [Tag.areHeaded, PlacedTag.isUnit, Bool.and_eq_true, Bool.not_eq_true',
        decide_eq_true_eq] at hheaded
      obtain ⟨hxml, ⟨hclosing, hcomment⟩, hname⟩ := hheaded
      have hfirst : Reader.opensComment declaration = false := by
        rw [Reader.opensComment, hxml]
        rfl
      have hother : declaration.bareName ≠ "function".toList := by
        rw [Tag.bareName, hxml]
        decide
      have hother' : unit.bareName ≠ "function".toList := by
        rw [hname]
        decide
      rw [behind_start hfirst hother, behind_start hcomment hother'] at hmore
      refine ⟨declaration', unit', more, rfl, ?_, hmore⟩
      simp only [Tag.areHeaded, PlacedTag.isUnit, Bool.and_eq_true, Bool.not_eq_true',
        decide_eq_true_eq]
      rw [Reader.opensComment, Tag.isClosing, Tag.bareName, ← hunit, ← hdeclaration]
      exact ⟨hxml, ⟨hclosing, hcomment⟩, hname⟩

theorem inComment_behind {p : TagPlace} (h : p.inComment = false) (tag : Tag) :
    (p.behind tag).inComment = tag.beginsComment := by
  rw [behind, h, if_neg Bool.false_ne_true, Tag.beginsComment]
  split
  · rename_i hclosing
    rw [hclosing]
    rfl
  · rename_i hclosing
    rw [Bool.eq_false_iff.2 hclosing]
    split
    · rename_i hcomment
      rw [hcomment]
      rfl
    · rename_i hcomment
      rw [Bool.eq_false_iff.2 hcomment]
      split
      · exact h
      · rfl

end TagPlace

/-- Two exports with a header say the same in other words. -/
structure Rephrased (text text' : Text) : Prop where
  headed : Tag.areHeaded (TagStream.tags ⟨text, 0⟩) = true
  agree : TagPlace.agreeAll {} (TagStream.tags ⟨text, 0⟩) (TagStream.tags ⟨text', 0⟩) = true

/-! ### The tags that are processed -/

namespace TagStream

variable {s : TagStream}

theorem tags_of_mem (h : '<' ∈ s.rest) : s.tags = s.next.1 :: s.next.2.tags := by
  rw [tags, dif_pos h]

theorem tags_of_notMem (h : '<' ∉ s.rest) : s.tags = [] := by
  rw [tags, dif_neg h]

theorem of_tags_eq_cons {tag : Tag} {more : List Tag} (h : s.tags = tag :: more) :
    '<' ∈ s.rest ∧ s.next.1 = tag ∧ s.next.2.tags = more := by
  by_cases hmem : '<' ∈ s.rest
  · rw [tags_of_mem hmem, List.cons.injEq] at h
    exact ⟨hmem, h⟩
  · rw [tags_of_notMem hmem] at h
    cases h

theorem tags_of_isEmpty (h : s.isEmpty = true) : s.tags = [] :=
  tags_of_notMem fun hmem => Bool.false_ne_true ((isEmpty_of_mem hmem).symm.trans h)

/-- What is read behind the last tag has no name, and nothing is left then. -/
theorem next_of_notMem (h : '<' ∉ s.rest) : s.next.1.name = [] ∧ s.next.2.rest = [] := by
  have hbegins : (TagSpan.untagged s.rest).Begins s.rest [] :=
    ⟨(List.append_nil _).symm, h, fun _ => rfl⟩
  have hnext := next_of_begins hbegins s.line
  exact ⟨congrArg (·.1.name) hnext, congrArg (·.2.rest) hnext⟩

theorem tags_next_of_notMem (h : '<' ∉ s.rest) : s.next.2.tags = [] := by
  refine tags_of_notMem ?_
  rw [(next_of_notMem h).2]
  exact List.not_mem_nil

theorem outsideComments_skipComment (s : TagStream) :
    Tag.outsideComments false s.skipComment.tags = Tag.outsideComments true s.tags := by
  fun_induction skipComment s with
  | case1 s hempty =>
      rw [tags_of_isEmpty hempty]
      rfl
  | case2 s hempty read hname =>
      by_cases hmem : '<' ∈ s.rest
      · rw [tags_of_mem hmem, Tag.outsideComments, decide_eq_false (not_not.2 hname)]
      · have hnone : read.1.name = [] := (next_of_notMem hmem).1
        rw [hnone] at hname
        cases hname
  | case3 s hempty read hname ih =>
      rw [ih]
      by_cases hmem : '<' ∈ s.rest
      · rw [tags_of_mem hmem, Tag.outsideComments, decide_eq_true hname]
      · rw [tags_of_notMem hmem, tags_next_of_notMem hmem]

theorem outsideComments_beyond (tag : Tag) (s : TagStream) :
    Tag.outsideComments false (s.beyond tag).tags =
      Tag.outsideComments tag.beginsComment s.tags := by
  rw [beyond, Tag.beginsComment]
  split
  · rename_i hbegins
    rw [outsideComments_skipComment, hbegins]
  · rename_i hnot
    rw [Bool.eq_false_iff.2 hnot]

/-- The tags outside comments are processed, and perhaps what stands behind the last tag. -/
theorem map_tag_processed (s : TagStream) : ∃ rest, (∀ tag ∈ rest, tag.name = []) ∧
    s.processed.map PlacedTag.tag = Tag.outsideComments false s.tags ++ rest := by
  fun_induction processed s with
  | case1 s hempty =>
      refine ⟨[], by simp, ?_⟩
      rw [tags_of_isEmpty hempty]
      rfl
  | case2 s hempty ih =>
      obtain ⟨rest, hrest, htags⟩ := ih
      rw [outsideComments_beyond] at htags
      by_cases hmem : '<' ∈ s.rest
      · refine ⟨rest, hrest, ?_⟩
        rw [tags_of_mem hmem, List.map_cons, htags, Tag.outsideComments, List.cons_append]
      · refine ⟨s.next.1 :: rest, List.forall_mem_cons.2 ⟨(next_of_notMem hmem).1, hrest⟩, ?_⟩
        rw [tags_next_of_notMem hmem] at htags
        rw [tags_of_notMem hmem, List.map_cons, htags]
        cases s.next.1.beginsComment <;> rfl

end TagStream

/-! ### Two readings in step -/

/-- Two open elements with the same name and, so far, the same body. -/
structure Opening.Echoes (o o' : Opening) : Prop where
  name : o.name = o'.name
  body : o.sketch.body = o'.sketch.body

/-- Two outlines at the same place with the same bodies in them. -/
structure Outline.Echoes (p : TagPlace) (o o' : Outline) : Prop where
  names : o.openings.map Opening.name = p.names
  openings : List.Forall₂ Opening.Echoes o.openings o'.openings
  hashes : o.reading.found.map Fingerprint.hash = o'.reading.found.map Fingerprint.hash
  corruptions : o.reading.corruptions = o'.reading.corruptions

namespace Opening

theorem Echoes.isFunction_eq {o o' : Opening} (h : o.Echoes o') : o.isFunction = o'.isFunction := by
  rw [isFunction, isFunction, h.name]

theorem map_name_of_echoes {os os' : List Opening} (h : List.Forall₂ Echoes os os') :
    os.map name = os'.map name := by
  induction h with
  | nil => rfl
  | cons top more ih => rw [List.map_cons, List.map_cons, top.name, ih]

theorem echoes_sketching {f g : Sketch → Sketch}
    (hfg : ∀ s s', s.body = s'.body → (f s).body = (g s').body) {os os' : List Opening}
    (h : List.Forall₂ Echoes os os') : List.Forall₂ Echoes (sketching f os) (sketching g os') := by
  induction h with
  | nil => exact .nil
  | @cons o o' outer outer' top more ih =>
      rw [sketching, sketching, ← top.isFunction_eq]
      split
      · exact .cons ⟨top.name, hfg _ _ top.body⟩ more
      · exact .cons top ih

theorem body_sketchLeaf (text tag : Text) (above : Option Text) {s s' : Sketch}
    (h : s.body = s'.body) :
    (TagTree.sketchLeaf text tag above s).body = (TagTree.sketchLeaf text tag above s').body := by
  unfold TagTree.sketchLeaf Sketch.mark Sketch.setName Sketch.push
  split_ifs <;> simp only [h]

/-- A name that is replaced leaves the same placeholder as any other. -/
theorem body_sketchLeaf_name (a b : Text) {above : Option Text}
    (habove : above ≠ some "type".toList) {s s' : Sketch} (h : s.body = s'.body) :
    (TagTree.sketchLeaf a "name".toList above s).body =
      (TagTree.sketchLeaf b "name".toList above s').body := by
  unfold TagTree.sketchLeaf Sketch.mark Sketch.setName Sketch.push
  rw [if_neg (not_not.2 rfl), if_neg (not_not.2 rfl), if_neg habove, if_neg habove]
  split_ifs <;> simp only [h]

theorem echoes_hear {os os' : List Opening} {p : TagPlace} {a b : Text}
    (h : List.Forall₂ Echoes os os') (hnames : os.map name = p.names) (hopen : p.inComment = false)
    (hagree : p.agree a b = true) : List.Forall₂ Echoes (hear a os) (hear b os') := by
  have habove : above os = above os' := by rw [above, above, map_name_of_echoes h]
  cases h with
  | nil => exact .nil
  | @cons top top' outer outer' htop houter =>
      have hboth := List.Forall₂.cons htop houter
      have hinside : p.names.isEmpty = false := by rw [← hnames]; rfl
      rw [TagPlace.agree, hopen, hinside, Bool.or_false, Bool.or_false, Bool.or_eq_true,
        decide_eq_true_eq, Bool.and_eq_true, Bool.and_eq_true, Bool.not_eq_true',
        Bool.not_eq_true'] at hagree
      rw [hear, hear, ← habove, ← htop.name]
      obtain rfl | ⟨⟨hreplaced, ha⟩, hb⟩ := hagree
      · split
        · exact hboth
        · exact echoes_sketching (fun s s' => body_sketchLeaf a _ _) hboth
      · rw [TagPlace.isReplaced, Bool.and_eq_true, decide_eq_true_eq, decide_eq_true_eq,
          ← hnames] at hreplaced
        obtain ⟨hname, hkind⟩ := hreplaced
        have hname : top.name = "name".toList := Option.some.inj hname
        rw [ha, hb, if_neg Bool.false_ne_true, if_neg Bool.false_ne_true, hname]
        exact echoes_sketching (fun s s' => body_sketchLeaf_name a b hkind) hboth

end Opening

namespace Sketch

/-- A report tells nothing about a body but its digest. -/
theorem map_hash_finish (file : String) {s s' : Sketch} (h : s.body = s'.body)
    {first first' last : Nat} (hle : first ≤ last) (hle' : first' ≤ last) :
    (s.finish file first last {}).toList.map Fingerprint.hash =
      (s'.finish file first' last {}).toList.map Fingerprint.hash := by
  rw [finish_of_le file s hle, finish_of_le file s' hle', canonicalBody, h, ← canonicalBody]
  rfl

end Sketch

namespace Outline

open Opening

variable {p : TagPlace} {o o' : Outline} {a b : Tag}

theorem Echoes.hear (h : Echoes p o o') {a b : Text} (hopen : p.inComment = false)
    (hagree : p.agree a b = true) : Echoes p (o.hear a) (o'.hear b) :=
  ⟨(map_name_hear a o.openings).trans h.names, echoes_hear h.openings h.names hopen hagree,
    h.hashes, h.corruptions⟩

theorem Echoes.close (h : Echoes p o o') (hlined : o.Lined 0 0) (hlined' : o'.Lined 0 0)
    (hname : a.bareName = b.bareName) :
    Echoes { names := if p.names.head? = some a.bareName then p.names.tail else [] }
      (o.close "" {} ⟨a, 0⟩) (o'.close "" {} ⟨b, 0⟩) := by
  obtain ⟨openings, unitLine, reading⟩ := o
  obtain ⟨openings', unitLine', reading'⟩ := o'
  obtain ⟨hnames, hopenings, hhashes, hcorruptions⟩ := h
  obtain ⟨rfl, hline⟩ := hlined
  obtain ⟨rfl, hline'⟩ := hlined'
  rw [← hnames]
  cases hopenings with
  | nil => exact ⟨by simp [Outline.close], .nil, hhashes, hcorruptions⟩
  | @cons top top' outer outer' htop houter =>
      simp only [List.map_cons, List.forall_mem_cons] at hline hline'
      simp only [List.map_cons, List.head?_cons, Option.some.injEq, List.tail_cons]
      rw [Outline.close, Outline.close]
      simp only
      rw [← hname, ← htop.name, ← htop.isFunction_eq]
      by_cases hfits : a.bareName = top.name
      · rw [if_neg (not_not.2 hfits), if_neg (not_not.2 hfits), if_pos hfits.symm]
        split
        · have hpush : ∀ s s' : Sketch, s.body = s'.body → (s.push Placeholder.nested.text).body =
              (s'.push Placeholder.nested.text).body :=
            fun s s' hbody => congrArg (· ++ _) hbody
          have hrecord := Sketch.map_hash_finish "" htop.body hline.1 hline'.1
          refine ⟨map_name_sketching _ _, echoes_sketching hpush houter, ?_, hcorruptions⟩
          rw [List.map_append, List.map_append, hhashes]
          exact congrArg _ hrecord
        · exact ⟨rfl, houter, hhashes, hcorruptions⟩
      · rw [if_pos hfits, if_pos hfits, if_neg (Ne.symm hfits)]
        exact ⟨rfl, .nil, hhashes, congrArg (· + 1) hcorruptions⟩

/-- Tags that agree keep two readings in step. -/
theorem Echoes.take (h : Echoes p o o') (hlined : o.Lined 0 0) (hlined' : o'.Lined 0 0)
    (hopen : p.inComment = false) (hname : a.name = b.name)
    (hself : a.isSelfClosing = b.isSelfClosing)
    (hagree : p.agree a.textBefore b.textBefore = true) :
    Echoes (p.behind a) (o.take "" {} ⟨a, 0⟩) (o'.take "" {} ⟨b, 0⟩) := by
  have hheard := h.hear hopen hagree
  have hbare : a.bareName = b.bareName := by rw [Tag.bareName, Tag.bareName, hname]
  have hclosing : a.isClosing = b.isClosing := by rw [Tag.isClosing, Tag.isClosing, hname]
  have hcomment : Reader.opensComment a = Reader.opensComment b := by
    rw [Reader.opensComment, Reader.opensComment, hname]
  have houtside : o'.openings = [] ↔ p.names = [] := by
    rw [← h.names, map_name_of_echoes h.openings, List.map_eq_nil_iff]
  have houtside' : o.openings = [] ↔ p.names = [] := by
    rw [← h.names, List.map_eq_nil_iff]
  rw [take_eq hlined.unitLine, take_eq hlined'.unitLine, TagPlace.behind, hopen,
    if_neg Bool.false_ne_true]
  simp only [PlacedTag.passes, ← hbare, ← hclosing, ← hcomment, ← hself, houtside, houtside',
    Bool.or_eq_true]
  split
  · exact hheard.close (hlined.hear _) (hlined'.hear _) hbare
  · by_cases hbegins : Reader.opensComment a = true
    · rw [if_pos hbegins, if_pos (.inl (.inl hbegins)), if_pos (.inl (.inl hbegins))]
      exact ⟨hheard.names, hheard.openings, hheard.hashes, hheard.corruptions⟩
    · simp only [hbegins, false_or, Bool.false_eq_true, ↓reduceIte]
      split
      · exact hheard
      · exact ⟨congrArg (_ :: ·) hheard.names, .cons ⟨rfl, rfl⟩ hheard.openings, hheard.hashes,
          hheard.corruptions⟩

theorem Lined.take_tag (h : o.Lined 0 0) (tag : Tag) : (o.take "" {} ⟨tag, 0⟩).Lined 0 0 :=
  Lined.take (p := ⟨tag, 0⟩) "" h (Nat.le_refl 0)

def through (commented : Bool) (tags : List Tag) (o : Outline) : Outline :=
  ((Tag.outsideComments commented tags).map fun tag => ⟨tag, 0⟩).foldl (Outline.take "" {}) o

theorem Echoes.through {as bs : List Tag} (h : Echoes p o o') (hlined : o.Lined 0 0)
    (hlined' : o'.Lined 0 0) (hagree : p.agreeAll as bs = true) :
    ∃ p', Echoes p' (o.through p.inComment as) (o'.through p.inComment bs) := by
  -- In a comment a tag moves the place on and nothing else.
  induction as generalizing p o o' bs with
  | nil =>
      cases bs with
      | nil => exact ⟨p, by cases p.inComment <;> exact h⟩
      | cons b bs => cases hagree
  | cons a as ih =>
      cases bs with
      | nil => cases hagree
      | cons b bs =>
          simp only [TagPlace.agreeAll, Bool.and_eq_true, decide_eq_true_eq] at hagree
          obtain ⟨⟨⟨hname, hself⟩, htext⟩, hmore⟩ := hagree
          cases hopen : p.inComment with
          | true =>
              have hbehind : p.behind a =
                  { p with inComment := a.name ≠ "/comment".toList } := by
                rw [TagPlace.behind, if_pos hopen]
              rw [hbehind] at hmore
              have hrest := ih (p := { p with inComment := a.name ≠ "/comment".toList })
                ⟨h.names, h.openings, h.hashes, h.corruptions⟩ hlined hlined' hmore
              rw [Outline.through, Outline.through, Tag.outsideComments, Tag.outsideComments,
                ← hname]
              exact hrest
          | false =>
              have hbegins : a.beginsComment = b.beginsComment := by
                rw [Tag.beginsComment, Tag.beginsComment, Tag.isClosing, Tag.isClosing,
                  Reader.opensComment, Reader.opensComment, hname, hself]
              have hstep := h.take hlined hlined' hopen hname hself htext
              have hrest := ih hstep (hlined.take_tag a) (hlined'.take_tag b) hmore
              rw [TagPlace.inComment_behind hopen a] at hrest
              rw [Outline.through, Outline.through, Tag.outsideComments, Tag.outsideComments,
                ← hbegins]
              exact hrest

theorem Lined.through (h : o.Lined 0 0) (commented : Bool) (tags : List Tag) :
    (o.through commented tags).Lined 0 0 := by
  rw [Outline.through]
  induction Tag.outsideComments commented tags generalizing o with
  | nil => exact h
  | cons tag tags ih => exact ih (h.take_tag tag)

/-- What stands behind the last tag is not reported. -/
theorem reading_foldl_of_nameless {tags : List Tag} (h : ∀ tag ∈ tags, tag.name = [])
    (hlined : o.Lined 0 0) :
    ((tags.map fun tag => ⟨tag, 0⟩).foldl (Outline.take "" {}) o).reading = o.reading := by
  induction tags generalizing o with
  | nil => rfl
  | cons tag tags ih =>
      obtain ⟨hname, hmore⟩ := List.forall_mem_cons.1 h
      have hclosing : tag.isClosing = false := by rw [Tag.isClosing, hname]; rfl
      have htake : (o.take "" {} ⟨tag, 0⟩).reading = o.reading := by
        rw [take_eq hlined.unitLine, hclosing, if_neg Bool.false_ne_true]
        split <;> rfl
      rw [List.map_cons, List.foldl_cons, ih hmore (hlined.take_tag tag), htake]

end Outline

/-- What is read of an export does not depend on where its lines end. -/
theorem Reading.exists_of_areHeaded (file : String) {text : Text} {declaration unit : Tag}
    {tags : List Tag} (htags : TagStream.tags ⟨text, 0⟩ = declaration :: unit :: tags)
    (hheaded : Tag.areHeaded (declaration :: unit :: tags) = true) : ∃ r : Reading,
      Reading.ofExport? file {} text = some (.ok r) ∧
        let o := Outline.through false tags { unitLine := some 0 }
        r.found.map Fingerprint.hash = o.reading.found.map Fingerprint.hash ∧
          r.corruptions = o.reading.corruptions := by
  rw [Tag.areHeaded, Bool.and_eq_true, decide_eq_true_eq] at hheaded
  obtain ⟨hname, hunit⟩ := hheaded
  obtain ⟨-, hfirst, hbehind⟩ := TagStream.of_tags_eq_cons htags
  generalize hs : (TagStream.next ⟨text, 0⟩).2 = s at hbehind
  obtain ⟨hmem, hsecond, hmore⟩ := TagStream.of_tags_eq_cons hbehind
  have hisUnit : (⟨unit, s.next.2.line⟩ : PlacedTag).isUnit = true := hunit
  have hcomment : Reader.opensComment unit = false := by
    rw [PlacedTag.isUnit, Bool.and_eq_true, Bool.and_eq_true, Bool.not_eq_true',
      Bool.not_eq_true'] at hunit
    exact hunit.1.2
  have hprocessed : Reading.tags text = ⟨unit, s.next.2.line⟩ :: s.next.2.processed := by
    rw [Reading.tags, hs, TagStream.processed,
      dif_neg (Bool.eq_false_iff.1 (TagStream.isEmpty_of_mem hmem)), hsecond,
      TagStream.beyond_of_not_opensComment hcomment]
  obtain ⟨rest, hrest, hmap⟩ := s.next.2.map_tag_processed
  have hread : Reading.ofExport? file {} text = _ := Reading.ofExport?_eq (hfirst ▸ hname)
  rw [hprocessed, List.foldl_cons, Outline.take_of_isUnit file {} hisUnit] at hread
  -- The lines do not matter, and neither does what stands behind the last tag.
  have horder := s.next.2.inOrder_processed
  rw [← List.append_nil s.next.2.processed] at horder
  obtain ⟨hunplaced, -⟩ := Outline.foldl_unplaced file (Outline.lined_start s.next.2.line) horder
  have hplaces : s.next.2.processed.map PlacedTag.unplaced =
      ((Tag.outsideComments false tags).map fun tag => ⟨tag, 0⟩) ++
        rest.map fun tag => ⟨tag, 0⟩ := by
    rw [← List.map_append, ← hmore, ← hmap, List.map_map]
    rfl
  have hreading : (Outline.through false tags { unitLine := some 0 }).reading =
      ((s.next.2.processed.foldl (Outline.take file {})
        { unitLine := some s.next.2.line }).unplaced).reading := by
    rw [← hunplaced, hplaces, List.foldl_append]
    exact (Outline.reading_foldl_of_nameless hrest ((Outline.lined_start 0).through _ _)).symm
  refine ⟨_, hread, ?_⟩
  simp only [hreading, Outline.unplaced, List.map_map]
  exact ⟨rfl, trivial⟩

/-- Two exports that say the same in other words have the same digests and the same number of
corruptions. -/
theorem Reading.hashes_of_rephrased (file file' : String) {text text' : Text}
    (h : Rephrased text text') : ∃ r r' : Reading,
      Reading.ofExport? file {} text = some (.ok r) ∧
        Reading.ofExport? file' {} text' = some (.ok r') ∧
        r.found.map Fingerprint.hash = r'.found.map Fingerprint.hash ∧
        r.corruptions = r'.corruptions := by
  obtain ⟨hheaded, hagree⟩ := h
  obtain ⟨declaration, unit, tags, htags⟩ := Tag.exists_of_areHeaded hheaded
  rw [htags] at hheaded hagree
  obtain ⟨declaration', unit', tags', htags', hheaded', hmore⟩ :=
    TagPlace.exists_of_agreeAll hheaded hagree
  obtain ⟨r, hread, hhashes, hcorruptions⟩ := exists_of_areHeaded file htags hheaded
  obtain ⟨r', hread', hhashes', hcorruptions'⟩ := exists_of_areHeaded file' htags' hheaded'
  have hstart : Outline.Echoes {} { unitLine := some 0 } { unitLine := some 0 } :=
    ⟨rfl, .nil, rfl, rfl⟩
  obtain ⟨p, hechoes⟩ :=
    hstart.through (Outline.lined_start 0) (Outline.lined_start 0) hmore
  exact ⟨r, r', hread, hread', hhashes.trans (hechoes.hashes.trans hhashes'.symm),
    hcorruptions.trans (hechoes.corruptions.trans hcorruptions'.symm)⟩

/-- One function in two exports. The names, the blanks and the comments differ. -/
def plainExport : Text :=
  ("<?xml version='1.0'?><unit><function><name>sum</name>(<comment>add</comment>)</function>" ++
    "</unit>").toList

def spreadExport : Text :=
  ("<?xml version='1.0'?>\n<unit language='C'>\n<function>\n<name>total</name> (" ++
    "<comment type='line'>sum\nup</comment> )\n</function>\n</unit>\n").toList

theorem Reading.hashes_of_spreadExport :
    Rephrased plainExport spreadExport ∧ ∃ r r' : Reading,
      Reading.ofExport? "a.c" {} plainExport = some (.ok r) ∧
        Reading.ofExport? "b.c" {} spreadExport = some (.ok r') ∧
        r.found.map Fingerprint.hash = r'.found.map Fingerprint.hash ∧
        r.corruptions = r'.corruptions ∧ r.found.map Fingerprint.function = ["sum"] ∧
        r'.found.map Fingerprint.function = ["total"] := by
  have hrephrased : Rephrased plainExport spreadExport := by
    constructor <;> decide +kernel
  obtain ⟨r, r', hread, hread', hhashes, hcorruptions⟩ :=
    Reading.hashes_of_rephrased "a.c" "b.c" hrephrased
  have hnames : ((Reading.ofExport? "a.c" {} plainExport).map fun
      | .ok reading => reading.found.map Fingerprint.function
      | .error _ => []) = some ["sum"] := by decide +kernel
  have hnames' : ((Reading.ofExport? "b.c" {} spreadExport).map fun
      | .ok reading => reading.found.map Fingerprint.function
      | .error _ => []) = some ["total"] := by decide +kernel
  rw [hread] at hnames
  rw [hread'] at hnames'
  exact ⟨hrephrased, r, r', hread, hread', hhashes, hcorruptions, Option.some.inj hnames,
    Option.some.inj hnames'⟩

end ClonePrint
