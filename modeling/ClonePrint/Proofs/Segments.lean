import ClonePrint.Proofs.Counterparts
import ClonePrint.Proofs.Recovery
import ClonePrint.Proofs.Rendition
import ClonePrint.Proofs.Selection

/-!
# Balanced segments of an export

A function that is balanced leaves the elements around it as they were, but for the text in
front of it and its placeholder. What is found in it is what is found in its tags alone. The
numbers of the lines play no part in what is read: two exports with the same tags give the same
bodies and names.
-/
namespace ClonePrint

namespace Opening

variable {os outer : List Opening}

/-- What is done inside a function leaves the elements around it alone. -/
theorem sketching_append (f : Sketch → Sketch) (h : ∃ o ∈ os, o.isFunction = true) :
    sketching f (os ++ outer) = sketching f os ++ outer := by
  induction os with
  | nil => simp at h
  | cons o os ih =>
      rw [List.cons_append, sketching, sketching]
      by_cases hfunction : o.isFunction = true
      · rw [if_pos hfunction, if_pos hfunction, List.cons_append]
      · obtain ⟨o', hmem, hfunction'⟩ := h
        obtain rfl | hmem := List.mem_cons.1 hmem
        · exact absurd hfunction' hfunction
        · rw [if_neg hfunction, if_neg hfunction, ih ⟨o', hmem, hfunction'⟩, List.cons_append]

theorem inside_append (h : ∃ o ∈ os, o.isFunction = true) : inside (os ++ outer) = inside os := by
  induction os with
  | nil => simp at h
  | cons o os ih =>
      rw [List.cons_append]
      by_cases hfunction : o.isFunction = true
      · rw [inside_cons_of_isFunction hfunction, inside_cons_of_isFunction hfunction]
      · obtain ⟨o', hmem, hfunction'⟩ := h
        obtain rfl | hmem := List.mem_cons.1 hmem
        · exact absurd hfunction' hfunction
        · rw [inside_cons_of_not (Bool.eq_false_iff.2 hfunction),
            inside_cons_of_not (Bool.eq_false_iff.2 hfunction), ih ⟨o', hmem, hfunction'⟩]

theorem hear_append (text : Text) (h : ∃ o ∈ os, o.isFunction = true) :
    hear text (os ++ outer) = hear text os ++ outer := by
  rw [hear_eq_sketching, hear_eq_sketching, inside_append h, sketching_append _ h]

theorem map_name_hear (text : Text) (os : List Opening) :
    (hear text os).map name = os.map name := by
  rw [hear_eq_sketching, map_name_sketching]

/-- The elements are the ones with the given names inside a function, and the function. -/
def InFunction (names : List Text) (os : List Opening) : Prop :=
  os.map name = names ++ ["function".toList]

variable {names : List Text}

theorem InFunction.exists_isFunction (h : InFunction names os) : ∃ o ∈ os, o.isFunction = true := by
  have hmem : "function".toList ∈ os.map name := by
    rw [h]
    exact List.mem_append_right _ List.mem_cons_self
  obtain ⟨o, ho, hname⟩ := List.mem_map.1 hmem
  exact ⟨o, ho, decide_eq_true hname⟩

theorem InFunction.hear (h : InFunction names os) (text : Text) :
    InFunction names (hear text os) := (map_name_hear text os).trans h

theorem InFunction.sketching (h : InFunction names os) (f : Sketch → Sketch) :
    InFunction names (sketching f os) := (map_name_sketching f os).trans h

end Opening

namespace Outline

open Opening

variable {file : String} {limits : Thresholds} {o : Outline} {p : PlacedTag} {unit : Nat}

/-- What a tag does once there has been a unit tag. -/
theorem take_eq (h : o.unitLine = some unit) (p : PlacedTag) :
    o.take file limits p =
      if p.tag.isClosing then (o.hear p.tag.textBefore).close file limits p
      else if p.passes ∨ p.tag.bareName ≠ "function".toList ∧ o.openings = [] then
        o.hear p.tag.textBefore
      else
        { o with
          openings := ⟨p.tag.bareName, ClonePrint.sourceLine (some unit) p.breaks, {}⟩ ::
            Opening.hear p.tag.textBefore o.openings } := by
  have hempty : (o.hear p.tag.textBefore).openings.isEmpty = true ↔ o.openings = [] := by
    rw [List.isEmpty_iff, ← List.map_eq_nil_iff (f := name), Outline.hear, map_name_hear,
      List.map_eq_nil_iff]
  have hline : (o.hear p.tag.textBefore).sourceLine p.breaks =
      ClonePrint.sourceLine (some unit) p.breaks := by
    rw [sourceLine, Outline.hear, h]
    rfl
  rw [take, base_of_some (o.hear p.tag.textBefore) h, enter]
  simp only [hempty, hline, PlacedTag.passes, Bool.or_eq_true]
  by_cases hcomment : Reader.opensComment p.tag = true
  · simp only [hcomment, true_or, ↓reduceIte]
  · simp only [hcomment, false_or, or_comm, Bool.false_eq_true, ↓reduceIte]
    rfl

section

variable {names : List Text} {os : List Opening}

/-- A closing tag that fits works inside the innermost function, whatever is around it. -/
theorem exists_take_of_closing (file : String) (limits : Thresholds) (unit : Nat)
    (hos : InFunction (p.tag.bareName :: names) os) (hclosing : p.tag.isClosing = true) :
    ∃ os' rs, InFunction names os' ∧ ∀ outer reading,
      take file limits ⟨os ++ outer, some unit, reading⟩ p =
        ⟨os' ++ outer, some unit, { reading with found := reading.found ++ rs }⟩ := by
  have hheard := hos.hear p.tag.textBefore
  obtain ⟨top, os', hopen⟩ := List.exists_cons_of_ne_nil
    (show Opening.hear p.tag.textBefore os ≠ [] by
      intro hnil
      rw [hnil] at hheard
      cases hheard)
  rw [hopen, InFunction, List.map_cons, List.cons_append, List.cons.injEq] at hheard
  obtain ⟨htop, hos'⟩ := hheard
  have htake (outer : List Opening) (reading : Reading) :
      take file limits ⟨os ++ outer, some unit, reading⟩ p =
        close file limits p ⟨top :: (os' ++ outer), some unit, reading⟩ := by
    rw [take_eq rfl, if_pos hclosing, Outline.hear, hear_append _ hos.exists_isFunction, hopen,
      List.cons_append]
  have hfits : ¬p.tag.bareName ≠ top.name := fun hdiffers => hdiffers htop.symm
  by_cases hfunction : top.isFunction = true
  · refine ⟨Opening.sketching (·.push Placeholder.nested.text) os',
      (top.sketch.finish file top.line
        (ClonePrint.sourceLine (some unit) p.breaks) limits).toList,
      InFunction.sketching hos' _, fun outer reading => ?_⟩
    rw [htake, close]
    simp only
    rw [if_neg hfits, if_pos hfunction,
      Opening.sketching_append _ (InFunction.exists_isFunction hos')]
    rfl
  · refine ⟨os', [], hos', fun outer reading => ?_⟩
    rw [htake, close]
    simp only
    rw [if_neg hfits, if_neg hfunction, List.append_nil]

/-- A tag that is balanced so far works inside the innermost function, whatever is around it. -/
theorem exists_take_of_nesting (file : String) (limits : Thresholds) (unit : Nat)
    {names' : List Text} (hos : InFunction names os) (h : p.nesting? names = some names') :
    ∃ os' rs, InFunction names' os' ∧ ∀ outer reading,
      take file limits ⟨os ++ outer, some unit, reading⟩ p =
        ⟨os' ++ outer, some unit, { reading with found := reading.found ++ rs }⟩ := by
  have hheard := hos.hear p.tag.textBefore
  have hinside (outer : List Opening) : Opening.hear p.tag.textBefore (os ++ outer) =
      Opening.hear p.tag.textBefore os ++ outer := hear_append _ hos.exists_isFunction
  unfold PlacedTag.nesting? at h
  split at h
  · rename_i hclosing
    cases names with
    | nil => cases h
    | cons name names =>
        simp only [Option.ite_none_right_eq_some, Option.some.injEq] at h
        obtain ⟨rfl, rfl⟩ := h
        exact exists_take_of_closing file limits unit hos hclosing
  · rename_i hclosing
    split at h
    · rename_i hpasses
      obtain rfl := Option.some.inj h
      refine ⟨Opening.hear p.tag.textBefore os, [], hheard, fun outer reading => ?_⟩
      rw [take_eq rfl, if_neg hclosing, if_pos (.inl hpasses), Outline.hear, hinside outer,
        List.append_nil]
    · rename_i hpasses
      obtain rfl := Option.some.inj h
      refine ⟨⟨p.tag.bareName, ClonePrint.sourceLine (some unit) p.breaks, {}⟩ ::
        Opening.hear p.tag.textBefore os, [], ?_, fun outer reading => ?_⟩
      · rw [InFunction, List.map_cons, hheard, List.cons_append]
      · have hopen : os ++ outer ≠ [] := by
          obtain ⟨o', ho', -⟩ := hos.exists_isFunction
          exact List.append_ne_nil_of_left_ne_nil (List.ne_nil_of_mem ho') outer
        rw [take_eq rfl, if_neg hclosing, if_neg (not_or.2 ⟨hpasses, fun hboth => hopen hboth.2⟩),
          hinside outer, List.append_nil, List.cons_append]

end

/-- Balanced tags close the elements that are open inside the innermost function. -/
theorem exists_foldl_of_unwinds (file : String) (limits : Thresholds) (unit : Nat)
    {names : List Text} {tags : List PlacedTag} (h : unwinds names tags = true)
    {os : List Opening} (hos : InFunction names os) :
    ∃ f rs, f.name = "function".toList ∧ ∀ outer reading,
      tags.foldl (take file limits) ⟨os ++ outer, some unit, reading⟩ =
        ⟨f :: outer, some unit, { reading with found := reading.found ++ rs }⟩ := by
  induction tags generalizing names os with
  | nil =>
      rw [unwinds, List.isEmpty_iff] at h
      rw [h, InFunction, List.nil_append] at hos
      obtain ⟨f, rfl, hname⟩ := List.map_eq_singleton_iff.1 hos
      exact ⟨f, [], hname, fun outer reading => by rw [List.append_nil]; rfl⟩
  | cons p tags ih =>
      rw [unwinds, Option.any_eq_true] at h
      obtain ⟨names', hnesting, hunwinds⟩ := h
      obtain ⟨os', rs, hos', htake⟩ := exists_take_of_nesting file limits unit hos hnesting
      obtain ⟨f, rs', hname, hfold⟩ := ih hunwinds hos'
      refine ⟨f, rs ++ rs', hname, fun outer reading => ?_⟩
      rw [List.foldl_cons, htake, hfold, List.append_assoc]

end Outline

/-- The records of a function and of those nested in it, when it is read alone behind a unit
tag. -/
def FunctionSpan.found (file : String) (limits : Thresholds) (unit : Nat) (span : FunctionSpan) :
    List Fingerprint :=
  (span.tags.foldl (Outline.take file limits) { unitLine := some unit }).reading.found

namespace Outline

open Opening

variable {file : String} {limits : Thresholds}

theorem exists_foldl_span (file : String) (limits : Thresholds) (unit : Nat)
    {span : FunctionSpan} (h : span.IsBalanced) : ∃ rs, ∀ openings reading,
      span.tags.foldl (take file limits) ⟨openings, some unit, reading⟩ =
        ⟨Opening.sketching (·.push Placeholder.nested.text)
            (Opening.hear span.opener.tag.textBefore openings), some unit,
          { reading with found := reading.found ++ rs }⟩ := by
  obtain ⟨hopens, hunwinds, hcloses⟩ := h
  rw [PlacedTag.opensFunction, Bool.and_eq_true, Bool.and_eq_true, Bool.not_eq_true',
    Bool.not_eq_true', decide_eq_true_eq] at hopens
  obtain ⟨⟨hclosing, hpasses⟩, hname⟩ := hopens
  rw [PlacedTag.closesFunction, Bool.and_eq_true, decide_eq_true_eq] at hcloses
  obtain ⟨hclosing', hname'⟩ := hcloses
  have hself : InFunction []
      [⟨span.opener.tag.bareName, ClonePrint.sourceLine (some unit) span.opener.breaks, {}⟩] :=
    congrArg ([·]) hname
  obtain ⟨f, rs, hf, hfold⟩ := exists_foldl_of_unwinds file limits unit hunwinds hself
  have hfunction : f.isFunction = true := decide_eq_true hf
  have hfits : ¬span.closer.tag.bareName ≠ f.name := fun hdiffers => hdiffers (hname'.trans hf.symm)
  refine ⟨rs ++ ((f.sketch.hearing [] span.closer.tag.textBefore).finish file f.line
    (ClonePrint.sourceLine (some unit) span.closer.breaks) limits).toList,
    fun openings reading => ?_⟩
  have hopener : take file limits ⟨openings, some unit, reading⟩ span.opener =
      ⟨[⟨span.opener.tag.bareName, ClonePrint.sourceLine (some unit) span.opener.breaks, {}⟩] ++
        Opening.hear span.opener.tag.textBefore openings, some unit, reading⟩ := by
    rw [take_eq rfl, hclosing, hpasses, if_neg Bool.false_ne_true,
      if_neg (not_or.2 ⟨Bool.false_ne_true, fun hboth => hboth.1 hname⟩)]
    rfl
  rw [FunctionSpan.tags, List.foldl_cons, hopener, List.foldl_append, hfold, List.foldl_cons,
    List.foldl_nil, take_eq rfl, if_pos hclosing', Outline.hear]
  simp only
  rw [hear_eq_sketching, inside_cons_of_isFunction hfunction, Opening.sketching, if_pos hfunction,
    close]
  simp only
  rw [if_neg hfits]
  have hsame : ∀ sketch, ({ f with sketch } : Opening).isFunction = true := fun _ => hfunction
  rw [if_pos (hsame _), List.append_assoc]
  rfl

/-- A balanced function leaves the text in front of it, its placeholder and its records. -/
theorem foldl_span (file : String) (limits : Thresholds) (unit : Nat) {span : FunctionSpan}
    (h : span.IsBalanced) (openings : List Opening) (reading : Reading) :
    span.tags.foldl (take file limits) ⟨openings, some unit, reading⟩ =
      ⟨Opening.sketching (·.push Placeholder.nested.text)
          (Opening.hear span.opener.tag.textBefore openings), some unit,
        { reading with found := reading.found ++ span.found file limits unit }⟩ := by
  obtain ⟨rs, hfold⟩ := exists_foldl_span file limits unit h
  have hfound : span.found file limits unit = rs := by
    rw [FunctionSpan.found, hfold]
    rfl
  rw [hfound, hfold]

end Outline

/-- The record without its file and its lines. -/
def Fingerprint.unplaced (r : Fingerprint) : Fingerprint :=
  { r with file := "", lineStart := 1, lineEnd := 1 }

def Opening.unplaced (o : Opening) : Opening := { o with line := 1 }

def PlacedTag.unplaced (p : PlacedTag) : PlacedTag := { p with breaks := 0 }

/-- Tags are known up to their lines. -/
theorem PlacedTag.map_unplaced_eq {tags tags' : List PlacedTag}
    (h : tags.map PlacedTag.tag = tags'.map PlacedTag.tag) :
    tags.map PlacedTag.unplaced = tags'.map PlacedTag.unplaced := by
  have hplace (tags : List PlacedTag) :
      tags.map PlacedTag.unplaced = (tags.map PlacedTag.tag).map (⟨·, 0⟩) := by
    rw [List.map_map]
    rfl
  rw [hplace, h, ← hplace]

def Outline.unplaced (o : Outline) : Outline where
  openings := o.openings.map Opening.unplaced
  unitLine := some 0
  reading := { o.reading with found := o.reading.found.map Fingerprint.unplaced }

namespace Opening

theorem sketching_unplaced (f : Sketch → Sketch) (os : List Opening) :
    sketching f (os.map unplaced) = (sketching f os).map unplaced := by
  induction os with
  | nil => rfl
  | cons o os ih =>
      have hsame : o.unplaced.isFunction = o.isFunction := rfl
      rw [List.map_cons, sketching, sketching, hsame, ih]
      split <;> rfl

theorem map_name_unplaced (os : List Opening) : (os.map unplaced).map name = os.map name := by
  rw [List.map_map]
  rfl

theorem hear_unplaced (text : Text) (os : List Opening) :
    hear text (os.map unplaced) = (hear text os).map unplaced := by
  have habove : above (os.map unplaced) = above os := by
    rw [above, map_name_unplaced, above]
  cases os with
  | nil => rfl
  | cons top outer =>
      rw [List.map_cons] at habove ⊢
      rw [hear, hear, habove, ← List.map_cons, sketching_unplaced]
      split <;> rfl

theorem map_line_sketching (f : Sketch → Sketch) (os : List Opening) :
    (sketching f os).map line = os.map line := by
  induction os with
  | nil => rfl
  | cons o os ih =>
      rw [sketching]
      split
      · rfl
      · rw [List.map_cons, ih, List.map_cons]

end Opening

namespace PlacedTag

/-- The tags stand one behind the other, after a number of line breaks. -/
def InOrder (breaks : Nat) (tags : List PlacedTag) : Prop :=
  (breaks :: tags.map PlacedTag.breaks).Pairwise (· ≤ ·)

variable {breaks : Nat} {p : PlacedTag} {tags tags' : List PlacedTag}

theorem inOrder_cons : InOrder breaks (p :: tags) ↔ breaks ≤ p.breaks ∧ InOrder p.breaks tags := by
  rw [InOrder, InOrder, List.map_cons, List.pairwise_cons, List.forall_mem_cons]
  refine ⟨fun h => ⟨h.1.1, h.2⟩, fun h => ⟨⟨h.1, fun n hn => ?_⟩, h.2⟩⟩
  exact h.1.trans (List.rel_of_pairwise_cons h.2 hn)

theorem InOrder.sublist (h : InOrder breaks tags) (hsub : tags'.Sublist tags) :
    InOrder breaks tags' :=
  List.Pairwise.sublist ((hsub.map _).cons_cons _) h

theorem InOrder.mono {earlier : Nat} (h : InOrder breaks tags) (hle : earlier ≤ breaks) :
    InOrder earlier tags := by
  rw [InOrder, List.pairwise_cons] at h ⊢
  exact ⟨fun n hn => hle.trans (h.1 n hn), h.2⟩

end PlacedTag

namespace TagStream

theorem line_le_next (s : TagStream) : s.line ≤ s.next.2.line := by
  have hafter (s : TagStream) (read : Stretch) : s.line ≤ (s.after read).line :=
    (Nat.le_add_right _ _).trans (Nat.le_add_right _ _)
  unfold next
  dsimp only
  split
  · exact (hafter _ _).trans (hafter _ _)
  · exact ((hafter _ _).trans (hafter _ _)).trans (hafter _ _)

theorem line_le_skipComment (s : TagStream) : s.line ≤ s.skipComment.line := by
  fun_induction skipComment s with
  | case1 s hempty => exact Nat.le_refl _
  | case2 s hempty read hname => exact s.line_le_next
  | case3 s hempty read hname ih => exact s.line_le_next.trans ih

theorem inOrder_processed (s : TagStream) : PlacedTag.InOrder s.line s.processed := by
  fun_induction processed s with
  | case1 s hempty => exact List.pairwise_singleton _ _
  | case2 s hempty ih =>
      have hbeyond : s.next.2.line ≤ (s.next.2.beyond s.next.1).line := by
        rw [beyond]
        split
        · exact line_le_skipComment _
        · exact Nat.le_refl _
      exact PlacedTag.inOrder_cons.2 ⟨s.line_le_next, ih.mono hbeyond⟩

end TagStream

/-- On some line a unit tag has been read, and no element has been opened behind it. -/
structure Outline.Lined (unit breaks : Nat) (o : Outline) : Prop where
  unitLine : o.unitLine = some unit
  line : ∀ n ∈ o.openings.map Opening.line, n ≤ ClonePrint.sourceLine (some unit) breaks

namespace Outline

open Opening

variable {file : String} {o : Outline} {p : PlacedTag} {unit breaks : Nat}

theorem lined_start (unit : Nat) : ({ unitLine := some unit } : Outline).Lined unit unit :=
  ⟨rfl, fun n hn => by cases hn⟩

theorem Lined.hear (h : o.Lined unit breaks) (text : Text) : (o.hear text).Lined unit breaks := by
  refine ⟨h.unitLine, ?_⟩
  rw [Outline.hear, hear_eq_sketching, map_line_sketching]
  exact h.line

theorem Lined.mono {later : Nat} (h : o.Lined unit breaks) (hle : breaks ≤ later) :
    o.Lined unit later := by
  refine ⟨h.unitLine, fun n hn => (h.line n hn).trans ?_⟩
  simp only [ClonePrint.sourceLine]
  omega

theorem hear_unplaced (text : Text) (o : Outline) :
    o.unplaced.hear text = (o.hear text).unplaced := by
  rw [Outline.hear, unplaced, Opening.hear_unplaced]
  rfl

theorem Lined.close (h : o.Lined unit p.breaks) : (o.close file {} p).Lined unit p.breaks := by
  obtain ⟨openings, unitLine, reading⟩ := o
  obtain ⟨hunit, hline⟩ := h
  cases openings with
  | nil => exact ⟨hunit, hline⟩
  | cons top outer =>
      simp only [List.map_cons, List.forall_mem_cons] at hline
      rw [Outline.close]
      simp only
      split
      · exact ⟨hunit, fun n hn => by cases hn⟩
      · split
        · refine ⟨hunit, ?_⟩
          rw [map_line_sketching]
          exact hline.2
        · exact ⟨hunit, hline.2⟩

/-- A function is reported on any lines or on none. -/
theorem finish_unplaced (file : String) (s : Sketch) {first last : Nat} (h : first ≤ last) :
    (s.finish file first last {}).toList.map Fingerprint.unplaced =
      (s.finish "" 1 1 {}).toList := by
  rw [s.finish_of_le file h, s.finish_of_le "" (Nat.le_refl 1)]
  rfl

theorem close_unplaced (file : String) (h : o.Lined unit p.breaks) :
    o.unplaced.close "" {} p.unplaced = (o.close file {} p).unplaced := by
  obtain ⟨openings, unitLine, reading⟩ := o
  obtain ⟨rfl, hline⟩ := h
  cases openings with
  | nil => rfl
  | cons top outer =>
      simp only [List.map_cons, List.forall_mem_cons] at hline
      have hsame : top.unplaced.isFunction = top.isFunction := rfl
      have hrecord := finish_unplaced file top.sketch hline.1
      rw [Outline.close, Outline.unplaced]
      simp only [List.map_cons, hsame]
      rw [Outline.close]
      simp only
      by_cases hname : p.tag.bareName = top.name
      · have hfits : ¬p.tag.bareName ≠ top.name := fun hdiffers => hdiffers hname
        have hfits' : ¬p.unplaced.tag.bareName ≠ top.unplaced.name := hfits
        rw [if_neg hfits, if_neg hfits']
        split
        · rw [Outline.unplaced]
          have hlast : sourceLine p.breaks ⟨top :: outer, some unit, reading⟩ =
              ClonePrint.sourceLine (some unit) p.breaks := rfl
          simp only [sketching_unplaced, List.map_append]
          rw [hlast, hrecord]
          rfl
        · rfl
      · have hfits' : p.unplaced.tag.bareName ≠ top.unplaced.name := hname
        rw [if_pos hname, if_pos hfits']
        rfl

theorem Lined.take (file : String) (h : o.Lined unit breaks) (hle : breaks ≤ p.breaks) :
    (o.take file {} p).Lined unit p.breaks := by
  have hheard := (h.mono hle).hear p.tag.textBefore
  rw [take_eq h.unitLine]
  split
  · exact hheard.close
  · split
    · exact hheard
    · refine ⟨h.unitLine, ?_⟩
      rw [List.map_cons, List.forall_mem_cons]
      exact ⟨Nat.le_refl _, hheard.line⟩

/-- A tag does the same on any line. -/
theorem take_unplaced (file : String) (h : o.Lined unit breaks) (hle : breaks ≤ p.breaks) :
    o.unplaced.take "" {} p.unplaced = (o.take file {} p).unplaced := by
  have hheard := (h.mono hle).hear p.tag.textBefore
  have hpasses : p.unplaced.passes = p.passes := rfl
  have htag : p.unplaced.tag = p.tag := rfl
  have hunit : o.unplaced.unitLine = some 0 := rfl
  have hopen : o.unplaced.openings = [] ↔ o.openings = [] := List.map_eq_nil_iff
  rw [take_eq h.unitLine, take_eq hunit]
  simp only [hpasses, htag, hopen, hear_unplaced, close_unplaced file hheard]
  split
  · rfl
  · split
    · rfl
    · rw [unplaced, unplaced]
      simp only [Opening.hear_unplaced]
      rfl

/-- Several tags do the same on any lines, and those behind them are still in order. -/
theorem foldl_unplaced (file : String) {tags rest : List PlacedTag} (h : o.Lined unit breaks)
    (horder : PlacedTag.InOrder breaks (tags ++ rest)) :
    (tags.map PlacedTag.unplaced).foldl (take "" {}) o.unplaced =
        (tags.foldl (take file {}) o).unplaced ∧
      ∃ later, (tags.foldl (take file {}) o).Lined unit later ∧
        PlacedTag.InOrder later rest := by
  induction tags generalizing o breaks with
  | nil => exact ⟨rfl, breaks, h, horder⟩
  | cons p tags ih =>
      obtain ⟨hle, horder⟩ := PlacedTag.inOrder_cons.1 horder
      rw [List.map_cons, List.foldl_cons, List.foldl_cons, take_unplaced file h hle]
      exact ih (h.take file hle) horder

/-- What is found last does not depend on what was found before. -/
theorem exists_found_foldl (file : String) (tags : List PlacedTag) (o : Outline) :
    ∃ rs corruptions, ∀ found,
      (tags.foldl (take file {}) (o.finding found)).reading = ⟨found ++ rs, corruptions⟩ := by
  obtain ⟨o', cs, hfold⟩ := exists_foldl_take file tags o
  exact ⟨_, o'.reading.corruptions, fun found => congrArg Outline.reading (hfold {} found)⟩

theorem take_of_isUnit {p : PlacedTag} (file : String) (limits : Thresholds) (h : p.isUnit = true) :
    ({} : Outline).take file limits p = { unitLine := some p.breaks } := by
  rw [PlacedTag.isUnit, Bool.and_eq_true, Bool.and_eq_true, Bool.not_eq_true', Bool.not_eq_true',
    decide_eq_true_eq] at h
  obtain ⟨⟨hclosing, hcomment⟩, hname⟩ := h
  have hother : p.tag.bareName ≠ "function".toList := by
    rw [hname]
    decide
  rw [take, if_neg (Bool.eq_false_iff.1 hclosing), if_neg (Bool.eq_false_iff.1 hcomment), base,
    if_pos ⟨hname, rfl⟩, enter, if_pos (.inl ⟨hother, rfl⟩)]
  rfl

end Outline

/-- Two records are about the same body and the same name. -/
structure Fingerprint.SameBody (r r' : Fingerprint) : Prop where
  hash : r.hash = r'.hash
  function : r.function = r'.function

theorem Fingerprint.forall₂_sameBody {rs rs' : List Fingerprint}
    (h : rs.map unplaced = rs'.map unplaced) : List.Forall₂ SameBody rs rs' := by
  rw [← List.forall₂_eq_eq_eq, List.forall₂_map_left_iff, List.forall₂_map_right_iff] at h
  refine h.imp fun r r' hr => ⟨?_, ?_⟩
  · exact (congrArg Fingerprint.hash hr :)
  · exact (congrArg Fingerprint.function hr :)

/-- An export in which a balanced function stands somewhere behind the unit tag. -/
structure FunctionExport where
  text : Text
  unit : PlacedTag
  front : List PlacedTag
  span : FunctionSpan
  back : List PlacedTag
  declared : (TagStream.next ⟨text, 0⟩).1.name = "?xml".toList
  tags_eq : Reading.tags text = unit :: (front ++ (span.tags ++ back))
  isUnit : unit.isUnit = true
  isBalanced : span.IsBalanced

namespace FunctionExport

/-- The records of the function and of those nested in it. -/
def found (file : String) (e : FunctionExport) : List Fingerprint :=
  e.span.found file {} e.unit.breaks

def outlineBefore (file : String) (e : FunctionExport) : Outline :=
  e.front.foldl (Outline.take file {}) { unitLine := some e.unit.breaks }

/-- The outline behind the function when nothing is found in it. -/
def outlineBehind (file : String) (e : FunctionExport) : Outline :=
  { e.outlineBefore file with
    openings := Opening.sketching (·.push Placeholder.nested.text)
      (Opening.hear e.span.opener.tag.textBefore (e.outlineBefore file).openings) }

/-- The same tags stand around the functions of two exports. -/
structure SameAround (e e' : FunctionExport) : Prop where
  front : e.front.map PlacedTag.tag = e'.front.map PlacedTag.tag
  back : e.back.map PlacedTag.tag = e'.back.map PlacedTag.tag
  textBefore : e.span.opener.tag.textBefore = e'.span.opener.tag.textBefore

variable {e e' : FunctionExport}

theorem inOrder (e : FunctionExport) :
    PlacedTag.InOrder e.unit.breaks (e.front ++ (e.span.tags ++ e.back)) := by
  have horder := TagStream.inOrder_processed (TagStream.next ⟨e.text, 0⟩).2
  rw [← Reading.tags, e.tags_eq] at horder
  exact (PlacedTag.inOrder_cons.1 horder).2

theorem ofExport?_eq (file : String) (e : FunctionExport) :
    Reading.ofExport? file {} e.text =
      some (.ok ((e.span.tags ++ e.back).foldl (Outline.take file {})
        (e.outlineBefore file)).reading) := by
  rw [Reading.ofExport?_eq e.declared, e.tags_eq, List.foldl_cons,
    Outline.take_of_isUnit file {} e.isUnit, List.foldl_append]
  rfl

/-- In front of the function the lines do not matter. -/
theorem outlineBefore_spec (file : String) (e : FunctionExport) :
    ((e.front.map PlacedTag.unplaced).foldl (Outline.take "" {}) { unitLine := some 0 } =
        (e.outlineBefore file).unplaced) ∧
      ∃ later, (e.outlineBefore file).Lined e.unit.breaks later ∧
        PlacedTag.InOrder later (e.span.tags ++ e.back) :=
  Outline.foldl_unplaced file (Outline.lined_start e.unit.breaks) e.inOrder

/-- Behind the function they do not either. -/
theorem outlineBehind_spec (file : String) (e : FunctionExport) :
    (e.back.map PlacedTag.unplaced).foldl (Outline.take "" {}) (e.outlineBehind file).unplaced =
      (e.back.foldl (Outline.take file {}) (e.outlineBehind file)).unplaced := by
  obtain ⟨-, later, hlined, horder⟩ := e.outlineBefore_spec file
  have hbehind : (e.outlineBehind file).Lined e.unit.breaks later := by
    refine ⟨hlined.unitLine, ?_⟩
    rw [outlineBehind, Opening.map_line_sketching, Opening.hear_eq_sketching,
      Opening.map_line_sketching]
    exact hlined.line
  have hback : PlacedTag.InOrder later (e.back ++ []) := by
    rw [List.append_nil]
    exact horder.sublist (List.sublist_append_right _ _)
  exact (Outline.foldl_unplaced file hbehind hback).1

/-- The records of the function stand between those that are found in front of it and those that
are found behind it. -/
theorem exists_reading (file : String) (e : FunctionExport) : ∃ rs corruptions,
    Reading.ofExport? file {} e.text = some (.ok
        ⟨(e.outlineBefore file).reading.found ++ e.found file ++ rs, corruptions⟩) ∧
      (e.back.foldl (Outline.take file {}) (e.outlineBehind file)).reading =
        ⟨(e.outlineBefore file).reading.found ++ rs, corruptions⟩ := by
  obtain ⟨-, later, hlined, -⟩ := e.outlineBefore_spec file
  obtain ⟨rs, corruptions, hfold⟩ :=
    Outline.exists_found_foldl file e.back (e.outlineBehind file)
  have hspan : e.span.tags.foldl (Outline.take file {}) (e.outlineBefore file) =
      (e.outlineBehind file).finding ((e.outlineBefore file).reading.found ++ e.found file) := by
    have hunit := hlined.unitLine
    rw [outlineBehind]
    generalize e.outlineBefore file = o at hunit
    obtain ⟨openings, unitLine, reading⟩ := o
    obtain rfl : unitLine = some e.unit.breaks := hunit
    rw [Outline.foldl_span file {} e.unit.breaks e.isBalanced]
    rfl
  refine ⟨rs, corruptions, ?_, hfold (e.outlineBefore file).reading.found⟩
  rw [e.ofExport?_eq, List.foldl_append, hspan, hfold]

/-- What is found in front of the functions and behind them is the same up to the lines. -/
theorem SameAround.unplaced_eq (h : e.SameAround e') (file file' : String) :
    (e.outlineBefore file).unplaced = (e'.outlineBefore file').unplaced ∧
      (e.back.foldl (Outline.take file {}) (e.outlineBehind file)).unplaced =
        (e'.back.foldl (Outline.take file' {}) (e'.outlineBehind file')).unplaced := by
  have hbefore : (e.outlineBefore file).unplaced = (e'.outlineBefore file').unplaced := by
    rw [← (e.outlineBefore_spec file).1, ← (e'.outlineBefore_spec file').1,
      PlacedTag.map_unplaced_eq h.front]
  have hbehind (file : String) (e : FunctionExport) : (e.outlineBehind file).unplaced =
      { (e.outlineBefore file).unplaced with
        openings := Opening.sketching (·.push Placeholder.nested.text)
          (Opening.hear e.span.opener.tag.textBefore
            (e.outlineBefore file).unplaced.openings) } := by
    rw [outlineBehind, Outline.unplaced, Outline.unplaced]
    simp only [Opening.hear_unplaced, Opening.sketching_unplaced]
  refine ⟨hbefore, ?_⟩
  rw [← e.outlineBehind_spec, ← e'.outlineBehind_spec, hbehind, hbehind, hbefore, h.textBefore,
    PlacedTag.map_unplaced_eq h.back]

/-- Two exports that differ in a function only have the same records outside it, up to the lines. -/
theorem SameAround.agreeAround (h : e.SameAround e') (file file' : String) :
    ∃ reading reading', Reading.ofExport? file {} e.text = some (.ok reading) ∧
      Reading.ofExport? file' {} e'.text = some (.ok reading') ∧
        reading.corruptions = reading'.corruptions ∧
          AgreeAround Fingerprint.SameBody (· = e.found file) (· = e'.found file') reading.found
            reading'.found := by
  obtain ⟨rs, corruptions, hread, hback⟩ := e.exists_reading file
  obtain ⟨rs', corruptions', hread', hback'⟩ := e'.exists_reading file'
  obtain ⟨hbefore, hbehind⟩ := h.unplaced_eq file file'
  have hfront : (e.outlineBefore file).reading.found.map Fingerprint.unplaced =
      (e'.outlineBefore file').reading.found.map Fingerprint.unplaced :=
    congrArg (·.reading.found) hbefore
  have hreading := congrArg Outline.reading hbehind
  simp only [Outline.unplaced, hback, hback', List.map_append, hfront, Reading.mk.injEq,
    List.append_cancel_left_eq] at hreading
  refine ⟨_, _, hread, hread', hreading.2, _, _, _, _, _, _, rfl, rfl, ?_, ?_, rfl, rfl⟩
  · exact Fingerprint.forall₂_sameBody hfront
  · exact Fingerprint.forall₂_sameBody hreading.1

end FunctionExport

end ClonePrint
