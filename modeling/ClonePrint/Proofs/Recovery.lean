import ClonePrint.Proofs.Enclosure

/-!
# Records of completed functions

At any point the records that are still to come belong to two kinds of functions:
those that are open already and those that are opened later. Both are read off the
tags that are left. A closing tag that does not fit ends what is open, and no open
function could have been completed then. So exactly the completed functions leave a
record, whatever stands around them.
-/
namespace ClonePrint

namespace Sketch

theorem hearing_of_nested {names : List Text} (h : "function".toList ∈ names) (text : Text)
    (s : Sketch) : s.hearing names text = s := by
  rw [hearing, List.contains_iff_mem.2 h, Bool.or_true, if_pos rfl]

theorem leaving_of_nested {names : List Text} (h : "function".toList ∈ names) (name : Text)
    (s : Sketch) : s.leaving (name :: names) = s := by
  refine if_neg fun hboth => ?_
  rw [List.contains_iff_mem.2 h] at hboth
  exact Bool.noConfusion hboth.2

/-- No tag inside a nested function changes the sketch, except the one that closes it. -/
theorem meeting_of_nested {names : List Text} {p : PlacedTag}
    (h : names ≠ [] ∨ p.tag.isClosing = false) (more : List Text) (s : Sketch) :
    s.meeting (names ++ "function".toList :: more) p = s := by
  have hmem : "function".toList ∈ names ++ "function".toList :: more :=
    List.mem_append_right _ List.mem_cons_self
  rw [meeting, hearing_of_nested hmem]
  split
  · rename_i hclosing
    obtain hnames | hopen := h
    · obtain ⟨name, names, rfl⟩ := List.exists_cons_of_ne_nil hnames
      exact leaving_of_nested (List.mem_append_right _ List.mem_cons_self) name s
    · exact Bool.noConfusion (hclosing.symm.trans hopen)
  · rfl

end Sketch

namespace Opening

variable {names : List Text} {p : PlacedTag}

/-- The names of the elements that are open inside the innermost function. -/
def inside (os : List Opening) : List Text := (os.takeWhile fun o => !o.isFunction).map name

theorem inside_cons_of_isFunction {o : Opening} (h : o.isFunction = true) (outer : List Opening) :
    inside (o :: outer) = [] := by
  rw [inside, List.takeWhile_cons_of_neg (by simp [h]), List.map_nil]

theorem inside_cons_of_not {o : Opening} (h : o.isFunction = false) (outer : List Opening) :
    inside (o :: outer) = o.name :: inside outer := by
  rw [inside, List.takeWhile_cons_of_pos (by simp [h]), List.map_cons, inside]

theorem not_mem_inside (os : List Opening) : "function".toList ∉ inside os := by
  induction os with
  | nil => exact List.not_mem_nil
  | cons o outer ih =>
      by_cases hfunction : o.isFunction = true
      · rw [inside_cons_of_isFunction hfunction]
        exact List.not_mem_nil
      · rw [inside_cons_of_not (Bool.eq_false_iff.2 hfunction), List.mem_cons]
        rintro (hname | hmem)
        · exact hfunction (decide_eq_true hname.symm)
        · exact ih hmem

/-- Only what is done inside a function counts. -/
theorem sketching_congr {f g : Sketch → Sketch} {os : List Opening}
    (h : (∃ o ∈ os, o.isFunction = true) → f = g) : sketching f os = sketching g os := by
  induction os with
  | nil => rfl
  | cons o outer ih =>
      rw [sketching, sketching]
      split
      · rename_i hfunction
        rw [h ⟨o, List.mem_cons_self, hfunction⟩]
      · rw [ih fun hinner => h (hinner.imp fun _ hmem => ⟨List.mem_cons_of_mem _ hmem.1, hmem.2⟩)]

theorem above_eq {os : List Opening} (h : ∃ o ∈ os, o.isFunction = true) :
    above os = (inside os ++ ["function".toList]).find? fun name => name ≠ "name".toList := by
  induction os with
  | nil => simp at h
  | cons o outer ih =>
      rw [above, List.map_cons, List.find?_cons]
      by_cases hfunction : o.isFunction = true
      · have hname : o.name = "function".toList := of_decide_eq_true hfunction
        rw [inside_cons_of_isFunction hfunction, hname]
        rfl
      · obtain ⟨o', hmem, hfunction'⟩ := h
        obtain rfl | hmem := List.mem_cons.1 hmem
        · exact absurd hfunction' hfunction
        · rw [inside_cons_of_not (Bool.eq_false_iff.2 hfunction), List.cons_append,
            List.find?_cons, ← ih ⟨o', hmem, hfunction'⟩, above]

theorem hear_eq_sketching (text : Text) (os : List Opening) :
    hear text os = sketching (Sketch.hearing (inside os) text) os := by
  cases os with
  | nil => rfl
  | cons top outer =>
      rw [hear]
      by_cases hempty : text.isEmpty = true
      · have hid : Sketch.hearing (inside (top :: outer)) text = id := by
          funext s
          rw [Sketch.hearing, hempty, Bool.true_or, if_pos rfl]
          rfl
        rw [if_pos hempty, hid, sketching_id]
      · rw [if_neg hempty]
        refine sketching_congr fun hfunction => ?_
        funext s
        have hhead : (inside (top :: outer)).headD "function".toList = top.name := by
          by_cases htop : top.isFunction = true
          · rw [inside_cons_of_isFunction htop]
            exact (of_decide_eq_true htop).symm
          · rw [inside_cons_of_not (Bool.eq_false_iff.2 htop), List.headD_cons]
        have hcontains : (inside (top :: outer)).contains "function".toList = false := by
          rw [← Bool.not_eq_true, List.contains_iff_mem]
          exact not_mem_inside _
        rw [Sketch.hearing, Bool.eq_false_iff.2 hempty, hcontains, if_neg (by decide), hhead,
          above_eq hfunction]

/-- Take a tag into the sketches of the open functions, given the names of the elements that
are open further in. -/
def meet (p : PlacedTag) : List Text → List Opening → List Opening
  | _, [] => []
  | names, o :: outer =>
      (if o.isFunction then { o with sketch := o.sketch.meeting names p } else o) ::
        meet p (names ++ [o.name]) outer

theorem isEmpty_meet (p : PlacedTag) (names : List Text) (os : List Opening) :
    (meet p names os).isEmpty = os.isEmpty := by
  cases os <;> rfl

/-- Only the innermost function changes. -/
theorem meet_eq_sketching (h : names ≠ [] ∨ p.tag.isClosing = false) (os : List Opening) :
    meet p names os = sketching (Sketch.meeting (names ++ inside os) p) os := by
  induction os generalizing names with
  | nil => rfl
  | cons o outer ih =>
      rw [meet, sketching]
      by_cases hfunction : o.isFunction = true
      · have hname : o.name = "function".toList := of_decide_eq_true hfunction
        -- For the functions further out the tag stands in a nested function.
        have houter (more : List Text) :
            meet p (names ++ "function".toList :: more) outer = outer := by
          clear ih
          induction outer generalizing more with
          | nil => rfl
          | cons o' outer ih =>
              rw [meet, Sketch.meeting_of_nested h, List.append_assoc, List.cons_append, ih]
              split <;> rfl
        rw [if_pos hfunction, if_pos hfunction, inside_cons_of_isFunction hfunction,
          List.append_nil, hname, houter]
      · rw [if_neg hfunction, if_neg hfunction, inside_cons_of_not (Bool.eq_false_iff.2 hfunction),
          ih (.inl (by simp)), List.append_assoc]
        rfl

theorem meet_eq_hear (h : p.tag.isClosing = false) (os : List Opening) :
    meet p [] os = hear p.tag.textBefore os := by
  rw [meet_eq_sketching (.inr h), List.nil_append, hear_eq_sketching]
  have hmeeting : Sketch.meeting (inside os) p = Sketch.hearing (inside os) p.tag.textBefore := by
    funext s
    rw [Sketch.meeting, if_neg (Bool.eq_false_iff.1 h)]
  rw [hmeeting]

theorem cons_meet_eq_hear {top : Opening} (h : p.tag.isClosing = true)
    (htop : top.isFunction = false) (outer : List Opening) :
    top :: meet p [top.name] outer = hear p.tag.textBefore (top :: outer) := by
  rw [meet_eq_sketching (.inl (by simp)), hear_eq_sketching, sketching,
    if_neg (Bool.eq_false_iff.1 htop), inside_cons_of_not htop]
  have hmeeting : Sketch.meeting ([top.name] ++ inside outer) p =
      Sketch.hearing (top.name :: inside outer) p.tag.textBefore := by
    funext s
    rw [Sketch.meeting, if_pos h, List.singleton_append, Sketch.leaving]
    exact if_neg fun hboth => of_decide_eq_false htop hboth.1
  rw [hmeeting]

/-- Closing a function leaves a placeholder in the function around it. -/
theorem meet_eq_push {top : Opening} (h : p.tag.isClosing = true)
    (htop : top.isFunction = true) (outer : List Opening) :
    meet p [top.name] outer = sketching (·.push Placeholder.nested.text) outer := by
  have hname : top.name = "function".toList := of_decide_eq_true htop
  rw [meet_eq_sketching (.inl (by simp)), hname, List.singleton_append]
  have hmeeting : Sketch.meeting ("function".toList :: inside outer) p =
      (·.push Placeholder.nested.text) := by
    funext s
    rw [Sketch.meeting, if_pos h, Sketch.hearing_of_nested List.mem_cons_self, Sketch.leaving]
    refine if_pos ⟨rfl, ?_⟩
    rw [← Bool.not_eq_true, List.contains_iff_mem]
    exact not_mem_inside _
  rw [hmeeting]

/-- The record that an open function will get, given the tags in front and those that are
left. -/
def record? (file : String) (limits : Thresholds) (before tags : List PlacedTag)
    (names : List Text) (o : Opening) : Option Fingerprint :=
  (enclosure? names tags).bind fun e =>
    (Sketch.through names (e.inner ++ [e.closer]) o.sketch).finish file o.line
      (ClonePrint.sourceLine (unitBreaks? (before ++ e.inner)) e.closer.breaks) limits

/-- The records that the open functions will get. -/
def awaited (file : String) (limits : Thresholds) (before tags : List PlacedTag) :
    List Text → List Opening → List Fingerprint
  | _, [] => []
  | names, o :: outer =>
      (if o.isFunction then (o.record? file limits before tags names).toList else []) ++
        awaited file limits before tags (names ++ [o.name]) outer

end Opening

/-- Everything that is left has to be closed first. -/
theorem enclosure?_cons_of_nesting {p : PlacedTag} {names names' : List Text}
    (h : p.nesting? names = some names') (tags : List PlacedTag) :
    enclosure? names (p :: tags) = (enclosure? names' tags).map (.behind p) := by
  rw [enclosure?, if_neg, h, Option.bind_some]
  intro hcloser
  obtain ⟨hnames, hcloses⟩ := Bool.and_eq_true_iff.1 hcloser
  rw [List.isEmpty_iff.1 hnames,
    PlacedTag.nesting?_nil_of_isClosing (Bool.and_eq_true_iff.1 hcloses).1] at h
  cases h

namespace Opening

variable {file : String} {limits : Thresholds} {before tags : List PlacedTag}
  {names names' : List Text} {p : PlacedTag}

/-- A tag that leaves a function open does not change what becomes of it. -/
theorem record?_cons (h : p.nesting? names = some names') (o : Opening) :
    o.record? file limits before (p :: tags) names =
      ({ o with sketch := o.sketch.meeting names p } : Opening).record? file limits (before ++ [p])
        tags names' := by
  rw [record?, record?, enclosure?_cons_of_nesting h, Option.bind_map]
  congr 1
  funext e
  have hsketch : Sketch.through names (p :: (e.inner ++ [e.closer])) o.sketch =
      Sketch.through names' (e.inner ++ [e.closer]) (o.sketch.meeting names p) := by
    rw [Sketch.through, h]
  simp only [Function.comp_apply, Enclosure.behind, List.cons_append, hsketch, List.append_assoc,
    List.nil_append]

theorem record?_of_closesFunction (h : p.closesFunction = true) (o : Opening) :
    o.record? file limits before (p :: tags) [] =
      (o.sketch.hearing [] p.tag.textBefore).finish file o.line
        (ClonePrint.sourceLine (unitBreaks? before) p.breaks) limits := by
  have hclosing := (Bool.and_eq_true_iff.1 h).1
  have hsketch : Sketch.through [] [p] o.sketch = o.sketch.hearing [] p.tag.textBefore := by
    rw [Sketch.through, PlacedTag.nesting?_nil_of_isClosing hclosing]
    exact if_pos hclosing
  have hfound : enclosure? [] (p :: tags) = some ⟨[], p, tags⟩ := if_pos (by rw [h]; rfl)
  rw [record?, hfound, Option.bind_some, List.nil_append, hsketch, List.append_nil]

theorem awaited_cons (h : p.nesting? names = some names') (os : List Opening) :
    awaited file limits before (p :: tags) names os =
      awaited file limits (before ++ [p]) tags names' (meet p names os) := by
  induction os generalizing names names' with
  | nil => rfl
  | cons o outer ih =>
      rw [awaited, meet, awaited, ih (PlacedTag.nesting?_append h [o.name])]
      by_cases hfunction : o.isFunction = true
      · have hsame : ({ o with sketch := o.sketch.meeting names p } : Opening).isFunction = true :=
          hfunction
        rw [if_pos hfunction, if_pos hfunction, record?_cons h, if_pos hsame]
      · rw [if_neg hfunction, if_neg hfunction, if_neg hfunction]

/-- A closing tag that fits nothing that is open ends the wait for every function. -/
theorem awaited_of_stray {name : Text} (hclosing : p.tag.isClosing = true)
    (hname : p.tag.bareName ≠ name) (more : List Text) (os : List Opening) :
    awaited file limits before (p :: tags) (name :: more) os = [] := by
  induction os generalizing more with
  | nil => rfl
  | cons o outer ih =>
      have hnesting : p.nesting? (name :: more) = none := by
        rw [PlacedTag.nesting?, if_pos hclosing]
        exact if_neg hname
      have hnone : o.record? file limits before (p :: tags) (name :: more) = none := by
        rw [record?, enclosure?, if_neg (by simp), hnesting]
        rfl
      rw [awaited, hnone, List.cons_append, ih]
      split <;> rfl

theorem nesting?_of_fits {top : Opening} (hclosing : p.tag.isClosing = true)
    (hname : p.tag.bareName = top.name) : p.nesting? [top.name] = some [] := by
  rw [PlacedTag.nesting?, if_pos hclosing]
  exact if_pos hname

theorem awaited_of_completed {top : Opening} (hclosing : p.tag.isClosing = true)
    (hname : p.tag.bareName = top.name) (hfunction : top.isFunction = true)
    (outer : List Opening) :
    awaited file limits before (p :: tags) [] (top :: outer) =
      ((top.sketch.hearing [] p.tag.textBefore).finish file top.line
        (ClonePrint.sourceLine (unitBreaks? before) p.breaks) limits).toList ++
      awaited file limits (before ++ [p]) tags []
        (sketching (·.push Placeholder.nested.text) outer) := by
  have hcloses : p.closesFunction = true := by
    rw [PlacedTag.closesFunction, hclosing, Bool.true_and]
    exact decide_eq_true (hname.trans (of_decide_eq_true hfunction))
  rw [awaited, if_pos hfunction, record?_of_closesFunction hcloses, List.nil_append,
    awaited_cons (nesting?_of_fits hclosing hname), meet_eq_push hclosing hfunction]

theorem awaited_of_left {top : Opening} (hclosing : p.tag.isClosing = true)
    (hname : p.tag.bareName = top.name) (hother : top.isFunction = false)
    (outer : List Opening) :
    awaited file limits before (p :: tags) [] (top :: outer) =
      awaited file limits (before ++ [p]) tags [] (meet p [top.name] outer) := by
  rw [awaited, hother, if_neg Bool.false_ne_true, List.nil_append, List.nil_append,
    awaited_cons (nesting?_of_fits hclosing hname)]

/-- The innermost element is the one that has to be closed first. -/
theorem awaited_of_mismatch {top : Opening} (hclosing : p.tag.isClosing = true)
    (hname : p.tag.bareName ≠ top.name) (outer : List Opening) :
    awaited file limits before (p :: tags) [] (top :: outer) = [] := by
  rw [awaited, List.nil_append, awaited_of_stray hclosing hname, List.append_nil]
  split
  · rename_i hfunction
    have hcloses : p.closesFunction = false := by
      rw [PlacedTag.closesFunction, hclosing, Bool.true_and]
      exact decide_eq_false fun heq => hname (heq.trans (of_decide_eq_true hfunction).symm)
    rw [record?, enclosure?, hcloses, Bool.and_false, if_neg Bool.false_ne_true,
      PlacedTag.nesting?_nil_of_isClosing hclosing]
    rfl
  · rfl

end Opening

def Completion.recordsOf (file : String) (limits : Thresholds) (done : List Completion) :
    List Fingerprint :=
  done.flatMap fun c => (c.record? file limits).toList

theorem recordsOf_completions_cons {file : String} {limits : Thresholds}
    {before tags : List PlacedTag} {p : PlacedTag} (h : p.opensFunction = false) :
    Completion.recordsOf file limits (completions before (p :: tags)) =
      Completion.recordsOf file limits (completions (before ++ [p]) tags) := by
  rw [completions, h, if_neg Bool.false_ne_true, List.nil_append]

theorem recordsOf_completions_of_opensFunction {file : String} {limits : Thresholds}
    {before tags : List PlacedTag} {p : PlacedTag} (h : p.opensFunction = true) :
    Completion.recordsOf file limits (completions before (p :: tags)) =
      (Opening.record? file limits (before ++ [p]) tags []
        ⟨"function".toList, sourceLine (unitBreaks? before) p.breaks, {}⟩).toList ++
      Completion.recordsOf file limits (completions (before ++ [p]) tags) := by
  rw [completions, if_pos h, Completion.recordsOf, List.flatMap_append, Opening.record?]
  refine congrArg (· ++ _) ?_
  cases enclosure? [] tags with
  | none => rfl
  | some e =>
      simp only [Option.map_some, Option.toList_some, List.flatMap_cons, List.flatMap_nil,
        List.append_nil, Option.bind_some, List.append_assoc, List.singleton_append,
        unitBreaks?_append]
      rfl

namespace Outline

variable {file : String} {limits : Thresholds} {before tags : List PlacedTag} {o : Outline}
  {p : PlacedTag}

theorem unitLine_close (file : String) (limits : Thresholds) (p : PlacedTag) (o : Outline) :
    (o.close file limits p).unitLine = o.unitLine := by
  rw [close]
  repeat' split
  all_goals rfl

theorem unitLine_enter (p : PlacedTag) (o : Outline) : (o.enter p).unitLine = o.unitLine := by
  rw [enter]
  split <;> rfl

theorem unitLine_hear (text : Text) (o : Outline) : (o.hear text).unitLine = o.unitLine := rfl

theorem unitLine_base (p : PlacedTag) (o : Outline) : (o.base p).unitLine =
    if p.tag.bareName = "unit".toList ∧ o.unitLine.isNone then some p.breaks else o.unitLine := by
  rw [base]
  split <;> rfl

theorem unitBreaks?_append_singleton (before : List PlacedTag) (p : PlacedTag) :
    unitBreaks? (before ++ [p]) =
      if p.isUnit = true ∧ (unitBreaks? before).isNone then some p.breaks
      else unitBreaks? before := by
  have hlast : unitBreaks? [p] = if p.isUnit then some p.breaks else none := by
    rw [unitBreaks?, List.find?_singleton]
    split <;> rfl
  rw [unitBreaks?_append, hlast]
  cases unitBreaks? before <;> cases p.isUnit <;> rfl

theorem unitLine_take (h : o.unitLine = unitBreaks? before) :
    (o.take file limits p).unitLine = unitBreaks? (before ++ [p]) := by
  rw [unitBreaks?_append_singleton, take, ← h]
  by_cases hclosing : p.tag.isClosing = true
  · rw [if_pos hclosing, unitLine_close, PlacedTag.isUnit, hclosing]
    rfl
  · rw [if_neg hclosing]
    by_cases hcomment : Reader.opensComment p.tag = true
    · rw [if_pos hcomment, PlacedTag.isUnit, hcomment, Bool.not_true, Bool.and_false]
      rfl
    · have hunit : p.isUnit = true ↔ p.tag.bareName = "unit".toList := by
        rw [PlacedTag.isUnit, Bool.eq_false_iff.2 hclosing, Bool.eq_false_iff.2 hcomment]
        exact decide_eq_true_iff
      rw [if_neg hcomment, unitLine_enter, unitLine_base, unitLine_hear]
      simp only [hunit]

/-- The records there are at the end, as far as they can be told now. -/
def records (file : String) (limits : Thresholds) (before tags : List PlacedTag) (o : Outline) :
    List Fingerprint :=
  o.reading.found ++ (Opening.awaited file limits before tags [] o.openings ++
    Completion.recordsOf file limits (completions before tags))

/-- A closing tag completes at most the innermost function. -/
theorem records_take_of_isClosing (h : o.unitLine = unitBreaks? before)
    (hclosing : p.tag.isClosing = true) :
    (o.take file limits p).records file limits (before ++ [p]) tags =
      o.records file limits before (p :: tags) := by
  have hopens : p.opensFunction = false := by
    rw [PlacedTag.opensFunction, hclosing]
    rfl
  obtain ⟨openings, unitLine, reading⟩ := o
  rw [records, records, recordsOf_completions_cons hopens, take, if_pos hclosing, hear, close]
  cases openings with
  | nil => rfl
  | cons top outer =>
      obtain ⟨heard, outer', hopenings, hsame⟩ : ∃ (heard : Opening) (outer' : List Opening),
          Opening.hear p.tag.textBefore (top :: outer) = heard :: outer' ∧
          heard.name = top.name := by
        rw [Opening.hear_eq_sketching, Opening.sketching]
        split <;> exact ⟨_, _, rfl, rfl⟩
      have hkind : heard.isFunction = top.isFunction := by
        rw [Opening.isFunction, Opening.isFunction, hsame]
      simp only [hopenings, hsame, hkind]
      by_cases hname : p.tag.bareName = top.name
      · rw [if_neg fun h => h hname]
        by_cases hfunction : top.isFunction = true
        · rw [Opening.hear_eq_sketching, Opening.sketching, if_pos hfunction,
            Opening.inside_cons_of_isFunction hfunction] at hopenings
          obtain ⟨rfl, rfl⟩ := List.cons.inj hopenings
          rw [if_pos hfunction, Opening.awaited_of_completed hclosing hname hfunction, ← h]
          simp only [List.append_assoc]
          rfl
        · have hother : top.isFunction = false := Bool.eq_false_iff.2 hfunction
          rw [← Opening.cons_meet_eq_hear hclosing hother] at hopenings
          obtain ⟨rfl, rfl⟩ := List.cons.inj hopenings
          rw [if_neg hfunction, Opening.awaited_of_left hclosing hname hother]
      · rw [if_pos hname, Opening.awaited_of_mismatch hclosing hname]
        rfl

theorem reading_take_of_not_isClosing (hclosing : p.tag.isClosing = false) :
    (o.take file limits p).reading = o.reading := by
  rw [take, if_neg (Bool.eq_false_iff.1 hclosing), enter, base]
  repeat' split
  all_goals rfl

theorem openings_base_hear (hclosing : p.tag.isClosing = false) :
    ((o.hear p.tag.textBefore).base p).openings = Opening.meet p [] o.openings := by
  rw [Opening.meet_eq_hear hclosing, base]
  split <;> rfl

theorem openings_take_of_passes (hclosing : p.tag.isClosing = false) (hpasses : p.passes = true) :
    (o.take file limits p).openings = Opening.meet p [] o.openings := by
  rw [take, if_neg (Bool.eq_false_iff.1 hclosing)]
  by_cases hcomment : Reader.opensComment p.tag = true
  · rw [if_pos hcomment, Opening.meet_eq_hear hclosing]
    rfl
  · have hself := (Bool.or_eq_true_iff.1 hpasses).resolve_left hcomment
    rw [if_neg hcomment, enter, if_pos (.inr hself), openings_base_hear hclosing]

/-- Outside functions only a function is opened. -/
theorem openings_take_of_opens (hclosing : p.tag.isClosing = false) (hpasses : p.passes = false) :
    (o.take file limits p).openings =
      if p.tag.bareName ≠ "function".toList ∧ o.openings.isEmpty = true then []
      else ⟨p.tag.bareName, ((o.hear p.tag.textBefore).base p).sourceLine p.breaks, {}⟩ ::
        Opening.meet p [] o.openings := by
  obtain ⟨hcomment, hself⟩ := Bool.or_eq_false_iff.1 hpasses
  rw [take, if_neg (Bool.eq_false_iff.1 hclosing), if_neg (Bool.eq_false_iff.1 hcomment), enter,
    openings_base_hear hclosing, Opening.isEmpty_meet]
  by_cases houtside : p.tag.bareName ≠ "function".toList ∧ o.openings.isEmpty = true
  · rw [if_pos (.inl houtside), if_pos houtside, openings_base_hear hclosing,
      List.isEmpty_iff.1 houtside.2]
    rfl
  · rw [if_neg (not_or.2 ⟨houtside, Bool.eq_false_iff.1 hself⟩), if_neg houtside]

theorem records_take_of_passes (hclosing : p.tag.isClosing = false) (hpasses : p.passes = true) :
    (o.take file limits p).records file limits (before ++ [p]) tags =
      o.records file limits before (p :: tags) := by
  have hopens : p.opensFunction = false := by
    rw [PlacedTag.opensFunction, hpasses, Bool.not_true, Bool.and_false, Bool.false_and]
  have hnesting : p.nesting? [] = some [] := by
    rw [PlacedTag.nesting?, if_neg (Bool.eq_false_iff.1 hclosing), if_pos hpasses]
  rw [records, records, reading_take_of_not_isClosing hclosing,
    openings_take_of_passes hclosing hpasses, Opening.awaited_cons hnesting,
    recordsOf_completions_cons hopens]

theorem records_take_of_opens (h : o.unitLine = unitBreaks? before)
    (hclosing : p.tag.isClosing = false) (hpasses : p.passes = false) :
    ((o.take file limits p).records file limits (before ++ [p]) tags).Perm
      (o.records file limits before (p :: tags)) := by
  have hopens : p.opensFunction = decide (p.tag.bareName = "function".toList) := by
    rw [PlacedTag.opensFunction, hclosing, hpasses]
    rfl
  have hnesting : p.nesting? [] = some [p.tag.bareName] := by
    rw [PlacedTag.nesting?, if_neg (Bool.eq_false_iff.1 hclosing),
      if_neg (Bool.eq_false_iff.1 hpasses)]
  rw [records, records, reading_take_of_not_isClosing hclosing,
    openings_take_of_opens hclosing hpasses, Opening.awaited_cons hnesting]
  refine List.Perm.append_left _ ?_
  generalize hline : ((o.hear p.tag.textBefore).base p).sourceLine p.breaks = line
  by_cases hname : p.tag.bareName = "function".toList
  · have hfirst : line = ClonePrint.sourceLine (unitBreaks? before) p.breaks := by
      rw [← hline, base, hname, if_neg fun hunit => absurd hunit.1 (by decide), ← h]
      rfl
    have hfunction : (⟨p.tag.bareName, line, {}⟩ : Opening).isFunction = true :=
      decide_eq_true hname
    rw [if_neg fun h => h.1 hname, Opening.awaited, if_pos hfunction, hfirst, hname,
      recordsOf_completions_of_opensFunction (hopens.trans (decide_eq_true hname)),
      List.append_assoc]
    -- The function is open now, so its record moves in front of those still awaited.
    exact List.perm_append_comm_assoc ..
  · have hother : ¬(⟨p.tag.bareName, line, {}⟩ : Opening).isFunction = true :=
      fun hfunction => hname (of_decide_eq_true hfunction)
    rw [recordsOf_completions_cons (hopens.trans (decide_eq_false hname))]
    refine .of_eq (congrArg (· ++ _) ?_)
    by_cases houtside : o.openings.isEmpty = true
    · rw [if_pos ⟨hname, houtside⟩, List.isEmpty_iff.1 houtside]
      rfl
    · rw [if_neg fun h => houtside h.2, Opening.awaited, if_neg hother]
      rfl

/-- A tag does not change what the records are at the end. -/
theorem records_take (h : o.unitLine = unitBreaks? before) :
    ((o.take file limits p).records file limits (before ++ [p]) tags).Perm
      (o.records file limits before (p :: tags)) := by
  cases hclosing : p.tag.isClosing with
  | true => exact .of_eq (records_take_of_isClosing h hclosing)
  | false =>
      cases hpasses : p.passes with
      | true => exact .of_eq (records_take_of_passes hclosing hpasses)
      | false => exact records_take_of_opens h hclosing hpasses

theorem records_foldl (h : o.unitLine = unitBreaks? before) :
    (tags.foldl (take file limits) o).reading.found.Perm (o.records file limits before tags) := by
  induction tags generalizing before o with
  | nil =>
      have hnone (names : List Text) (os : List Opening) :
          Opening.awaited file limits before [] names os = [] := by
        induction os generalizing names with
        | nil => rfl
        | cons top outer ih =>
            rw [Opening.awaited, ih]
            split <;> rfl
      rw [records, hnone]
      simp [completions, Completion.recordsOf]
  | cons p tags ih => exact (ih (unitLine_take h)).trans (records_take h)

end Outline

/-- Whatever an export holds behind its XML declaration, it is read to the end, and the
records are those of the completed functions. A function is completed if and only if what
stands in it is balanced. Its record depends on nothing else but the place of the first
unit tag. -/
theorem Reading.exists_completed (file : String) (limits : Thresholds) {text : Text}
    (h : (TagStream.next ⟨text, 0⟩).1.name = "?xml".toList) :
    ∃ (reading : Reading) (done : List Completion),
      Reading.ofExport? file limits text = some (.ok reading) ∧
      (∀ c, c ∈ done ↔ c.IsIn (Reading.tags text)) ∧
      (done.map Completion.before).Nodup ∧
      reading.found.Perm (Completion.recordsOf file limits done) := by
  refine ⟨_, completions [] (Reading.tags text), Reading.ofExport?_eq h, fun c => ?_,
    nodup_completions _ _, Outline.records_foldl rfl⟩
  rw [mem_completions]
  constructor
  · rintro ⟨mid, hbefore, hin⟩
    rw [List.nil_append] at hbefore
    subst hbefore
    exact hin
  · exact fun hin => ⟨c.before, rfl, hin⟩

/-- The first function is broken by a stray tag, the second one is not. -/
def strayExport : Text :=
  ("<?xml version='1.0'?><unit><function><name>f</name></block></function>\n" ++
    "<function><name>g</name></function></unit>").toList

theorem Reading.completed_behind_stray :
    (TagStream.next ⟨strayExport, 0⟩).1.name = "?xml".toList ∧
    ∃ (reading : Reading) (done : List Completion),
      Reading.ofExport? "f.c" {} strayExport = some (.ok reading) ∧
      (∀ c, c ∈ done ↔ c.IsIn (Reading.tags strayExport)) ∧
      (done.map Completion.before).Nodup ∧
      reading.found.Perm (Completion.recordsOf "f.c" {} done) ∧
      reading.found.map Fingerprint.function = ["g"] := by
  have hfirst : (TagStream.next ⟨strayExport, 0⟩).1.name = "?xml".toList := by decide +kernel
  obtain ⟨reading, done, hread, hdone, hnodup, hperm⟩ :=
    Reading.exists_completed "f.c" {} hfirst
  have hnames : ((Reading.ofExport? "f.c" {} strayExport).map fun
      | .ok reading => reading.found.map Fingerprint.function
      | .error _ => []) = some ["g"] := by decide +kernel
  rw [hread] at hnames
  exact ⟨hfirst, reading, done, hread, hdone, hnodup, hperm, Option.some.inj hnames⟩

end ClonePrint
