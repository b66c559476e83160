import ClonePrint.Export.Reader

/-!
# What counts in the state of a reader

What a reader finds does not depend on the list of nodes it keeps. All that counts
are the elements that are open, innermost first, and for each open function the
sketch of what has been read of it. An outline is such a state. It takes the tags
that are processed one by one.
-/
namespace ClonePrint

/-- A tag and the line breaks up to its end. -/
structure PlacedTag where
  tag : Tag
  breaks : Nat
deriving Repr, DecidableEq

/-- What is unread once a tag has been processed. A comment is passed over. -/
def TagStream.beyond (tag : Tag) (s : TagStream) : TagStream :=
  if !tag.isClosing && Reader.opensComment tag && !tag.isSelfClosing then s.skipComment else s

theorem TagStream.beyond_rest_length_le (tag : Tag) (s : TagStream) :
    (s.beyond tag).rest.length ≤ s.rest.length := by
  unfold beyond
  split
  · exact skipComment_rest_length_le s
  · exact Nat.le_refl _

/-- The tags that are processed. What stands in a comment is not. -/
def TagStream.processed (s : TagStream) : List PlacedTag :=
  if _h : s.isEmpty then []
  else ⟨s.next.1, s.next.2.line⟩ :: processed (s.next.2.beyond s.next.1)
termination_by s.rest.length
decreasing_by
  exact Nat.lt_of_le_of_lt (beyond_rest_length_le _ _)
    (next_rest_length_lt (rest_ne_nil (by simpa using _h)))

namespace Reader

def take? (file : String) (limits : Thresholds) (r : Reader) (placed : PlacedTag) : Option Reader :=
  (r.takeText? placed.tag.textBefore).bind fun r =>
    if placed.tag.isClosing then
      if r.inFunction then r.close? file limits placed.tag placed.breaks else some r
    else if opensComment placed.tag then some r
    else r.open? placed.tag placed.breaks

theorem step?_eq (file : String) (limits : Thresholds) (tag : Tag) (s : TagStream) (r : Reader) :
    r.step? file limits tag s = (r.take? file limits ⟨tag, s.line⟩).map (·, s.beyond tag) := by
  unfold step? take? TagStream.beyond
  cases r.takeText? tag.textBefore with
  | none => rfl
  | some r =>
      simp only [Option.bind_some]
      split
      · rename_i hclosing
        split <;> simp [hclosing]
      · rename_i hclosing
        split
        · rename_i hcomment
          cases tag.isSelfClosing <;> simp [hclosing, hcomment]
        · rename_i hcomment
          simp [hclosing, hcomment]

/-- Reading an export is processing its tags one by one. -/
theorem run?_eq_foldlM (file : String) (limits : Thresholds) (s : TagStream) (r : Reader) :
    r.run? file limits s = s.processed.foldlM (take? file limits) r := by
  fun_induction run? file limits s r with
  | case1 s r hempty =>
      rw [TagStream.processed, dif_pos hempty]
      rfl
  | case2 s r hempty hstep =>
      rw [TagStream.processed, dif_neg hempty, List.foldlM_cons]
      rw [step?_eq, Option.map_eq_none_iff] at hstep
      rw [hstep]
      rfl
  | case3 s r hempty r' s' hstep ih =>
      rw [TagStream.processed, dif_neg hempty, List.foldlM_cons]
      rw [step?_eq, Option.map_eq_some_iff] at hstep
      obtain ⟨_, htake, heq⟩ := hstep
      obtain ⟨rfl, rfl⟩ := Prod.mk.inj heq
      rw [htake]
      exact ih

end Reader

/-- An open element. For a function there is also a sketch of what has been read of it. -/
structure Opening where
  name : Text
  line : Nat
  sketch : Sketch := {}
deriving Repr, DecidableEq

namespace Opening

def isFunction (o : Opening) : Bool := o.name = "function".toList

/-- Change the sketch of the innermost function. -/
def sketching (f : Sketch → Sketch) : List Opening → List Opening
  | [] => []
  | o :: outer =>
      if o.isFunction then { o with sketch := f o.sketch } :: outer else o :: sketching f outer

/-- The innermost element that is not a name. -/
def above (openings : List Opening) : Option Text :=
  (openings.map name).find? fun name => name ≠ "name".toList

/-- A run of text inside the innermost element. -/
def hear (text : Text) : List Opening → List Opening
  | [] => []
  | top :: outer =>
      if text.isEmpty then top :: outer
      else sketching (TagTree.sketchLeaf text top.name (above (top :: outer))) (top :: outer)

theorem sketching_id (openings : List Opening) : sketching id openings = openings := by
  induction openings with
  | nil => rfl
  | cons o outer ih => simp [sketching, ih]

theorem sketching_comp (f g : Sketch → Sketch) (openings : List Opening) :
    sketching g (sketching f openings) = sketching (g ∘ f) openings := by
  induction openings with
  | nil => rfl
  | cons o outer ih =>
      rw [sketching, sketching]
      split
      · rename_i hfunction
        exact if_pos hfunction
      · rename_i hother
        rw [sketching, if_neg hother, ih]

theorem map_name_sketching (f : Sketch → Sketch) (openings : List Opening) :
    (sketching f openings).map name = openings.map name := by
  induction openings with
  | nil => rfl
  | cons o outer ih =>
      rw [sketching]
      split
      · rfl
      · simp [ih]

theorem above_sketching (f : Sketch → Sketch) (openings : List Opening) :
    above (sketching f openings) = above openings := by
  rw [above, map_name_sketching, above]

end Opening

/-- The state of a reader without its tree. The open elements are listed innermost first; outside
functions none counts. -/
structure Outline where
  openings : List Opening := []
  unitLine : Option Nat := none
  reading : Reading := {}
deriving Repr, DecidableEq

namespace Outline

def sourceLine (breaks : Nat) (o : Outline) : Nat :=
  match o.unitLine with
  | some unit => breaks - unit + 1
  | none => breaks + 1

/-- Close the innermost element, or give up what is open. -/
def close (file : String) (limits : Thresholds) (placed : PlacedTag) (o : Outline) : Outline :=
  match o.openings with
  | [] => o
  | top :: outer =>
      if placed.tag.bareName ≠ top.name then
        { o with
          openings := []
          reading := { o.reading with corruptions := o.reading.corruptions + 1 } }
      else if top.isFunction then
        { o with
          openings := Opening.sketching (·.push Placeholder.nested.text) outer
          reading := { o.reading with
            found := o.reading.found ++
              (top.sketch.finish file top.line (o.sourceLine placed.breaks) limits).toList } }
      else { o with openings := outer }

/-- The first unit tag says where line one is. -/
def base (placed : PlacedTag) (o : Outline) : Outline :=
  if placed.tag.bareName = "unit".toList ∧ o.unitLine.isNone then
    { o with unitLine := some placed.breaks }
  else o

def enter (placed : PlacedTag) (o : Outline) : Outline :=
  if placed.tag.bareName ≠ "function".toList ∧ o.openings.isEmpty ∨ placed.tag.isSelfClosing then o
  else
    { o with openings := ⟨placed.tag.bareName, o.sourceLine placed.breaks, {}⟩ :: o.openings }

def hear (text : Text) (o : Outline) : Outline :=
  { o with openings := Opening.hear text o.openings }

def take (file : String) (limits : Thresholds) (o : Outline) (placed : PlacedTag) : Outline :=
  if placed.tag.isClosing then (o.hear placed.tag.textBefore).close file limits placed
  else if Reader.opensComment placed.tag then o.hear placed.tag.textBefore
  else ((o.hear placed.tag.textBefore).base placed).enter placed

end Outline

end ClonePrint
