import ClonePrint.Proofs.Scanning
import ClonePrint.Proofs.Standing

/-!
# Reading back a document

What stands in an element adds its pieces to the sketch of the innermost open function
and its functions to those that have been found. So an element that is closed leaves the
outline as it was but for these, and a whole document leaves its functions in the order
in which they are closed.
-/
namespace ClonePrint

namespace Content

def Piece.put (s : Sketch) (p : Piece) : Sketch := ⟨s.body ++ p.token, p.ownName?.or s.name⟩

def pour (pieces : List Piece) (s : Sketch) : Sketch := pieces.foldl Piece.put s

theorem pour_append (front back : List Piece) : pour (front ++ back) = pour back ∘ pour front :=
  funext fun _ => List.foldl_append

theorem pour_eq (pieces : List Piece) (s : Sketch) : pour pieces s =
    ⟨s.body ++ pieces.flatMap Piece.token,
      (pieces.filterMap Piece.ownName?).getLast?.or s.name⟩ := by
  induction pieces generalizing s with
  | nil => simp [pour]
  | cons p pieces ih =>
      rw [pour, List.foldl_cons, ← pour, ih, Piece.put, List.flatMap_cons, List.append_assoc]
      cases hname : p.ownName? with
      | none => simp [hname]
      | some name =>
          rw [List.filterMap_cons_some hname, List.getLast?_cons]
          cases (pieces.filterMap Piece.ownName?).getLast? <;> rfl

theorem put_run (tag above text : Text) (s : Sketch) :
    Piece.put s (.run tag above text) = TagTree.sketchLeaf text tag (some above) s := by
  have hfunction : "function".toList ≠ "type".toList ∧ "function".toList ≠ "call".toList := by
    decide
  rw [TagTree.sketchLeaf, Piece.put, Piece.token, Piece.ownName?]
  simp only [Option.some.injEq]
  by_cases htag : tag = "name".toList
  · rw [if_neg (not_not_intro htag)]
    by_cases htype : above = "type".toList
    · subst htype
      rw [if_pos (.inr rfl), if_neg fun h => hfunction.1 h.2.symm, if_pos rfl]
      rfl
    · rw [if_neg (not_or.2 ⟨not_not_intro htag, htype⟩), if_neg htype]
      by_cases hcall : above = "call".toList
      · subst hcall
        rw [if_pos rfl, if_neg fun h => hfunction.2 h.2.symm, if_pos rfl]
        rfl
      · rw [if_neg hcall, if_neg hcall]
        by_cases hown : above = "function".toList
        · rw [if_pos hown, if_pos ⟨htag, hown⟩, if_pos hown]
          rfl
        · rw [if_neg hown, if_neg fun h => hown h.2, if_neg hown]
          rfl
  · rw [if_pos (.inl htag), if_neg fun h => htag h.1, if_pos htag]
    rfl

end Content

namespace Opening

/-- The innermost open element has the one name, and the innermost one that is not a name
has the other, unless none is open. -/
def IsAt (tag around : Text) (os : List Opening) : Prop :=
  ∀ top ∈ (os.map name).head?, top = tag ∧ above os = some around

variable {tag around : Text} {os : List Opening}

theorem isAt_nil : IsAt tag around [] := by
  rintro _ ⟨⟩

theorem IsAt.sketching (h : IsAt tag around os) (f : Sketch → Sketch) :
    IsAt tag around (sketching f os) := by
  rw [IsAt, map_name_sketching, above_sketching]
  exact h

theorem isEmpty_sketching (f : Sketch → Sketch) (os : List Opening) :
    (Opening.sketching f os).isEmpty = os.isEmpty := by
  cases os with
  | nil => rfl
  | cons top outer =>
      rw [Opening.sketching]
      split <;> rfl

/-- A run of text is a piece or nothing. -/
theorem IsAt.hear_eq (h : IsAt tag around os) (text : Text) :
    hear (Text.stripBlanks text) os =
      Opening.sketching (Content.pour (Content.runs tag around text)) os := by
  cases os with
  | nil => rfl
  | cons top outer =>
      obtain ⟨htop, habove⟩ := h top.name rfl
      rw [hear, Content.runs, htop, habove]
      split
      · exact (sketching_id (top :: outer)).symm
      · refine congrArg (Opening.sketching · (top :: outer)) (funext fun s => ?_)
        exact (Content.put_run tag around _ s).symm

/-- An element that is opened is what stands around its content. -/
theorem IsAt.cons (h : IsAt tag around os) {o : Opening}
    (hground : os = [] → o.isFunction = true) :
    IsAt o.name (Content.around o.name around) (o :: os) := by
  rintro _ ⟨⟩
  refine ⟨rfl, ?_⟩
  rw [above, List.map_cons, List.find?_cons, Content.around]
  by_cases hname : o.name = "name".toList
  · cases os with
    | nil =>
        have hfunction := of_decide_eq_true (hground rfl)
        exact absurd (hfunction.symm.trans hname) (by decide)
    | cons top outer =>
        rw [decide_eq_false (not_not_intro hname), if_pos hname, ← (h top.name rfl).2]
        rfl
  · rw [decide_eq_true hname, if_neg hname]

end Opening

theorem FunctionElement.recordsOf_append (file : String) (limits : Thresholds)
    (front back : List FunctionElement) :
    FunctionElement.recordsOf file limits (front ++ back) =
      FunctionElement.recordsOf file limits front ++ FunctionElement.recordsOf file limits back := by
  rw [FunctionElement.recordsOf, List.filter_append, List.map_append, FunctionElement.recordsOf, FunctionElement.recordsOf]

theorem Placeholder.not_isBlank (p : Placeholder) : ∀ x ∈ p.text, Text.isBlank x = false :=
  Text.forall_mem_of_all (by cases p <;> decide)

theorem Content.not_isBlank_of_mem_runs {tag around text : Text} {p : Content.Piece}
    (h : p ∈ Content.runs tag around text) : ∀ x ∈ p.token, Text.isBlank x = false := by
  rw [Content.runs] at h
  split at h
  · cases h
  · obtain rfl := List.mem_singleton.1 h
    rw [Content.Piece.token]
    repeat' split
    · intro x hx
      simpa using (List.mem_filter.1 hx).2
    all_goals exact Placeholder.not_isBlank _

/-- No piece leaves a blank in a body. -/
theorem Content.not_isBlank_of_mem_pieces {c : Content} {tag around : Text} {p : Content.Piece}
    (h : p ∈ c.pieces tag around) : ∀ x ∈ p.token, Text.isBlank x = false := by
  induction c generalizing tag around with
  | last text => exact Content.not_isBlank_of_mem_runs h
  | element text name attributes inner rest ihInner ihRest =>
      obtain h | h := List.mem_append.1 h
      · exact Content.not_isBlank_of_mem_runs h
      · obtain h | h := List.mem_append.1 h
        · split at h
          · obtain rfl := List.mem_singleton.1 h
            exact Placeholder.not_isBlank .nested
          · exact ihInner h
        · exact ihRest h
  | empty text name attributes rest ih =>
      obtain h | h := List.mem_append.1 h
      · exact Content.not_isBlank_of_mem_runs h
      · exact ih h
  | comment text attributes inner rest ihInner ihRest =>
      obtain h | h := List.mem_append.1 h
      · exact Content.not_isBlank_of_mem_runs h
      · exact ihRest h

/-- The sketch of a function is finished as the function says. -/
theorem FunctionElement.finish_pour (file : String) (limits : Thresholds) (f : FunctionElement)
    (h : f.firstLine ≤ f.lastLine) :
    ((Content.pour f.pieces {}).finish file f.firstLine f.lastLine limits).toList =
      FunctionElement.recordsOf file limits [f] := by
  have hbody : (Content.pour f.pieces {}).canonicalBody = f.body := by
    rw [Content.pour_eq, Sketch.canonicalBody, List.nil_append, FunctionElement.body]
    refine List.filter_eq_self.2 fun x hx => ?_
    obtain ⟨p, hp, hx⟩ := List.mem_flatMap.1 hx
    rw [Content.not_isBlank_of_mem_pieces hp x hx]
    rfl
  have hname : (Content.pour f.pieces {}).nameText = f.name := by
    rw [Content.pour_eq, Sketch.nameText, Option.or_none, FunctionElement.name]
  have hadmits : limits.admits f.body f.firstLine f.lastLine = f.isLarge limits := by
    rw [Thresholds.admits, decide_eq_true h, Bool.and_true, FunctionElement.isLarge]
  rw [Sketch.finish, hbody, hname, hadmits, FunctionElement.recordsOf, List.filter_cons, List.filter_nil]
  split
  · rw [Fingerprint.ofLines, Nat.min_eq_left h]
    rfl
  · rfl

namespace Outline

/-- Records are found, and the sketch of the innermost function changes. -/
def gain (found : List Fingerprint) (f : Sketch → Sketch) (o : Outline) : Outline :=
  { o with
    openings := Opening.sketching f o.openings
    reading := { o.reading with found := o.reading.found ++ found } }

theorem gain_gain (found found' : List Fingerprint) (f g : Sketch → Sketch) (o : Outline) :
    (o.gain found f).gain found' g = o.gain (found ++ found') (g ∘ f) := by
  rw [gain, gain, gain, Opening.sketching_comp, List.append_assoc]

theorem gain_nil (f : Sketch → Sketch) (o : Outline) :
    o.gain [] f = { o with openings := Opening.sketching f o.openings } := by
  rw [gain, List.append_nil]

theorem gain_of_nil {o : Outline} (h : o.openings = []) (f : Sketch → Sketch) :
    o.gain [] f = o := by
  obtain ⟨openings, unitLine, reading⟩ := o
  obtain rfl : openings = [] := h
  rw [gain, List.append_nil]
  rfl

def closing (name : Text) (breaks : Nat) : PlacedTag := ⟨⟨'/' :: name, [], []⟩, breaks⟩

section

variable {file : String} {limits : Thresholds} {o : Outline} {unit : Nat} {tag around : Text}

theorem hear_eq_gain (h : Opening.IsAt tag around o.openings) (text : Text) :
    o.hear (Text.stripBlanks text) =
      o.gain [] (Content.pour (Content.runs tag around text)) := by
  rw [hear, gain, h.hear_eq, List.append_nil]

/-- Only the first unit tag counts. -/
theorem base_of_some (o : Outline) (h : o.unitLine = some unit) (placed : PlacedTag) :
    o.base placed = o := by
  rw [Outline.base, h]
  exact if_neg fun hboth => Bool.noConfusion hboth.2

theorem sourceLine_of_some (o : Outline) (h : o.unitLine = some unit) (t : Text) :
    o.sourceLine (unit + Text.lineBreaks t) = 1 + Text.lineBreaks t := by
  rw [sourceLine, h]
  exact (congrArg (· + 1) (Nat.add_sub_cancel_left ..)).trans (Nat.add_comm ..)

theorem take_empty (hunit : o.unitLine = some unit) (h : Opening.IsAt tag around o.openings)
    {name : Text} (hname : isElementName name = true) (text attributes : Text) (breaks : Nat) :
    o.take file limits ⟨Tag.ofEmpty name (Text.stripBlanks text) attributes, breaks⟩ =
      o.gain [] (Content.pour (Content.runs tag around text)) := by
  have htext : (Tag.ofEmpty name (Text.stripBlanks text) attributes).textBefore =
      Text.stripBlanks text := by
    rw [Tag.ofEmpty]
    split <;> rfl
  rw [take, isClosing_ofEmpty hname, opensComment_ofEmpty hname, if_neg Bool.false_ne_true,
    if_neg Bool.false_ne_true, htext, hear_eq_gain h, base_of_some (o.gain [] _) hunit, enter,
    if_pos (.inr (isSelfClosing_ofEmpty name _ attributes))]

theorem take_comment (h : Opening.IsAt tag around o.openings) (text attributes : Text)
    (breaks : Nat) :
    o.take file limits ⟨⟨"comment".toList, Text.stripBlanks text, attributes⟩, breaks⟩ =
      o.gain [] (Content.pour (Content.runs tag around text)) := by
  have hopen : (⟨"comment".toList, Text.stripBlanks text, attributes⟩ : Tag).isClosing = false :=
    rfl
  have hcomment : Reader.opensComment ⟨"comment".toList, Text.stripBlanks text, attributes⟩ = true :=
    rfl
  rw [take, hopen, hcomment, if_neg Bool.false_ne_true, if_pos rfl, hear_eq_gain h]

theorem take_element (hunit : o.unitLine = some unit) (h : Opening.IsAt tag around o.openings)
    {name attributes : Text} (hname : isElementName name = true) (hplain : isPlain attributes = true)
    (text opened : Text) :
    o.take file limits ⟨⟨name, Text.stripBlanks text, Text.trim attributes⟩,
        unit + Text.lineBreaks opened⟩ =
      if name ≠ "function".toList ∧ o.openings = [] then o
      else
        { o with
          openings := ⟨name, 1 + Text.lineBreaks opened, {}⟩ ::
            Opening.sketching (Content.pour (Content.runs tag around text)) o.openings } := by
  rw [take, isClosing_of_isElementName hname, opensComment_of_isElementName hname,
    if_neg Bool.false_ne_true, if_neg Bool.false_ne_true, hear_eq_gain h,
    base_of_some (o.gain [] _) hunit, enter,
    isSelfClosing_of_isElementName hname _ _ hplain, bareName_of_isElementName hname]
  simp only [sourceLine_of_some (o.gain [] _) hunit]
  by_cases houtside : name ≠ "function".toList ∧ o.openings = []
  · rw [if_pos houtside, if_pos (.inl ⟨houtside.1, by rw [gain, houtside.2]; rfl⟩),
      gain_of_nil houtside.2]
  · rw [if_neg houtside, if_neg]
    · rw [gain_nil]
    · rintro (⟨hother, hempty⟩ | hself)
      · rw [gain, Opening.isEmpty_sketching, List.isEmpty_iff] at hempty
        exact houtside ⟨hother, hempty⟩
      · exact Bool.noConfusion hself

theorem close_of_nil (h : o.openings = []) (placed : PlacedTag) : o.close file limits placed = o := by
  rw [close, h]

/-- A function that is closed leaves its record and a placeholder. -/
theorem close_of_isFunction {top : Opening} {placed : PlacedTag} (hfunction : top.isFunction = true)
    (hname : placed.tag.bareName = top.name) (o : Outline) (os : List Opening)
    (found : List Fingerprint) (f : Sketch → Sketch) :
    (({ o with openings := top :: os } : Outline).gain found f).close file limits placed =
      ({ o with openings := os } : Outline).gain
        (found ++ ((f top.sketch).finish file top.line (o.sourceLine placed.breaks) limits).toList)
        (Content.pour [.nested]) := by
  have hsame : ({ top with sketch := f top.sketch } : Opening).isFunction = true := hfunction
  rw [gain, close, Opening.sketching, if_pos hfunction]
  simp only
  rw [if_neg (not_not_intro hname), if_pos hsame, gain, ← List.append_assoc]
  rfl

/-- Any other element that is closed leaves what stands in it. -/
theorem close_of_not_isFunction {top : Opening} {placed : PlacedTag}
    (hfunction : top.isFunction = false) (hname : placed.tag.bareName = top.name) (o : Outline)
    (os : List Opening) (found : List Fingerprint) (f : Sketch → Sketch) :
    (({ o with openings := top :: os } : Outline).gain found f).close file limits placed =
      ({ o with openings := os } : Outline).gain found f := by
  rw [gain, close, Opening.sketching, if_neg (Bool.eq_false_iff.1 hfunction)]
  simp only
  rw [if_neg (not_not_intro hname), if_neg (Bool.eq_false_iff.1 hfunction)]
  rfl

/-- An element that is opened and closed leaves its pieces and its functions. -/
theorem close_element (hunit : o.unitLine = some unit) (h : Opening.IsAt tag around o.openings)
    {name attributes : Text} (hname : isElementName name = true) (hplain : isPlain attributes = true)
    (text opened : Text) (inner : Content) (found : List Fingerprint) :
    let o₁ := o.take file limits ⟨⟨name, Text.stripBlanks text, Text.trim attributes⟩,
        unit + Text.lineBreaks opened⟩
    let closed := opened ++ (inner.render ++ endTag name)
    (o₁.gain found (Content.pour (inner.pieces name (Content.around name around)))).close file limits
        (closing name (unit + Text.lineBreaks closed)) =
      o.gain
        (found ++ FunctionElement.recordsOf file limits
          (if name = "function".toList then [⟨inner, opened, closed⟩] else []))
        (Content.pour (Content.runs tag around text ++
          if name = "function".toList then [.nested]
          else inner.pieces name (Content.around name around))) := by
  intro o₁ closed
  have htaken : o₁ = _ := take_element hunit h hname hplain text opened
  rw [htaken, Content.pour_append, ← List.nil_append (found ++ _), ← gain_gain]
  by_cases houtside : name ≠ "function".toList ∧ o.openings = []
  · rw [if_pos houtside, if_neg houtside.1, if_neg houtside.1, gain_of_nil houtside.2, FunctionElement.recordsOf,
      List.filter_nil, List.map_nil, List.append_nil]
    exact close_of_nil (by rw [gain, houtside.2]; rfl) _
  · have hbare (breaks : Nat) : (closing name breaks).tag.bareName = name :=
      bareName_closing hname [] []
    rw [if_neg houtside]
    by_cases hfunction : name = "function".toList
    · have hlines : opened.lineBreaks ≤ closed.lineBreaks := by
        rw [Text.lineBreaks_append]
        exact Nat.le_add_right ..
      have hrecord := FunctionElement.finish_pour file limits ⟨inner, opened, closed⟩
        (Nat.add_le_add_left hlines 1)
      have hpieces : inner.pieces name (Content.around name around) =
          FunctionElement.pieces ⟨inner, opened, closed⟩ := by
        rw [Content.around, hfunction, if_neg (by decide), FunctionElement.pieces]
      rw [close_of_isFunction (decide_eq_true hfunction) (hbare _), closing,
        sourceLine_of_some o hunit, if_pos hfunction, if_pos hfunction, ← hrecord, hpieces, gain_nil]
      rfl
    · rw [close_of_not_isFunction (decide_eq_false hfunction) (hbare _), if_neg hfunction,
        if_neg hfunction, gain_nil, FunctionElement.recordsOf, List.filter_nil, List.map_nil, List.append_nil]

variable (file limits) in
theorem isAt_take_element (hunit : o.unitLine = some unit)
    (h : Opening.IsAt tag around o.openings) {name attributes : Text}
    (hname : isElementName name = true) (hplain : isPlain attributes = true) (text opened : Text) :
    let o₁ := o.take file limits ⟨⟨name, Text.stripBlanks text, Text.trim attributes⟩,
      unit + Text.lineBreaks opened⟩
    o₁.unitLine = some unit ∧ Opening.IsAt name (Content.around name around) o₁.openings := by
  intro o₁
  have htaken : o₁ = _ := take_element hunit h hname hplain text opened
  rw [htaken]
  by_cases houtside : name ≠ "function".toList ∧ o.openings = []
  · rw [if_pos houtside]
    refine ⟨hunit, ?_⟩
    rw [houtside.2]
    exact Opening.isAt_nil
  · rw [if_neg houtside]
    refine ⟨hunit, (h.sketching _).cons fun hnone => ?_⟩
    rw [← List.isEmpty_iff, Opening.isEmpty_sketching, List.isEmpty_iff] at hnone
    exact decide_eq_true (Decidable.byContradiction fun hother => houtside ⟨hother, hnone⟩)

/-- What stands in an element leaves its pieces and its functions. -/
theorem foldl_tags {c : Content} (hwell : c.isWellFormed isPlain = true)
    (hunit : o.unitLine = some unit) (h : Opening.IsAt tag around o.openings) (front : Text) :
    (c.tags tag unit front).foldl (take file limits) o =
      (o.gain (FunctionElement.recordsOf file limits (c.functions front)) (Content.pour (c.pieces tag around))).close
        file limits (closing tag (unit + Text.lineBreaks (front ++ (c.render ++ endTag tag)))) := by
  -- On the content, from any outline that is at the element: the tags of an element are those
  -- of its content, and what follows starts from what the element has left.
  induction c generalizing o tag around front with
  | last text =>
      have hheard : o.take file limits ⟨⟨'/' :: tag, Text.stripBlanks text, []⟩,
            unit + Text.lineBreaks (front ++ (Text.escape text ++ endTag tag))⟩ =
          (o.hear (Text.stripBlanks text)).close file limits
            (closing tag (unit + Text.lineBreaks (front ++ (Text.escape text ++ endTag tag)))) := rfl
      rw [Content.tags, List.foldl_cons, List.foldl_nil, hheard, hear_eq_gain h]
      rfl
  | element text name attributes inner rest ihInner ihRest =>
      simp only [Content.isWellFormed, Bool.and_eq_true] at hwell
      obtain ⟨⟨⟨⟨hname, -⟩, hplain⟩, hinner⟩, hrest⟩ := hwell
      rw [Content.tags, List.foldl_cons, List.foldl_append]
      obtain ⟨hunit₁, hat₁⟩ := isAt_take_element file limits hunit h hname hplain text
        (front ++ (Text.escape text ++ startTag name attributes))
      rw [ihInner hinner hunit₁ hat₁, close_element hunit h hname hplain,
        ihRest (o := o.gain _ _) hrest hunit (h.sketching _), gain_gain, ← Content.pour_append,
        List.append_assoc, ← FunctionElement.recordsOf_append, ← FunctionElement.recordsOf_append]
      simp only [Content.render, Content.functions, Content.pieces, List.append_assoc]
  | empty text name attributes rest ih =>
      simp only [Content.isWellFormed, Bool.and_eq_true] at hwell
      obtain ⟨⟨⟨⟨hname, -⟩, -⟩, -⟩, hrest⟩ := hwell
      rw [Content.tags, List.foldl_cons, take_empty hunit h hname,
        ih (o := o.gain [] _) hrest hunit (h.sketching _), gain_gain, ← Content.pour_append]
      simp only [Content.render, List.append_assoc]
      rfl
  | comment text attributes inner rest ihInner ihRest =>
      simp only [Content.isWellFormed, Bool.and_eq_true] at hwell
      rw [Content.tags, List.foldl_cons, take_comment h,
        ihRest (o := o.gain [] _) hwell.2 hunit (h.sketching _), gain_gain, ← Content.pour_append]
      simp only [Content.render, List.append_assoc]
      rfl

end

end Outline

theorem Outline.take_unit {file : String} {limits : Thresholds} (text attributes : Text)
    (breaks : Nat) :
    ({} : Outline).take file limits ⟨⟨"unit".toList, text, attributes⟩, breaks⟩ =
      { unitLine := some breaks } := by
  have hname : isElementName "unit".toList = true := by decide
  have hbase : (({} : Outline).hear text).base ⟨⟨"unit".toList, text, attributes⟩, breaks⟩ =
      { unitLine := some breaks } := by
    rw [base, bareName_of_isElementName hname, if_pos ⟨rfl, rfl⟩]
    rfl
  rw [take, isClosing_of_isElementName hname, opensComment_of_isElementName hname,
    if_neg Bool.false_ne_true, if_neg Bool.false_ne_true, hbase, enter,
    bareName_of_isElementName hname, if_pos (.inl ⟨by decide, rfl⟩)]

namespace Document

variable {d : Document}

/-- Behind the declaration there are the tag of the unit and those of its content. -/
theorem tags_render (h : d.isWellFormed isPlain = true) :
    (TagStream.next ⟨d.render, 0⟩).1.name = "?xml".toList ∧
      ∃ text breaks, Reading.tags d.render =
        ⟨⟨"unit".toList, text, Text.trim d.attributes⟩, breaks⟩ ::
          d.content.tags "unit".toList breaks [] := by
  simp only [isWellFormed, Bool.and_eq_true] at h
  obtain ⟨⟨⟨⟨⟨hdeclaration, hgap⟩, hattributes⟩, -⟩, hcontent⟩, htail⟩ := h
  have hunit : isElementName "unit".toList = true := by decide
  have hopening : '<' ∉ d.gap := fun hmem =>
    absurd (List.all_eq_true.1 hgap '<' hmem) (by decide)
  have hfirst : TagStream.next ⟨d.render, 0⟩ = _ :=
    TagStream.next_startTag List.not_mem_nil (Text.forall_mem_of_all (by decide)) hdeclaration _ 0
  rw [Reading.tags, hfirst, TagStream.processed_startTag hopening
    (fun c hc => (plain_of_isElementName hunit hc).1) hattributes]
  generalize 0 + Text.lineBreaks _ + Text.lineBreaks _ = breaks
  have hrendered := Content.processed_render hcontent hunit breaks [] d.tail
  have hend : TagStream.processed ⟨d.tail, breaks + Text.lineBreaks
      ([] ++ (d.content.render ++ endTag "unit".toList))⟩ = [] :=
    TagStream.processed_of_isEmpty htail
  rw [hend, List.append_nil] at hrendered
  refine ⟨rfl, Text.decodeEntities (Text.stripBlanks d.gap), breaks, ?_⟩
  simp only
  rw [TagStream.beyond_of_not_opensComment (opensComment_of_isElementName hunit _ _)]
  exact congrArg _ hrendered

end Document

/-- A well-formed document is read without a corruption, and its records are those of its
functions that are large enough, in the order in which they are closed. -/
theorem Document.ofExport?_render (file : String) (limits : Thresholds) {d : Document}
    (h : d.isWellFormed isPlain = true) :
    Reading.ofExport? file limits d.render =
      some (.ok ⟨FunctionElement.recordsOf file limits d.functions, 0⟩) := by
  obtain ⟨hfirst, text, breaks, htags⟩ := tags_render h
  simp only [isWellFormed, Bool.and_eq_true] at h
  obtain ⟨⟨-, hcontent⟩, -⟩ := h
  have hat : Opening.IsAt "unit".toList [] [] := Opening.isAt_nil
  rw [Reading.ofExport?_eq hfirst, htags, List.foldl_cons, Outline.take_unit,
    Outline.foldl_tags hcontent rfl hat, Outline.close_of_nil rfl]
  rfl

/-- A function with a comment, an empty element and a function in it. -/
def nestedDocument : Document where
  declaration := " version='1.0'".toList
  gap := "\n".toList
  attributes := " language='C'".toList
  content :=
    .element [] "function".toList []
      (.element [] "name".toList [] (.last "f".toList)
        (.comment "( a < ".toList " type='line'".toList
          (.element "// ".toList "name".toList [] (.last "c".toList) (.last []))
          (.element "\n".toList "function".toList []
            (.element [] "name".toList [] (.last "g".toList) (.last "(\n)".toList))
            (.empty [] "break".toList [] (.last "; )".toList)))))
      (.last "\n".toList)
  tail := "\n".toList

theorem Document.ofExport?_nestedDocument :
    nestedDocument.isWellFormed isPlain = true ∧
    Reading.ofExport? "f.c" {} nestedDocument.render =
      some (.ok ⟨FunctionElement.recordsOf "f.c" {} nestedDocument.functions, 0⟩) ∧
    nestedDocument.functions.map (fun f => (f.name, f.body, f.firstLine, f.lastLine)) =
      [("g".toList, "funcname()".toList, 2, 3),
        ("f".toList, "funcname(a<funcdef;)".toList, 1, 3)] := by
  have h : nestedDocument.isWellFormed isPlain = true := by decide
  exact ⟨h, ofExport?_render "f.c" {} h, by decide⟩

/-- Only a blank stands between the slash and the closing bracket. -/
def slashedDocument : Document where
  declaration := " version='1.0'".toList
  gap := []
  attributes := []
  content :=
    .element [] "function".toList []
      (.element [] "name".toList " x/ ".toList (.last "f".toList) (.last [])) (.last [])
  tail := []

/-- It does not suffice that no attributes end in a slash. With blanks behind it a slash
still closes the element, and its closing tag does not fit. -/
theorem Document.exists_render_misread :
    ¬∀ (file : String) (limits : Thresholds) (d : Document), d.isWellFormed isUnslashed = true →
      Reading.ofExport? file limits d.render =
        some (.ok ⟨FunctionElement.recordsOf file limits d.functions, 0⟩) := by
  intro h
  have hread : (Reading.ofExport? "f.c" {} slashedDocument.render).map (·.toOption.map
      Reading.corruptions) = some (some 1) := by decide +kernel
  rw [h "f.c" {} slashedDocument (by decide)] at hread
  cases hread

end ClonePrint
