import ClonePrint.Proofs.Arena
import ClonePrint.Proofs.Outline

/-!
# A reader and its outline

Every reader stands for an outline. Its open elements stand in the tree one inside
the other, each with only complete children behind it, so the subtree of an open
function is the rest of the list. Each tag takes the reader and its outline to
states that belong together. A reader therefore never runs into a position outside
its tree.
-/
namespace ClonePrint

namespace TagTree

/-- The node that the innermost element stands for. -/
def innermost (ids : List Nat) : Nat := ids.headD root

/-- The open elements stand in the tree at the given positions, innermost first. Up to
`stop` the innermost one has only complete children, and behind them those in `inner`. -/
inductive Stands (t : TagTree) : List Nat → Nat → List Nat → List Opening → Prop
  | nil {inner : List Nat} {stop : Nat} (positive : 0 < stop) : Stands t inner stop [] []
  | cons {inner closed ids : List Nat} {stop id : Nat} {o : Opening} {outer : List Opening}
      {node : TagNode} (found : t.node? id = some node) (tag : node.tag = o.name)
      (line : node.line = o.line) (text : node.text = none)
      (parent : node.parent = some (innermost ids)) (children : node.children = closed ++ inner)
      (tile : Tile t (id + 1) stop closed) (rest : Stands t [id] id ids outer) :
      Stands t inner stop (id :: ids) (o :: outer)

section
variable {t t' : TagTree} {inner ids : List Nat} {stop : Nat} {os : List Opening}

theorem Stands.innermost_lt (h : Stands t inner stop ids os) : innermost ids < stop := by
  cases h with
  | nil positive => exact positive
  | cons found tag line text parent children tile rest => exact tile.le

theorem Stands.congr (h : Stands t inner stop ids os)
    (hsame : ∀ id < stop, t'.node? id = t.node? id) : Stands t' inner stop ids os := by
  induction h with
  | nil positive => exact .nil positive
  | cons found tag line text parent children tile rest ih =>
      have hle := tile.le
      refine .cons ((hsame _ hle).trans found) tag line text parent children
        (tile.congr fun i hi hlt => hsame i hlt) (ih fun i hi => hsame i (by omega))

/-- Sketches are not kept in the tree. -/
theorem Stands.sketching (h : Stands t inner stop ids os) (f : Sketch → Sketch) :
    Stands t inner stop ids (Opening.sketching f os) := by
  induction h with
  | nil positive => exact .nil positive
  | cons found tag line text parent children tile rest ih =>
      rw [Opening.sketching]
      split
      · exact .cons found tag line text parent children tile rest
      · exact .cons found tag line text parent children tile ih

/-- A node that is appended becomes the last child of the innermost element. -/
theorem Stands.linked {node : TagNode} (h : Stands t [] t.size ids os)
    (g : Grows t (innermost ids) node t') : Stands t' [t.size] t.size ids os := by
  cases h with
  | nil positive => exact .nil positive
  | @cons _ closed ids _ id o outer found' found tag line text parent children tile rest =>
      have hle := tile.le
      refine .cons (g.linked _ found) tag line text parent ?_ (tile.congr fun i hi hlt => ?_)
        (rest.congr fun i hi => ?_)
      · simp only [children, List.append_nil]
      · exact g.others i hlt (by simp only [innermost, List.headD_cons]; omega)
      · exact g.others i (by omega) (by simp only [innermost, List.headD_cons]; omega)

theorem Stands.leaf {node : TagNode} (h : Stands t [] t.size ids os)
    (g : Grows t (innermost ids) node t') (hleaf : node.children = []) :
    Stands t' [] t'.size ids os := by
  have hlinked := h.linked g
  rw [g.size]
  cases hlinked with
  | nil positive => exact .nil (Nat.succ_pos _)
  | cons found tag line text parent children tile rest =>
      have hlast : Tile t' t.size (t.size + 1) [t.size] := by
        refine .cons g.added ?_ (.nil _)
        simp only [hleaf]
        exact .nil _
      exact .cons found tag line text parent (by rw [children, List.append_nil])
        (tile.append hlast) rest

theorem Stands.element {node : TagNode} {o : Opening} (h : Stands t [] t.size ids os)
    (g : Grows t (innermost ids) node t') (htag : node.tag = o.name) (hline : node.line = o.line)
    (htext : node.text = none) (hleaf : node.children = []) :
    Stands t' [] t'.size (t.size :: ids) (o :: os) := by
  rw [g.size]
  exact .cons g.added htag hline htext rfl (by simp [hleaf]) (.nil _) (h.linked g)

/-- An element that is closed is a complete child of the element around it. -/
theorem Stands.absorb {id : Nat} {o : Opening} (h : Stands t [] t.size (id :: ids) (o :: os)) :
    Stands t [] t.size ids os := by
  cases h with
  | cons found tag line text parent children tile rest =>
      cases rest with
      | nil positive => exact .nil (Nat.lt_of_lt_of_le positive (by have := tile.le; omega))
      | cons found' tag' line' text' parent' children' tile' rest' =>
          rw [List.append_nil] at children
          rw [← children] at tile
          have hself : Tile t id t.size [id] := .cons found tile (.nil _)
          exact .cons found' tag' line' text' parent' (by rw [children', List.append_nil])
            (tile'.append hself) rest'

/-- An element that is cut out leaves the element around it as it was before. -/
theorem Stands.cut {id : Nat} {o : Opening} (h : Stands t [] t.size (id :: ids) (o :: os))
    (g : Cuts t id (innermost ids) t') : Stands t' [] t'.size ids os := by
  rw [g.size]
  cases h with
  | cons found tag line text parent children tile rest =>
      cases rest with
      | nil positive => exact .nil positive
      | @cons _ closed ids _ id' o' outer node' found' tag' line' text' parent' children' tile' rest' =>
          have hle := tile'.le
          have hkept : (closed ++ [id]).filter (· != id) = closed := by
            rw [List.filter_append, List.filter_eq_self.2]
            · simp
            · intro i hi
              have hlt := (tile'.bounds hi).2
              simp only [bne_iff_ne, ne_eq]
              omega
          refine .cons (g.unlinked _ hle found') tag' line' text' parent' ?_
            (tile'.congr fun i hi hlt => ?_) (rest'.congr fun i hi => ?_)
          · simp only [children', hkept, List.append_nil]
          · exact g.others i hlt (by simp only [innermost, List.headD_cons]; omega)
          · exact g.others i (by omega) (by simp only [innermost, List.headD_cons]; omega)

/-- The outermost open element is a function. -/
def Grounded (os : List Opening) : Prop := ∀ o ∈ os.getLast?, o.isFunction = true

/-- The way up through the tree is the way out of the open elements. -/
theorem Stands.tagAbove_eq (h : Stands t inner stop ids os) (hne : os ≠ []) (hground : Grounded os)
    {steps : Nat} (hsteps : innermost ids < steps) :
    t.tagAbove "name".toList steps (some (innermost ids)) = Opening.above os := by
  induction h generalizing steps with
  | nil positive => exact absurd rfl hne
  | @cons _ closed ids _ id o outer node found tag line text parent children tile rest ih =>
      obtain ⟨steps, rfl⟩ : ∃ s, steps = s + 1 := ⟨steps - 1, by omega⟩
      simp only [innermost, List.headD_cons] at hsteps ⊢
      rw [tagAbove, found, Option.bind_some, tag, Opening.above, List.map_cons, List.find?_cons]
      by_cases hname : o.name = "name".toList
      -- A name is never the outermost element, so the way leads on.
      · have hmore : outer ≠ [] := by
          rintro rfl
          have hfunction := hground o (by simp)
          rw [Opening.isFunction, hname] at hfunction
          exact absurd hfunction (by decide)
        have hrest : Grounded outer := by
          intro last hlast
          refine hground last ?_
          rwa [List.getLast?_cons_of_ne_nil hmore]
        have hlt := rest.innermost_lt
        rw [if_pos hname, parent]
        simp only [hname, ne_eq, not_true_eq_false, decide_false]
        exact ih hmore hrest (by omega)
      · rw [if_neg hname]
        simp only [ne_eq, hname, not_false_eq_true, decide_true]

theorem Stands.preorder?_eq {id : Nat} {o : Opening}
    (h : Stands t [] t.size (id :: ids) (o :: os)) :
    t.preorder? id = some (List.range' id (t.size - id)) := by
  cases h with
  | cons found tag line text parent children tile rest =>
      rw [List.append_nil] at children
      rw [← children] at tile
      exact preorder?_of_tile found tile

end

/-- The sketch of each open function is what a walk over its nodes gives. Those of the
next function inside do not belong to it. -/
def Sketched (t : TagTree) : Nat → List Nat → List Opening → Prop
  | stop, id :: ids, o :: outer =>
      id < stop ∧
        if o.isFunction then
          (List.range' id (stop - id)).foldlM t.sketchNode? {} = some o.sketch ∧
            Sketched t id ids outer
        else Sketched t stop ids outer
  | _, _, _ => True

section
variable {t t' : TagTree} {ids : List Nat} {stop : Nat} {os : List Opening}

theorem Sketched.congr (h : Sketched t stop ids os) (hrooted : Rooted t) (halike : Alike stop t t') :
    Sketched t' stop ids os := by
  induction ids generalizing os stop with
  | nil => cases os <;> trivial
  | cons id ids ih =>
      cases os with
      | nil => trivial
      | cons o outer =>
          rw [Sketched] at h ⊢
          obtain ⟨hlt, hrest⟩ := h
          refine ⟨hlt, ?_⟩
          split
          · rename_i hfunction
            rw [if_pos hfunction] at hrest
            refine ⟨?_, ih hrest.2 (halike.mono (Nat.le_of_lt hlt))⟩
            rw [← halike.foldlM_eq hrooted fun i hi => ?_]
            · exact hrest.1
            · have := (List.mem_range'_1.1 hi).2
              omega
          · rename_i hother
            rw [if_neg hother] at hrest
            exact ih hrest halike

theorem Sketched.push {f : Sketch → Sketch} (h : Sketched t stop ids os)
    (hnode : ∀ s, t.sketchNode? s stop = some (f s)) :
    Sketched t (stop + 1) ids (Opening.sketching f os) := by
  induction ids generalizing os with
  | nil => cases Opening.sketching f os <;> trivial
  | cons id ids ih =>
      cases os with
      | nil => trivial
      | cons o outer =>
          rw [Sketched] at h
          obtain ⟨hlt, hrest⟩ := h
          rw [Opening.sketching]
          by_cases hfunction : o.isFunction = true
          · rw [if_pos hfunction] at hrest ⊢
            have hfunction' : ({ o with sketch := f o.sketch } : Opening).isFunction = true :=
              hfunction
            rw [Sketched, if_pos hfunction']
            refine ⟨by omega, ?_, hrest.2⟩
            have hmore : stop + 1 - id = stop - id + 1 := by omega
            have hlast : id + (stop - id) = stop := by omega
            rw [hmore, List.range'_1_concat, hlast, List.foldlM_append, hrest.1]
            simp only [Option.bind_eq_bind, Option.bind_some, List.foldlM_cons, List.foldlM_nil,
              hnode, Option.pure_def]
          · rw [if_neg hfunction] at hrest ⊢
            rw [Sketched, if_neg hfunction]
            exact ⟨by omega, ih hrest⟩

end

theorem grounded_of_map_name {a b : List Opening} (h : a.map Opening.name = b.map Opening.name)
    (hb : Grounded b) : Grounded a := by
  intro o ho
  have hlast := congrArg List.getLast? h
  rw [List.getLast?_map, List.getLast?_map, ho, Option.map_some] at hlast
  obtain ⟨o', ho', hname⟩ := Option.map_eq_some_iff.1 hlast.symm
  have hfunction := hb o' ho'
  rwa [Opening.isFunction, hname] at hfunction

theorem Grounded.tail {o : Opening} {outer : List Opening} (h : Grounded (o :: outer)) :
    Grounded outer := by
  intro last hlast
  refine h last ?_
  rw [List.getLast?_cons_of_ne_nil]
  · exact hlast
  · rintro rfl
    cases hlast

end TagTree

namespace Reader

open TagTree (innermost Stands Sketched Rooted Grounded)

/-- The reader is in the state that the outline describes. -/
structure Shows (r : Reader) (o : Outline) : Prop where
  stands : ∃ ids, r.current = innermost ids ∧ Stands r.tree [] r.tree.size ids o.openings ∧
    Sketched r.tree r.tree.size ids o.openings
  rooted : Rooted r.tree
  depth : r.depth = o.openings.countP Opening.isFunction
  ground : Grounded o.openings
  unitLine : r.unitLine = o.unitLine
  reading : r.reading = o.reading

section
variable {r : Reader} {o : Outline}

theorem Shows.inFunction_eq (h : r.Shows o) : r.inFunction = !o.openings.isEmpty := by
  rw [inFunction, h.depth]
  cases hopen : o.openings with
  | nil => rfl
  | cons top outer =>
      obtain ⟨last, hlast⟩ : ∃ last, o.openings.getLast? = some last := by
        rw [hopen]
        exact ⟨_, List.getLast?_cons⟩
      have hpos : 0 < o.openings.countP Opening.isFunction :=
        List.countP_pos_iff.2 ⟨last, List.mem_of_getLast? hlast, h.ground last hlast⟩
      rw [hopen] at hpos
      simpa using Nat.pos_iff_ne_zero.1 hpos

theorem Shows.sourceLine_eq (h : r.Shows o) (breaks : Nat) :
    r.sourceLine breaks = o.sourceLine breaks := by
  cases hunit : o.unitLine with
  | none => rw [sourceLine, Outline.sourceLine, h.unitLine, hunit]
  | some unit => rw [sourceLine, Outline.sourceLine, h.unitLine, hunit]

theorem countP_sketching (f : Sketch → Sketch) (openings : List Opening) :
    (Opening.sketching f openings).countP Opening.isFunction =
      openings.countP Opening.isFunction := by
  have hcount (l : List Opening) : l.countP Opening.isFunction =
      (l.map Opening.name).countP fun name => name = "function".toList := by
    rw [List.countP_map]
    rfl
  rw [hcount, Opening.map_name_sketching, ← hcount]

theorem Shows.leaf {tag text : Text} {f : Sketch → Sketch} (h : r.Shows o) (line : Nat)
    (hne : o.openings ≠ []) (htext : text ≠ [])
    (hf : ∀ s, TagTree.sketchLeaf text tag (Opening.above o.openings) s = f s) :
    ∃ added, r.tree.leaf? r.current tag text line = some added ∧
      ({ r with tree := added.2 } : Reader).Shows
        { o with openings := Opening.sketching f o.openings } := by
  obtain ⟨ids, hcurrent, hstands, hsketched⟩ := h.stands
  have hlt := hstands.innermost_lt
  obtain ⟨tree, happend, hgrows⟩ :=
    TagTree.exists_grows hlt { tag, text := some text, line }
  have hrooted := hgrows.rooted h.rooted hlt
  rw [← hcurrent] at happend
  refine ⟨_, happend, ?_⟩
  have hleaf := hstands.leaf hgrows rfl
  have hnode : ∀ s, tree.sketchNode? s r.tree.size = some (f s) := by
    intro s
    have habove : tree.ancestorTag? r.tree.size "name".toList =
        some (Opening.above o.openings) := by
      rw [TagTree.ancestorTag?, hgrows.added, Option.map_some]
      have hsize : tree.nodes.length = r.tree.size + 1 := hgrows.size
      rw [hsize]
      exact congrArg some (hleaf.tagAbove_eq hne h.ground (by omega))
    rw [TagTree.sketchNode?, hgrows.added, Option.bind_some]
    cases text with
    | nil => exact absurd rfl htext
    | cons c text =>
        simp only [habove, Option.map_some, hf]
  refine ⟨⟨ids, hcurrent, hleaf.sketching f, ?_⟩, hrooted, ?_, ?_, h.unitLine, h.reading⟩
  · rw [hgrows.size]
    exact (hsketched.congr h.rooted hgrows.alike).push hnode
  · exact h.depth.trans (countP_sketching f _).symm
  · exact TagTree.grounded_of_map_name (Opening.map_name_sketching f _) h.ground

theorem Shows.takeText (h : r.Shows o) (text : Text) : ∃ r', r.takeText? text = some r' ∧
    r'.Shows (o.hear text) := by
  rw [takeText?, h.inFunction_eq]
  obtain ⟨openings, unitLine, reading⟩ := o
  cases openings with
  | nil => exact ⟨r, rfl, h⟩
  | cons top outer =>
      cases text with
      | nil => exact ⟨r, rfl, h⟩
      | cons c text =>
          obtain ⟨node, hnode, htag⟩ : ∃ node, r.tree.node? r.current = some node ∧
              node.tag = top.name := by
            obtain ⟨ids, hcurrent, hstands, -⟩ := h.stands
            cases hstands with
            | cons found tag => exact ⟨_, by rw [hcurrent]; exact found, tag⟩
          obtain ⟨added, hadded, hshows⟩ := h.leaf node.line
            (List.cons_ne_nil top outer) (List.cons_ne_nil c text) (fun s => rfl)
          refine ⟨_, ?_, hshows⟩
          simp only [TagTree.text?, hnode, Option.bind_some, htag, hadded]
          rfl

/-- Where line one is says the first unit tag. -/
theorem Shows.base (h : r.Shows o) (placed : PlacedTag) :
    (if placed.tag.bareName = "unit".toList ∧ r.unitLine.isNone then
      { r with unitLine := some placed.breaks } else r).Shows (o.base placed) := by
  rw [Outline.base, ← h.unitLine]
  split
  · exact ⟨h.stands, h.rooted, h.depth, h.ground, rfl, h.reading⟩
  · exact h

theorem Shows.element (h : r.Shows o) (tag attributes : Text) (line : Nat) :
    ∃ tree, r.tree.element? r.current tag attributes line = some (r.tree.size, tree) ∧
      ({ r with tree } : Reader).Shows o ∧
      ((o.openings = [] → tag = "function".toList) →
        ({ r with
            tree
            current := r.tree.size
            depth := if tag = "function".toList then r.depth + 1 else r.depth } : Reader).Shows
          { o with openings := ⟨tag, line, {}⟩ :: o.openings }) := by
  obtain ⟨ids, hcurrent, hstands, hsketched⟩ := h.stands
  have hlt := hstands.innermost_lt
  obtain ⟨tree, happend, hgrows⟩ := TagTree.exists_grows hlt { tag, attributes, line }
  rw [← hcurrent] at happend
  have hrooted := hgrows.rooted h.rooted hlt
  have hnode : ∀ s, tree.sketchNode? s r.tree.size = some (id s) := by
    intro s
    rw [TagTree.sketchNode?, hgrows.added]
    rfl
  have hsame := (hsketched.congr h.rooted hgrows.alike).push hnode
  rw [Opening.sketching_id] at hsame
  refine ⟨tree, happend, ?_, fun hfirst => ?_⟩
  · refine ⟨⟨ids, hcurrent, hstands.leaf hgrows rfl, ?_⟩, hrooted, h.depth, h.ground, h.unitLine,
      h.reading⟩
    rw [hgrows.size]
    exact hsame
  · refine ⟨⟨_, rfl, hstands.element hgrows rfl rfl rfl rfl, ?_⟩, hrooted, ?_, ?_, h.unitLine,
      h.reading⟩
    · rw [hgrows.size, TagTree.Sketched]
      refine ⟨Nat.lt_succ_self _, ?_⟩
      split
      · refine ⟨?_, hsketched.congr h.rooted hgrows.alike⟩
        rw [Nat.add_sub_cancel_left, List.range'_one, List.foldlM_cons, hnode]
        rfl
      · exact hsame
    · rw [List.countP_cons, h.depth, Opening.isFunction]
      by_cases hname : tag = "function".toList
      · rw [if_pos hname, if_pos (decide_eq_true hname)]
      · rw [if_neg hname, if_neg (fun h => hname (of_decide_eq_true h)), Nat.add_zero]
    · intro last hlast
      by_cases hopen : o.openings = []
      · rw [hopen] at hlast
        rw [← Option.some.inj hlast]
        exact decide_eq_true (hfirst hopen)
      · rw [List.getLast?_cons_of_ne_nil hopen] at hlast
        exact h.ground last hlast

theorem Shows.enter {placed : PlacedTag} (h : r.Shows o) : ∃ r',
    r.open? placed.tag placed.breaks = some r' ∧ r'.Shows ((o.base placed).enter placed) := by
  have hbase := h.base placed
  have hopenings : (o.base placed).openings = o.openings := by
    rw [Outline.base]
    split <;> rfl
  rw [open?, Outline.enter, hopenings]
  generalize hr : (if placed.tag.bareName = "unit".toList ∧ r.unitLine.isNone then
    { r with unitLine := some placed.breaks } else r) = r₁ at hbase
  have hinside₁ : r₁.inFunction = !o.openings.isEmpty := by
    rw [hbase.inFunction_eq, hopenings]
  obtain ⟨tree, hadded, hsame, hopened⟩ := hbase.element placed.tag.bareName
    placed.tag.attributes (r₁.sourceLine placed.breaks)
  rw [hinside₁, Bool.not_not, hadded, Option.map_some]
  rw [hopenings, hbase.sourceLine_eq] at hopened
  by_cases houtside : placed.tag.bareName ≠ "function".toList ∧ o.openings.isEmpty = true
  · rw [if_pos houtside, if_pos (.inl houtside)]
    exact ⟨_, rfl, hbase⟩
  · rw [if_neg houtside]
    refine ⟨_, rfl, ?_⟩
    by_cases hself : placed.tag.isSelfClosing = true
    · rw [if_pos hself, if_pos (.inr hself)]
      exact hsame
    · rw [if_neg hself, if_neg (not_or.2 ⟨houtside, hself⟩)]
      refine hopened fun hnil => Decidable.byContradiction fun hname => ?_
      exact houtside ⟨hname, by rw [hnil]; rfl⟩

theorem Shows.discard (h : r.Shows o) : r.discard.Shows
    { o with
      openings := []
      reading := { o.reading with corruptions := o.reading.corruptions + 1 } } := by
  obtain ⟨ids, -, hstands, -⟩ := h.stands
  have hreset : r.tree.reset.size = 1 :=
    TagTree.size_reset (Nat.lt_of_le_of_lt (Nat.zero_le _) hstands.innermost_lt)
  have hreading : r.discard.reading =
      { o.reading with corruptions := o.reading.corruptions + 1 } := by
    rw [Reader.discard, h.reading]
  refine ⟨⟨[], rfl, .nil ?_, trivial⟩, ?_, rfl, ?_, h.unitLine, hreading⟩
  · rw [Reader.discard, hreset]
    exact Nat.one_pos
  · intro id node parent hnode hparent
    rw [TagTree.node?, Reader.discard, TagTree.reset, List.getElem?_map,
      Option.map_eq_some_iff] at hnode
    obtain ⟨before, hbefore, rfl⟩ := hnode
    rw [List.getElem?_take] at hbefore
    split at hbefore
    · exact h.rooted id before parent hbefore hparent
    · cases hbefore
  · intro last hlast
    cases hlast

theorem Shows.absorb {top : Opening} {outer : List Opening} {node : TagNode} (h : r.Shows o)
    (hopen : o.openings = top :: outer) (hnode : r.tree.node? r.current = some node)
    (hother : top.isFunction = false) :
    ({ r with current := node.parent.getD TagTree.root } : Reader).Shows
      { o with openings := outer } := by
  obtain ⟨ids, hcurrent, hstands, hsketched⟩ := h.stands
  have hdepth := h.depth
  have hground := h.ground
  rw [hopen] at hstands hsketched hdepth hground
  cases hstands with
  | @cons _ closed ids _ id _ _ node' found tag line text parent children tile rest =>
      have hstands := Stands.absorb (.cons found tag line text parent children tile rest)
      obtain rfl : node = node' := by
        rw [hcurrent] at hnode
        exact Option.some.inj (hnode.symm.trans found)
      rw [Sketched, if_neg (by simp [hother])] at hsketched
      rw [List.countP_cons, hother, if_neg Bool.false_ne_true, Nat.add_zero] at hdepth
      refine ⟨⟨ids, ?_, hstands, hsketched.2⟩, h.rooted, hdepth, hground.tail, h.unitLine,
        h.reading⟩
      rw [parent]
      rfl

/-- A function is finished, and its subtree is dropped. -/
theorem Shows.finish {top : Opening} {outer : List Opening} {node : TagNode} (file : String)
    (limits : Thresholds) (line : Nat) (h : r.Shows o) (hopen : o.openings = top :: outer)
    (hnode : r.tree.node? r.current = some node) (hfunction : top.isFunction = true) :
    ∃ r', r.finish? file limits line = some r' ∧
      ({ r' with current := node.parent.getD TagTree.root } : Reader).Shows
        { o with
          openings := outer
          reading := { o.reading with
            found := o.reading.found ++ (top.sketch.finish file top.line line limits).toList } } := by
  obtain ⟨ids, hcurrent, hstands, hsketched⟩ := h.stands
  have hdepth := h.depth
  have hground := h.ground
  rw [hopen] at hstands hsketched hdepth hground
  cases hstands with
  | @cons _ closed ids _ id _ _ node' found tag line' text parent children tile rest =>
      have hstands := Stands.cons found tag line' text parent children tile rest
      obtain rfl : node = node' := by
        rw [hcurrent] at hnode
        exact Option.some.inj (hnode.symm.trans found)
      rw [Sketched, if_pos hfunction] at hsketched
      obtain ⟨hlt, hsketch, houter⟩ := hsketched
      have hid : id ≠ TagTree.root := Nat.ne_of_gt (Nat.lt_of_le_of_lt (Nat.zero_le _) rest.innermost_lt)
      obtain ⟨tree, hdetach, hcuts⟩ := TagTree.exists_cuts hid found parent
      have hwalk : r.tree.sketch? id = some top.sketch := by
        rw [TagTree.sketch?, hstands.preorder?_eq, Option.bind_some, hsketch]
      rw [List.countP_cons, if_pos hfunction] at hdepth
      have hfinish : r.finish? file limits line = some
          { r with
            tree
            depth := r.depth - 1
            reading := { r.reading with
              found := r.reading.found ++ (top.sketch.finish file top.line line limits).toList } } := by
        rw [finish?, hnode, Option.bind_some, hcurrent]
        simp only [innermost, List.headD_cons, hwalk, Option.bind_some, hdetach, Option.map_some,
          line']
      refine ⟨_, hfinish, ⟨ids, ?_, hstands.cut hcuts, ?_⟩, hcuts.rooted h.rooted (Nat.le_of_lt hlt),
        ?_, hground.tail, h.unitLine, ?_⟩
      · rw [parent]
        rfl
      · rw [hcuts.size]
        exact houter.congr h.rooted (hcuts.alike (Nat.le_of_lt hlt))
      · simp only
        omega
      · simp only [h.reading]

theorem Shows.close (file : String) (limits : Thresholds) (placed : PlacedTag) (h : r.Shows o)
    (hne : o.openings ≠ []) : ∃ r',
    r.close? file limits placed.tag placed.breaks = some r' ∧
      r'.Shows (o.close file limits placed) := by
  obtain ⟨top, outer, hopen⟩ := List.exists_cons_of_ne_nil hne
  obtain ⟨node, hnode, htag⟩ : ∃ node, r.tree.node? r.current = some node ∧
      node.tag = top.name := by
    obtain ⟨ids, hcurrent, hstands, -⟩ := h.stands
    rw [hopen] at hstands
    cases hstands with
    | cons found tag => exact ⟨_, by rw [hcurrent]; exact found, tag⟩
  rw [close?, hnode, Option.bind_some, Outline.close, hopen]
  simp only [htag]
  by_cases hname : placed.tag.bareName = top.name
  · have hfits : ¬placed.tag.bareName ≠ top.name := fun hdiffers => hdiffers hname
    rw [if_neg hfits, if_neg hfits]
    by_cases hfunction : top.isFunction = true
    · have hword : placed.tag.bareName = "function".toList :=
        hname.trans (of_decide_eq_true hfunction)
      obtain ⟨r₁, hfinish, hshows⟩ := h.finish file limits (r.sourceLine placed.breaks)
        hopen hnode hfunction
      have hinside : r₁.inFunction = !outer.isEmpty := hshows.inFunction_eq
      rw [if_pos hword, hfinish, Option.bind_some, if_pos hfunction, ← h.sourceLine_eq]
      by_cases houter : outer = []
      · subst houter
        rw [if_neg (by simp [hinside])]
        exact ⟨_, rfl, hshows⟩
      · obtain ⟨added, hadded, hmarked⟩ := hshows.leaf (r.sourceLine placed.breaks) houter
          (show Placeholder.nested.text ≠ [] by decide)
          (f := (·.push Placeholder.nested.text)) fun s => if_pos (show "funcdef".toList ≠ _ by decide)
        have hadded : r₁.tree.leaf? (node.parent.getD TagTree.root) "funcdef".toList
            Placeholder.nested.text (r.sourceLine placed.breaks) = some added := hadded
        rw [if_pos ⟨hword, by simp [hinside, houter]⟩, hadded]
        exact ⟨_, rfl, hmarked⟩
    · have hword : placed.tag.bareName ≠ "function".toList := fun heq =>
        hfunction (decide_eq_true (hname.symm.trans heq))
      have hshows := h.absorb hopen hnode (Bool.eq_false_iff.2 hfunction)
      rw [if_neg hword, Option.bind_some, if_neg (fun hboth => hword hboth.1), if_neg hfunction]
      exact ⟨_, rfl, hshows⟩
  · rw [if_pos hname, if_pos hname]
    exact ⟨_, rfl, h.discard⟩

/-- A tag takes a reader and its outline to states that belong together. -/
theorem Shows.take (file : String) (limits : Thresholds) (h : r.Shows o) (placed : PlacedTag) :
    ∃ r',
    r.take? file limits placed = some r' ∧ r'.Shows (o.take file limits placed) := by
  obtain ⟨r₁, htext, hheard⟩ := h.takeText placed.tag.textBefore
  rw [take?, htext, Option.bind_some, Outline.take, hheard.inFunction_eq]
  generalize o.hear placed.tag.textBefore = heard at hheard
  split
  · by_cases hopen : heard.openings = []
    · have hsame : heard.close file limits placed = heard := by rw [Outline.close, hopen]
      rw [hsame, hopen]
      exact ⟨r₁, rfl, hheard⟩
    · rw [if_pos (by simpa using hopen)]
      exact hheard.close file limits placed hopen
  · split
    · exact ⟨r₁, rfl, hheard⟩
    · exact hheard.enter

theorem Shows.run (file : String) (limits : Thresholds) (h : r.Shows o) (tags : List PlacedTag) :
    ∃ r',
    tags.foldlM (take? file limits) r = some r' ∧
      r'.Shows (tags.foldl (Outline.take file limits) o) := by
  induction tags generalizing r o with
  | nil => exact ⟨r, rfl, h⟩
  | cons placed tags ih =>
      obtain ⟨r₁, htake, hshows⟩ := h.take file limits placed
      obtain ⟨r', hrun, hlast⟩ := ih hshows
      exact ⟨r', by rw [List.foldlM_cons, htake]; exact hrun, hlast⟩

theorem shows_start : ({} : Reader).Shows {} := by
  refine ⟨⟨[], rfl, .nil Nat.one_pos, trivial⟩, ?_, rfl, ?_, rfl, rfl⟩
  · intro id node parent hnode hparent
    cases id with
    | zero =>
        obtain rfl := Option.some.inj hnode
        cases hparent
    | succ id => cases hnode
  · intro last hlast
    cases hlast

end

end Reader

/-- The tags of an export that are processed after the XML declaration. -/
def Reading.tags (text : Text) : List PlacedTag := (TagStream.next ⟨text, 0⟩).2.processed

/-- An export that begins with an XML declaration is always read to its end. -/
theorem Reading.ofExport?_eq {file : String} {limits : Thresholds} {text : Text}
    (h : (TagStream.next ⟨text, 0⟩).1.name = "?xml".toList) :
    Reading.ofExport? file limits text =
      some (.ok ((Reading.tags text).foldl (Outline.take file limits) {}).reading) := by
  obtain ⟨r, hrun, hshows⟩ :=
    Reader.shows_start.run file limits (Reading.tags text)
  have hnamed : "?xml".toList.isEmpty = false := rfl
  rw [ofExport?]
  simp only [h, hnamed, Bool.false_and, Bool.false_eq_true, ↓reduceIte, ne_eq, not_true_eq_false]
  rw [Reader.run?_eq_foldlM, ← Reading.tags, hrun, Option.map_some, hshows.reading]

end ClonePrint
