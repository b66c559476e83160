import ClonePrint.Proofs.Kinship
import ClonePrint.Proofs.Standing

/-!
# Readers between two tags

Whatever stands in an export, a tag leaves a reader with a tree in document order, with its
innermost element on the way up from the last node, and with a depth that counts the functions on
the way up from there. So the depth is not zero when a function is closed, no position lies outside
the tree, and what is cut off with a function is its subtree.
-/
namespace ClonePrint

namespace TagTree

def isFunction (t : TagTree) (id : Nat) : Bool :=
  (t.node? id).any fun node => node.tag = "function".toList

/-- The node at a position is an element, not a run of text. -/
def isElement (t : TagTree) (id : Nat) : Bool := (t.node? id).any fun node => node.text.isNone

/-- The elements that are open lie on the way up from the innermost one, and so many of them are
functions. -/
def IsOpen (t : TagTree) (current depth : Nat) : Prop :=
  ∃ ids, t.Ascent current ids ∧ (∀ id ∈ ids, t.isElement id = true) ∧
    depth = ids.countP t.isFunction

/-- The tree is in order up to the innermost open element. -/
structure Sound (t : TagTree) (current depth : Nat) : Prop where
  ordered : t.Ordered current
  bare : t.isFunction root = false
  isOpen : t.IsOpen current depth

section

variable {t t' : TagTree} {id current depth parent : Nat} {ids : List Nat} {node : TagNode}

theorem isFunction_of_node? (h : t.node? id = some node) :
    t.isFunction id = decide (node.tag = "function".toList) := by
  rw [isFunction, h, Option.any_some]

theorem isElement_of_node? (h : t.node? id = some node) : t.isElement id = node.text.isNone := by
  rw [isElement, h, Option.any_some]

theorem Alike.isFunction_eq {n : Nat} (h : Alike n t t') (hid : id < n) :
    t'.isFunction id = t.isFunction id := by
  obtain ⟨a, b, ha, hb, htag, -, -⟩ := h id hid
  rw [isFunction_of_node? ha, isFunction_of_node? hb, htag]

theorem Alike.isElement_eq {n : Nat} (h : Alike n t t') (hid : id < n) :
    t'.isElement id = t.isElement id := by
  obtain ⟨a, b, ha, hb, -, htext, -⟩ := h id hid
  rw [isElement_of_node? ha, isElement_of_node? hb, htext]

theorem Alike.countP_eq {n : Nat} (h : Alike n t t') (hids : ∀ id ∈ ids, id < n) :
    ids.countP t'.isFunction = ids.countP t.isFunction := by
  refine List.countP_congr fun id hid => ?_
  rw [h.isFunction_eq (hids id hid)]

theorem Sound.depth_pos (h : t.Sound current depth) (hfunction : t.isFunction current = true) :
    0 < depth := by
  obtain ⟨ids, hascent, -, hdepth⟩ := h.isOpen
  rw [hdepth]
  exact List.countP_pos_iff.2 ⟨current, hascent.self_mem, hfunction⟩

/-- The way up does not change with the nodes that are not on it. -/
theorem IsOpen.congr (h : t.IsOpen current depth) (hlinked : t.Linked) {n : Nat}
    (halike : Alike n t t') (hlt : current < n) : t'.IsOpen current depth := by
  obtain ⟨ids, hascent, helements, hdepth⟩ := h
  have hbelow : ∀ i ∈ ids, i < n := fun i hi => Nat.lt_of_le_of_lt (hascent.le hlinked hi) hlt
  refine ⟨ids, hascent.congr hlinked fun i hi => ?_, fun i hi => ?_, ?_⟩
  · exact halike.parent?_eq (Nat.lt_of_le_of_lt hi hlt)
  · rw [halike.isElement_eq (hbelow i hi), helements i hi]
  · rw [halike.countP_eq hbelow, hdepth]

theorem Sound.leaf (h : t.Sound current depth) (g : Grows t current node t')
    (hleaf : node.children = []) : t'.Sound current depth :=
  ⟨(h.ordered.grow g hleaf).up g.parent?_added,
    (g.alike.isFunction_eq h.ordered.pos).trans h.bare,
    h.isOpen.congr h.ordered.linked g.alike h.ordered.current_lt⟩

/-- An element that stays open counts if it is a function. -/
theorem Sound.element (h : t.Sound current depth) (g : Grows t current node t')
    (hleaf : node.children = []) (htext : node.text = none) :
    t'.Sound t.size (if node.tag = "function".toList then depth + 1 else depth) := by
  obtain ⟨-, hbare, ids, hascent, helements, hdepth⟩ := h.leaf g hleaf
  refine ⟨h.ordered.grow g hleaf, hbare, t.size :: ids, .step g.parent?_added hascent,
    List.forall_mem_cons.2 ⟨?_, helements⟩, ?_⟩
  · rw [isElement_of_node? g.added]
    exact congrArg Option.isNone htext
  · rw [List.countP_cons, ← hdepth, isFunction_of_node? g.added]
    by_cases hname : node.tag = "function".toList
    · rw [if_pos hname, if_pos (decide_eq_true hname)]
    · rw [if_neg hname, if_neg (fun htag => hname (of_decide_eq_true htag)), Nat.add_zero]

/-- The way up from the element around the innermost one. -/
theorem Sound.above (h : t.Sound current depth) (hparent : t.parent? current = some parent) :
    t.IsOpen parent (depth - if t.isFunction current then 1 else 0) := by
  obtain ⟨ids, hascent, helements, hdepth⟩ := h.isOpen
  obtain ⟨more, rfl, hmore⟩ := hascent.exists_tail h.ordered.linked hparent
  refine ⟨more, hmore, (List.forall_mem_cons.1 helements).2, ?_⟩
  rw [hdepth, List.countP_cons, Nat.add_sub_cancel]

theorem Sound.up (h : t.Sound current depth) (hparent : t.parent? current = some parent)
    (hother : t.isFunction current = false) : t.Sound parent depth := by
  have habove := h.above hparent
  rw [hother, if_neg Bool.false_ne_true, Nat.sub_zero] at habove
  exact ⟨h.ordered.up hparent, h.bare, habove⟩

theorem Sound.cut (h : t.Sound current depth) (c : Cuts t current parent t')
    (hparent : t.parent? current = some parent) (hfunction : t.isFunction current = true) :
    t'.Sound parent (depth - 1) := by
  have habove := h.above hparent
  rw [if_pos hfunction] at habove
  have hlt := h.ordered.linked.parent_lt hparent
  have halike := c.alike (Nat.le_of_lt h.ordered.current_lt)
  have hroot : root < current := Nat.lt_of_le_of_lt (Nat.zero_le _) hlt
  exact ⟨h.ordered.cut c hparent, (halike.isFunction_eq hroot).trans h.bare,
    habove.congr h.ordered.linked halike hlt⟩

theorem Sound.reset (h : t.Sound current depth) : t.reset.Sound root 0 := by
  obtain ⟨node, hnode⟩ : ∃ node, t.node? root = some node := exists_node?_of_lt h.ordered.pos
  have hbare : t.reset.isFunction root = false := by
    rw [isFunction_of_node? (node?_reset hnode), ← h.bare, isFunction_of_node? hnode]
  have helement : t.reset.isElement root = true := by
    obtain ⟨ids, hascent, helements, -⟩ := h.isOpen
    rw [isElement_of_node? (node?_reset hnode), ← isElement_of_node? hnode]
    exact helements root hascent.root_mem
  refine ⟨h.ordered.reset, hbare, [root], .root, List.forall_mem_singleton.2 helement, ?_⟩
  rw [List.countP_singleton, hbare]
  rfl

theorem sound_start : ({} : TagTree).Sound root 0 :=
  ⟨ordered_of_size_eq_one rfl rfl rfl rfl, by decide, [root], .root, by decide, by decide⟩

end

end TagTree

namespace Reader

def Sound (r : Reader) : Prop := r.tree.Sound r.current r.depth

variable {r r' : Reader} {file : String} {limits : Thresholds} {tag : Tag} {breaks line : Nat}
  {text : Text}

theorem Sound.takeText (h : r.Sound) (htake : r.takeText? text = some r') : r'.Sound := by
  unfold takeText? at htake
  split at htake
  · obtain ⟨added, hadded, rfl⟩ := Option.map_eq_some_iff.1 htake
    obtain ⟨node, -, hleaf⟩ := Option.bind_eq_some_iff.1 hadded
    obtain ⟨-, hgrows⟩ := TagTree.grows_of_append? hleaf
    exact TagTree.Sound.leaf h hgrows rfl
  · exact Option.some.inj htake ▸ h

theorem Sound.enter (h : r.Sound) (hopen : r.open? tag breaks = some r') : r'.Sound := by
  have hbase : (if tag.bareName = "unit".toList ∧ r.unitLine.isNone then
      { r with unitLine := some breaks } else r).Sound := by
    split <;> exact h
  rw [open?] at hopen
  generalize (if tag.bareName = "unit".toList ∧ r.unitLine.isNone then
    { r with unitLine := some breaks } else r) = r₁ at hopen hbase
  split at hopen
  · exact Option.some.inj hopen ▸ hbase
  · obtain ⟨added, hadded, rfl⟩ := Option.map_eq_some_iff.1 hopen
    obtain ⟨hlast, hgrows⟩ := TagTree.grows_of_append? hadded
    split
    · exact TagTree.Sound.leaf hbase hgrows rfl
    · have hentered := TagTree.Sound.element hbase hgrows rfl rfl
      rw [← hlast] at hentered
      exact hentered

/-- A finished function is cut off together with everything in it. -/
theorem Sound.finish {node : TagNode} (h : r.Sound) (hnode : r.tree.node? r.current = some node)
    (hname : node.tag = "function".toList) (hfinish : r.finish? file limits line = some r') :
    r'.tree.Sound (node.parent.getD TagTree.root) r'.depth := by
  rw [finish?] at hfinish
  obtain ⟨_, _, hfinish⟩ := Option.bind_eq_some_iff.1 hfinish
  obtain ⟨_, _, hfinish⟩ := Option.bind_eq_some_iff.1 hfinish
  obtain ⟨tree, hdetach, rfl⟩ := Option.map_eq_some_iff.1 hfinish
  have hfunction : r.tree.isFunction r.current = true := by
    rw [TagTree.isFunction_of_node? hnode]
    exact decide_eq_true hname
  have hroot : r.current ≠ TagTree.root := by
    intro hroot
    rw [hroot, h.bare] at hfunction
    cases hfunction
  obtain ⟨parent, hparent⟩ := h.ordered.linked.exists_parent h.ordered.current_lt hroot
  have habove : node.parent = some parent := (TagTree.parent?_of_node? hnode).symm.trans hparent
  obtain ⟨cut, hcut, hcuts⟩ := TagTree.exists_cuts hroot hnode habove
  rw [hdetach] at hcut
  obtain rfl := Option.some.inj hcut
  rw [habove]
  exact TagTree.Sound.cut h hcuts hparent hfunction

theorem Sound.close (h : r.Sound) (hclose : r.close? file limits tag breaks = some r') :
    r'.Sound := by
  obtain ⟨node, hnode, hclose⟩ := Option.bind_eq_some_iff.1 hclose
  split at hclose
  · exact Option.some.inj hclose ▸ TagTree.Sound.reset h
  · rename_i hfits
    have hfits : tag.bareName = node.tag := Decidable.not_not.1 hfits
    obtain ⟨r₁, hfinished, hclose⟩ := Option.bind_eq_some_iff.1 hclose
    obtain ⟨r₂, hmarked, rfl⟩ := Option.map_eq_some_iff.1 hclose
    have hsound : r₁.tree.Sound (node.parent.getD TagTree.root) r₁.depth := by
      split at hfinished
      · rename_i hname
        exact h.finish hnode (hfits.symm.trans hname) hfinished
      · rename_i hname
        obtain rfl := Option.some.inj hfinished
        have hother : r.tree.isFunction r.current = false := by
          rw [TagTree.isFunction_of_node? hnode, ← hfits]
          exact decide_eq_false hname
        have habove := TagTree.parent?_of_node? hnode
        cases hparent : node.parent with
        | none =>
            rw [hparent] at habove
            exact h.ordered.linked.eq_root h.ordered.current_lt habove ▸ h
        | some parent =>
            rw [hparent] at habove
            exact TagTree.Sound.up h habove hother
    split at hmarked
    · obtain ⟨added, hadded, rfl⟩ := Option.map_eq_some_iff.1 hmarked
      obtain ⟨-, hgrows⟩ := TagTree.grows_of_append? hadded
      exact hsound.leaf hgrows rfl
    · obtain rfl := Option.some.inj hmarked
      exact hsound

/-- A tag leaves a sound reader sound. -/
theorem Sound.take {placed : PlacedTag} (h : r.Sound)
    (htake : r.take? file limits placed = some r') : r'.Sound := by
  obtain ⟨r₁, htext, htake⟩ := Option.bind_eq_some_iff.1 htake
  have hheard := h.takeText htext
  split at htake
  · split at htake
    · exact hheard.close htake
    · exact Option.some.inj htake ▸ hheard
  · split at htake
    · exact Option.some.inj htake ▸ hheard
    · exact hheard.enter htake

/-- While an export is read, a reader comes to this point of it. -/
inductive Reaches (file : String) (limits : Thresholds) (text : Text) : Reader → TagStream → Prop
  | start (declared : (TagStream.next ⟨text, 0⟩).1.name = "?xml".toList) :
      Reaches file limits text {} (TagStream.next ⟨text, 0⟩).2
  | step {r r' : Reader} {s s' : TagStream} (reached : Reaches file limits text r s)
      (more : s.isEmpty = false)
      (taken : r.step? file limits s.next.1 s.next.2 = some (r', s')) :
      Reaches file limits text r' s'

/-- What can be relied on between two tags. The depth counts the functions on the way from the
innermost element up to the root, every node but the root is listed once by its parent, and
detaching the innermost element removes its subtree and nothing else. -/
structure Consistent (r : Reader) : Prop where
  current_lt : r.current < r.tree.size
  depth : ∃ ids, r.tree.Ascent r.current ids ∧ (∀ id ∈ ids, r.tree.isElement id = true) ∧
    r.depth = ids.countP r.tree.isFunction
  depth_pos : r.tree.isFunction r.current = true → 0 < r.depth
  child {id child : Nat} {node : TagNode} : r.tree.node? id = some node → child ∈ node.children →
    child < r.tree.size ∧ r.tree.parent? child = some id
  root : r.tree.parent? TagTree.root = none
  listed {id : Nat} : id < r.tree.size → id ≠ TagTree.root → ∃ parent node,
    r.tree.parent? id = some parent ∧ r.tree.node? parent = some node ∧ node.children.count id = 1
  subtree {id : Nat} : r.tree.InSubtree r.current id ↔ r.current ≤ id ∧ id < r.tree.size
  walk : r.current ≠ TagTree.root → r.tree.preorder? r.current =
    some (List.range' r.current (r.tree.size - r.current))
  detached : r.current ≠ TagTree.root → ∃ tree, r.tree.detach? r.current = some tree ∧
    ∀ id, (r.tree.InSubtree r.current id → tree.node? id = none) ∧
      (¬r.tree.InSubtree r.current id →
        tree.node? id = (r.tree.node? id).map (TagNode.without r.current))

theorem Shows.preorder?_eq {o : Outline} (h : r.Shows o) (hne : r.current ≠ TagTree.root) :
    r.tree.preorder? r.current = some (List.range' r.current (r.tree.size - r.current)) := by
  obtain ⟨ids, hcurrent, hstands, -⟩ := h.stands
  generalize o.openings = openings at hstands
  rw [hcurrent] at hne ⊢
  cases hstands with
  | nil positive => exact absurd rfl hne
  | cons found tag line text parent children tile rest =>
      exact (TagTree.Stands.cons found tag line text parent children tile rest).preorder?_eq

theorem Sound.consistent (h : r.Sound) {o : Outline} (hshows : r.Shows o) : r.Consistent := by
  have hlinked := h.ordered.linked
  refine ⟨h.ordered.current_lt, h.isOpen, h.depth_pos, fun hnode hchild => ?_,
    hlinked.parent?_root, fun hid hne => ?_, h.ordered.inSubtree_iff, hshows.preorder?_eq,
    fun hne => ?_⟩
  · have hparent := (hlinked.mem_children hnode).1 hchild
    exact ⟨TagTree.lt_size_of_parent? hparent, hparent⟩
  · obtain ⟨parent, hparent⟩ := hlinked.exists_parent hid hne
    obtain ⟨node, hnode⟩ := TagTree.exists_node?_of_lt
      (Nat.lt_trans (hlinked.parent_lt hparent) hid)
    refine ⟨parent, node, hparent, hnode, ?_⟩
    rw [(hlinked.nodup_children hnode).count, if_pos ((hlinked.mem_children hnode).2 hparent)]
  · obtain ⟨node, hnode⟩ := TagTree.exists_node?_of_lt h.ordered.current_lt
    obtain ⟨parent, hparent⟩ := hlinked.exists_parent h.ordered.current_lt hne
    obtain ⟨tree, hdetach, hcuts⟩ :=
      TagTree.exists_cuts hne hnode ((TagTree.parent?_of_node? hnode).symm.trans hparent)
    refine ⟨tree, hdetach, fun id => ⟨fun hinside => ?_, fun houtside => ?_⟩⟩
    · have hle : tree.size ≤ id := hcuts.size.symm ▸ (h.ordered.inSubtree_iff.1 hinside).1
      exact List.getElem?_eq_none hle
    · by_cases hfront : id < r.current
      · exact hcuts.node?_eq hlinked hparent hfront
      · have hbehind : r.tree.size ≤ id := Nat.not_lt.1 fun hlt =>
          houtside (h.ordered.inSubtree_iff.2 ⟨Nat.not_lt.1 hfront, hlt⟩)
        have hsize : tree.size ≤ id := hcuts.size.symm ▸ Nat.not_lt.1 hfront
        have hnone : r.tree.node? id = none := List.getElem?_eq_none hbehind
        rw [hnone]
        exact List.getElem?_eq_none hsize

variable {s : TagStream}

theorem Reaches.sound (h : Reaches file limits text r s) : r.Sound := by
  induction h with
  | start declared => exact TagTree.sound_start
  | step reached more taken ih =>
      rw [step?_eq] at taken
      obtain ⟨r₁, htake, heq⟩ := Option.map_eq_some_iff.1 taken
      obtain ⟨rfl, -⟩ := Prod.mk.inj heq
      exact ih.take htake

theorem Reaches.exists_shows (h : Reaches file limits text r s) : ∃ o, r.Shows o := by
  induction h with
  | start declared => exact ⟨_, shows_start⟩
  | @step r r' s s' reached more taken ih =>
      obtain ⟨o, hshows⟩ := ih
      obtain ⟨r₁, htake, hnext⟩ := hshows.take file limits ⟨s.next.1, s.next.2.line⟩
      rw [step?_eq, htake] at taken
      obtain ⟨rfl, -⟩ := Prod.mk.inj (Option.some.inj taken)
      exact ⟨_, hnext⟩

theorem Reaches.consistent (h : Reaches file limits text r s) : r.Consistent := by
  obtain ⟨o, hshows⟩ := h.exists_shows
  exact h.sound.consistent hshows

/-- No tag takes a reader to a position outside its tree. -/
theorem Reaches.exists_step (h : Reaches file limits text r s) : ∃ r₁ next,
    r.takeText? s.next.1.textBefore = some r₁ ∧ r₁.Consistent ∧
      r.step? file limits s.next.1 s.next.2 = some next := by
  obtain ⟨o, hshows⟩ := h.exists_shows
  obtain ⟨r₁, htext, hheard⟩ := hshows.takeText s.next.1.textBefore
  obtain ⟨r', htake, -⟩ := hshows.take file limits ⟨s.next.1, s.next.2.line⟩
  refine ⟨r₁, (r', s.next.2.beyond s.next.1), htext,
    (h.sound.takeText htext).consistent hheard, ?_⟩
  rw [step?_eq, htake, Option.map_some]

/-- The reading goes on until nothing is left. -/
theorem Reaches.exists_run (h : Reaches file limits text r s) : ∃ r' s',
    Reaches file limits text r' s' ∧ s'.isEmpty = true ∧ r.run? file limits s = some r' := by
  fun_induction run? file limits s r with
  | case1 s r hempty => exact ⟨r, s, h, hempty, rfl⟩
  | case2 s r hempty hnone =>
      obtain ⟨r₁, next, -, -, hstep⟩ := h.exists_step
      rw [hstep] at hnone
      cases hnone
  | case3 s r hempty r' s' hstep ih => exact ih (h.step (Bool.eq_false_iff.2 hempty) hstep)

end Reader

/-- Every export is read to its end without leaving the tree, unless it does not begin with an XML
declaration. Between any two tags the tree is consistent. -/
theorem Reading.consistent_throughout (file : String) (limits : Thresholds) (text : Text) :
    ((TagStream.next ⟨text, 0⟩).1.name = "?xml".toList ∧
        (∃ r s, Reader.Reaches file limits text r s ∧ s.isEmpty = true ∧
          Reading.ofExport? file limits text = some (.ok r.reading)) ∨
      (TagStream.next ⟨text, 0⟩).1.name ≠ "?xml".toList ∧
        (Reading.ofExport? file limits text = some (.ok {}) ∨
          Reading.ofExport? file limits text =
            some (.error (.malformedTagStream file (TagStream.next ⟨text, 0⟩).2.line)))) ∧
    ∀ r s, Reader.Reaches file limits text r s → r.Consistent ∧
      (s.isEmpty = false → ∃ r₁ next,
        r.takeText? s.next.1.textBefore = some r₁ ∧ r₁.Consistent ∧
          r.step? file limits s.next.1 s.next.2 = some next) := by
  refine ⟨?_, fun r s hreached => ⟨hreached.consistent, fun _ => hreached.exists_step⟩⟩
  by_cases hname : (TagStream.next ⟨text, 0⟩).1.name = "?xml".toList
  · have hstart : Reader.Reaches file limits text {} (TagStream.next ⟨text, 0⟩).2 := .start hname
    obtain ⟨r, s, hreached, hempty, hrun⟩ := hstart.exists_run
    refine .inl ⟨hname, r, s, hreached, hempty, ?_⟩
    have hnamed : "?xml".toList.isEmpty = false := rfl
    rw [ofExport?]
    simp only [hname, hnamed, Bool.false_and, Bool.false_eq_true, ↓reduceIte, ne_eq,
      not_true_eq_false, hrun, Option.map_some]
  · refine .inr ⟨hname, ?_⟩
    rw [ofExport?]
    simp only [hname, ne_eq, not_false_eq_true, ↓reduceIte]
    split
    · exact .inl rfl
    · exact .inr rfl

/-- A function that is never closed. -/
def openExport : Text := "<?xml version='1.0'?><unit><function>int <name>f</name>".toList

def openReader : Reader where
  tree := ⟨[{ tag := "unknown".toList, children := [1] },
    { tag := "function".toList, parent := some 0, line := 1 }]⟩
  current := 1
  depth := 1
  unitLine := some 0

theorem Reading.consistent_in_openExport :
    let s : TagStream := ⟨"int <name>f</name>".toList, 0⟩
    Reader.Reaches "f.c" {} openExport openReader s ∧ openReader.Consistent ∧
      s.isEmpty = false ∧ ∃ r₁ next, openReader.takeText? s.next.1.textBefore = some r₁ ∧
        r₁.Consistent ∧ openReader.step? "f.c" {} s.next.1 s.next.2 = some next := by
  intro s
  have hunit : Reader.Reaches "f.c" {} openExport { unitLine := some 0 }
      ⟨"<function>int <name>f</name>".toList, 0⟩ :=
    .step (.start (by decide +kernel)) (by decide +kernel) (by decide +kernel)
  have hreached : Reader.Reaches "f.c" {} openExport openReader s :=
    hunit.step (by decide +kernel) (by decide +kernel)
  have hmore : s.isEmpty = false := by decide +kernel
  obtain ⟨-, hthroughout⟩ := Reading.consistent_throughout "f.c" {} openExport
  obtain ⟨hconsistent, hnext⟩ := hthroughout openReader s hreached
  exact ⟨hreached, hconsistent, hmore, hnext hmore⟩

end ClonePrint
