import ClonePrint.Proofs.Arena

/-!
# Parents and children

Every node but the root hangs below one parent, and the parent lists it once. Nodes are numbered
in document order: a node hangs below the one in front of it, or below one that lies on the way
from there up to the root. The innermost open element lies on the way up from the last node, so
the nodes from it on are its subtree, and cutting the list in front of it drops just that.
-/
namespace ClonePrint

def TagNode.without (id : Nat) (node : TagNode) : TagNode :=
  { node with children := node.children.filter (· != id) }

namespace TagTree

def parent? (id : Nat) (t : TagTree) : Option Nat := (t.node? id).bind TagNode.parent

/-- The way from a node up to the root. -/
inductive Ascent (t : TagTree) : Nat → List Nat → Prop
  | root : Ascent t root [root]
  | step {id parent : Nat} {ids : List Nat} (above : t.parent? id = some parent)
      (rest : Ascent t parent ids) : Ascent t id (id :: ids)

/-- A node is in the subtree of every node on its way up. -/
def InSubtree (t : TagTree) (top id : Nat) : Prop := ∃ ids, t.Ascent id ids ∧ top ∈ ids

/-- Every node but the root hangs below a node in front of it, which lists it among its children,
and no other node does. -/
structure Linked (t : TagTree) : Prop where
  parent : ∀ id < t.size, id = root ∧ t.parent? id = none ∨ ∃ p < id, t.parent? id = some p
  children : ∀ id node, t.node? id = some node →
    node.children = (List.range t.size).filter fun i => t.parent? i = some id

/-- The nodes are numbered in document order, and a node lies on the way up from the last one. -/
structure Ordered (t : TagTree) (current : Nat) : Prop where
  linked : t.Linked
  pos : 0 < t.size
  order : ∀ id, id + 1 < t.size → ∃ p, t.parent? (id + 1) = some p ∧ t.InSubtree p id
  last : t.InSubtree current (t.size - 1)

section

variable {t t' : TagTree} {id top parent current : Nat} {ids : List Nat} {node : TagNode}

theorem parent?_of_node? (h : t.node? id = some node) : t.parent? id = node.parent := by
  rw [parent?, h, Option.bind_some]

theorem lt_size_of_node? (h : t.node? id = some node) : id < t.size :=
  (List.getElem?_eq_some_iff.1 h).1

theorem exists_node?_of_lt (h : id < t.size) : ∃ node, t.node? id = some node :=
  ⟨_, List.getElem?_eq_getElem h⟩

theorem lt_size_of_parent? (h : t.parent? id = some parent) : id < t.size := by
  obtain ⟨node, hnode, -⟩ := Option.bind_eq_some_iff.1 h
  exact lt_size_of_node? hnode

theorem Linked.parent_lt (h : t.Linked) (hparent : t.parent? id = some parent) : parent < id := by
  obtain ⟨-, hnone⟩ | ⟨p, hlt, hsome⟩ := h.parent id (lt_size_of_parent? hparent)
  · rw [hnone] at hparent
    cases hparent
  · rw [hsome] at hparent
    exact Option.some.inj hparent ▸ hlt

theorem Linked.parent?_root (h : t.Linked) : t.parent? root = none := by
  cases hparent : t.parent? root with
  | none => rfl
  | some p => exact absurd (h.parent_lt hparent) (Nat.not_lt_zero p)

theorem Linked.exists_parent (h : t.Linked) (hid : id < t.size) (hne : id ≠ root) :
    ∃ p, t.parent? id = some p := by
  obtain ⟨hroot, -⟩ | ⟨p, -, hsome⟩ := h.parent id hid
  · exact absurd hroot hne
  · exact ⟨p, hsome⟩

theorem Linked.eq_root (h : t.Linked) (hid : id < t.size) (hnone : t.parent? id = none) :
    id = root := by
  obtain ⟨hroot, -⟩ | ⟨p, -, hsome⟩ := h.parent id hid
  · exact hroot
  · rw [hnone] at hsome
    cases hsome

theorem Linked.mem_children (h : t.Linked) (hnode : t.node? id = some node) {child : Nat} :
    child ∈ node.children ↔ t.parent? child = some id := by
  rw [h.children id node hnode, List.mem_filter, List.mem_range, decide_eq_true_eq]
  exact ⟨And.right, fun hparent => ⟨lt_size_of_parent? hparent, hparent⟩⟩

theorem Linked.nodup_children (h : t.Linked) (hnode : t.node? id = some node) :
    node.children.Nodup := by
  rw [h.children id node hnode]
  exact List.nodup_range.filter _

/-! ### The way up -/

theorem Ascent.self_mem (h : t.Ascent id ids) : id ∈ ids := by
  cases h with
  | root => exact List.mem_singleton_self _
  | step above rest => exact List.mem_cons_self

theorem Ascent.root_mem (h : t.Ascent id ids) : TagTree.root ∈ ids := by
  induction h with
  | root => exact List.mem_singleton_self _
  | step above rest ih => exact List.mem_cons_of_mem _ ih

theorem Ascent.le (h : t.Ascent id ids) (hlinked : t.Linked) (htop : top ∈ ids) : top ≤ id := by
  induction h with
  | root => exact Nat.le_of_eq (List.mem_singleton.1 htop)
  | step above rest ih =>
      obtain rfl | hrest := List.mem_cons.1 htop
      · exact Nat.le_refl _
      · exact Nat.le_trans (ih hrest) (Nat.le_of_lt (hlinked.parent_lt above))

theorem Ascent.lt_size (h : t.Ascent id ids) (hpos : 0 < t.size) : id < t.size := by
  cases h with
  | root => exact hpos
  | step above rest => exact lt_size_of_parent? above

/-- The way up leads through the parent. -/
theorem Ascent.exists_tail (h : t.Ascent id ids) (hlinked : t.Linked)
    (hparent : t.parent? id = some parent) : ∃ more, ids = id :: more ∧ t.Ascent parent more := by
  cases h with
  | root =>
      rw [hlinked.parent?_root] at hparent
      cases hparent
  | step above rest =>
      rw [hparent] at above
      obtain rfl := Option.some.inj above
      exact ⟨_, rfl, rest⟩

/-- There is one way up only. -/
theorem Ascent.unique {ids' : List Nat} (h : t.Ascent id ids) (hlinked : t.Linked)
    (h' : t.Ascent id ids') : ids = ids' := by
  induction h generalizing ids' with
  | root =>
      cases h' with
      | root => rfl
      | step above rest =>
          rw [hlinked.parent?_root] at above
          cases above
  | step above rest ih =>
      obtain ⟨more, rfl, hmore⟩ := h'.exists_tail hlinked above
      rw [ih hmore]

/-- From a node on the way up it goes on as from anywhere below. -/
theorem Ascent.exists_from (h : t.Ascent id ids) (htop : top ∈ ids) :
    ∃ above, t.Ascent top above ∧ above ⊆ ids := by
  induction h with
  | root =>
      obtain rfl := List.mem_singleton.1 htop
      exact ⟨_, .root, List.Subset.refl _⟩
  | step above rest ih =>
      obtain rfl | hrest := List.mem_cons.1 htop
      · exact ⟨_, .step above rest, List.Subset.refl _⟩
      · obtain ⟨more, hmore, hsub⟩ := ih hrest
        exact ⟨more, hmore, List.subset_cons_of_subset _ hsub⟩

theorem Ascent.congr (h : t.Ascent id ids) (hlinked : t.Linked)
    (hsame : ∀ i ≤ id, t'.parent? i = t.parent? i) : t'.Ascent id ids := by
  induction h with
  | root => exact .root
  | step above rest ih =>
      have hlt := hlinked.parent_lt above
      exact .step ((hsame _ (Nat.le_refl _)).trans above)
        (ih fun i hi => hsame i (Nat.le_trans hi (Nat.le_of_lt hlt)))

theorem InSubtree.self (h : t.Ascent id ids) : t.InSubtree id id := ⟨ids, h, h.self_mem⟩

theorem InSubtree.exists_ascent (h : t.InSubtree top id) : ∃ ids, t.Ascent top ids := by
  obtain ⟨ids, hascent, htop⟩ := h
  obtain ⟨above, habove, -⟩ := hascent.exists_from htop
  exact ⟨above, habove⟩

theorem InSubtree.congr (h : t.InSubtree top id) (hlinked : t.Linked)
    (hsame : ∀ i ≤ id, t'.parent? i = t.parent? i) : t'.InSubtree top id := by
  obtain ⟨ids, hascent, htop⟩ := h
  exact ⟨ids, hascent.congr hlinked hsame, htop⟩

/-- What is in a subtree is in those around it. -/
theorem InSubtree.of_parent (h : t.InSubtree id current) (hlinked : t.Linked)
    (hparent : t.parent? id = some parent) : t.InSubtree parent current := by
  obtain ⟨ids, hascent, hid⟩ := h
  obtain ⟨above, habove, hsub⟩ := hascent.exists_from hid
  obtain ⟨more, rfl, hmore⟩ := habove.exists_tail hlinked hparent
  exact ⟨ids, hascent, hsub (List.mem_cons_of_mem _ hmore.self_mem)⟩

/-- In document order a subtree has no gaps. -/
theorem Ordered.inSubtree_pred (h : t.Ordered current) (hid : id + 1 < t.size)
    (hsub : t.InSubtree top (id + 1)) (hle : top ≤ id) : t.InSubtree top id := by
  obtain ⟨p, hparent, ids, hascent, hp⟩ := h.order id hid
  obtain ⟨ids', hascent', htop⟩ := hsub
  obtain ⟨more, rfl, hmore⟩ := hascent'.exists_tail h.linked hparent
  obtain rfl | htop := List.mem_cons.1 htop
  · omega
  · obtain ⟨above, habove, hsub⟩ := hascent.exists_from hp
    rw [hmore.unique h.linked habove] at htop
    exact ⟨ids, hascent, hsub htop⟩

/-- The nodes from the innermost open element on are its subtree. -/
theorem Ordered.inSubtree_iff (h : t.Ordered current) :
    t.InSubtree current id ↔ current ≤ id ∧ id < t.size := by
  constructor
  · rintro ⟨ids, hascent, hcurrent⟩
    exact ⟨hascent.le h.linked hcurrent, hascent.lt_size h.pos⟩
  · rintro ⟨hle, hlt⟩
    -- Downwards from the last node, every node on the way is in the subtree.
    obtain ⟨n, hn⟩ : ∃ n, t.size - 1 = id + n := ⟨t.size - 1 - id, by omega⟩
    induction n generalizing id with
    | zero => exact (show t.size - 1 = id from hn) ▸ h.last
    | succ n ih =>
        have hnext : t.InSubtree current (id + 1) := ih (by omega) (by omega) (by omega)
        exact h.inSubtree_pred (by omega) hnext hle

theorem Ordered.current_lt (h : t.Ordered current) : current < t.size := by
  obtain ⟨ids, hascent⟩ := h.last.exists_ascent
  exact hascent.lt_size h.pos

/-- The element around the innermost one lies on the way up from the last node as well. -/
theorem Ordered.up (h : t.Ordered current) (hparent : t.parent? current = some parent) :
    t.Ordered parent :=
  ⟨h.linked, h.pos, h.order, h.last.of_parent h.linked hparent⟩

/-! ### Nodes that are added and cut off -/

theorem Alike.parent?_eq {n : Nat} (h : Alike n t t') (hid : id < n) :
    t'.parent? id = t.parent? id := by
  obtain ⟨a, b, ha, hb, -, -, hparent⟩ := h id hid
  rw [parent?_of_node? ha, parent?_of_node? hb, hparent]

theorem Grows.parent?_added (h : Grows t parent node t') : t'.parent? t.size = some parent :=
  parent?_of_node? h.added

theorem Linked.grow (h : t.Linked) (g : Grows t parent node t') (hlt : parent < t.size)
    (hleaf : node.children = []) : t'.Linked := by
  have hold {id : Nat} (hid : id < t.size) : t'.parent? id = t.parent? id := g.alike.parent?_eq hid
  have hlisted (id : Nat) : ((List.range t'.size).filter fun i => t'.parent? i = some id) =
      ((List.range t.size).filter fun i => t.parent? i = some id) ++
        if parent = id then [t.size] else [] := by
    have hfront : ((List.range t.size).filter fun i => t'.parent? i = some id) =
        (List.range t.size).filter fun i => t.parent? i = some id :=
      List.filter_congr fun i hi => by rw [hold (List.mem_range.1 hi)]
    rw [g.size, List.range_succ, List.filter_append, hfront, List.filter_cons, List.filter_nil,
      g.parent?_added]
    simp only [Option.some.injEq, decide_eq_true_eq]
  refine ⟨fun id hid => ?_, fun id child hchild => ?_⟩
  · by_cases hlast : id = t.size
    · subst hlast
      exact .inr ⟨parent, hlt, g.parent?_added⟩
    · have hid : id < t.size := by
        rw [g.size] at hid
        omega
      rw [hold hid]
      exact h.parent id hid
  · rw [hlisted]
    have hid : id < t.size + 1 := g.size ▸ lt_size_of_node? hchild
    by_cases hlast : id = t.size
    · subst hlast
      -- Nothing hangs below the new node.
      have hnone : ((List.range t.size).filter fun i => t.parent? i = some t.size) = [] := by
        refine List.filter_eq_nil_iff.2 fun i hi hparent => ?_
        have hbelow := h.parent_lt (of_decide_eq_true hparent)
        have := List.mem_range.1 hi
        omega
      rw [g.added, Option.some.injEq] at hchild
      rw [← hchild, hnone, if_neg (Nat.ne_of_lt hlt)]
      exact hleaf
    · obtain ⟨before, hbefore⟩ := exists_node?_of_lt (show id < t.size by omega)
      rw [← h.children id before hbefore]
      by_cases hparent : parent = id
      · subst hparent
        rw [g.linked _ hbefore, Option.some.injEq] at hchild
        rw [← hchild, if_pos rfl]
      · rw [g.others id (by omega) (Ne.symm hparent), hbefore, Option.some.injEq] at hchild
        rw [← hchild, if_neg hparent, List.append_nil]

/-- A node that is appended below the innermost element is the last one. -/
theorem Ordered.grow (h : t.Ordered current) (g : Grows t current node t')
    (hleaf : node.children = []) : t'.Ordered t.size := by
  have hold {id : Nat} (hid : id < t.size) : ∀ i ≤ id, t'.parent? i = t.parent? i :=
    fun i hi => g.alike.parent?_eq (Nat.lt_of_le_of_lt hi hid)
  have hpos := h.pos
  refine ⟨h.linked.grow g h.current_lt hleaf, ?_, fun id hid => ?_, ?_⟩
  · rw [g.size]
    exact Nat.succ_pos _
  · rw [g.size] at hid
    by_cases hlast : id + 1 = t.size
    · have hid : id = t.size - 1 := by omega
      rw [hlast]
      exact ⟨current, g.parent?_added, hid ▸ h.last.congr h.linked (hold (by omega))⟩
    · obtain ⟨p, hparent, hsub⟩ := h.order id (by omega)
      refine ⟨p, (g.alike.parent?_eq (by omega)).trans hparent, hsub.congr h.linked (hold ?_)⟩
      omega
  · obtain ⟨ids, hascent⟩ := h.last.exists_ascent
    rw [g.size, Nat.add_sub_cancel]
    exact InSubtree.self (.step g.parent?_added (hascent.congr h.linked (hold h.current_lt)))

theorem Cuts.node?_eq (c : Cuts t current parent t') (h : t.Linked)
    (hparent : t.parent? current = some parent) (hid : id < current) :
    t'.node? id = (t.node? id).map (TagNode.without current) := by
  obtain ⟨node, hnode⟩ :=
    exists_node?_of_lt (Nat.lt_trans hid (lt_size_of_parent? hparent))
  rw [hnode, Option.map_some]
  by_cases hsame : id = parent
  · subst hsame
    exact c.unlinked node hid hnode
  · rw [c.others id hid hsame, hnode, TagNode.without, List.filter_eq_self.2]
    intro child hchild
    rw [h.mem_children hnode] at hchild
    refine bne_iff_ne.2 fun heq => hsame ?_
    rw [heq, hparent] at hchild
    exact (Option.some.inj hchild).symm

theorem Ordered.le_parent (h : t.Ordered current) (hlt : current < id)
    (hparent : t.parent? id = some parent) : current ≤ parent := by
  obtain ⟨ids, hascent, hmem⟩ :=
    h.inSubtree_iff.2 ⟨Nat.le_of_lt hlt, lt_size_of_parent? hparent⟩
  obtain ⟨more, rfl, hmore⟩ := hascent.exists_tail h.linked hparent
  obtain rfl | hmem := List.mem_cons.1 hmem
  · exact absurd hlt (Nat.lt_irrefl _)
  · exact hmore.le h.linked hmem

/-- In front of the innermost element no node has a child behind it. -/
theorem Ordered.filter_range (h : t.Ordered current) (hid : id < current) :
    ((List.range t.size).filter fun i => t.parent? i = some id).filter (· != current) =
      (List.range current).filter fun i => t.parent? i = some id := by
  obtain ⟨n, hn⟩ : ∃ n, t.size = current + n := ⟨t.size - current, by have := h.current_lt; omega⟩
  rw [hn, List.range_add, List.filter_append, List.filter_append]
  have hback : (((List.range n).map (current + ·)).filter fun i => t.parent? i = some id).filter
      (· != current) = [] := by
    rw [List.filter_eq_nil_iff]
    intro i hi hne
    obtain ⟨hi, hparent⟩ := List.mem_filter.1 hi
    obtain ⟨k, -, rfl⟩ := List.mem_map.1 hi
    have hbehind : current < current + k := by
      rw [bne_iff_ne] at hne
      omega
    have hle := h.le_parent hbehind (of_decide_eq_true hparent)
    omega
  rw [hback, List.append_nil, List.filter_eq_self]
  intro i hi
  have hlt := List.mem_range.1 (List.mem_filter.1 hi).1
  exact bne_iff_ne.2 (Nat.ne_of_lt hlt)

/-- Dropping the subtree of the innermost element leaves the tree as it was in front of it. -/
theorem Ordered.cut (h : t.Ordered current) (c : Cuts t current parent t')
    (hparent : t.parent? current = some parent) : t'.Ordered parent := by
  have hlt := h.linked.parent_lt hparent
  have hcurrent := h.current_lt
  have halike := c.alike (Nat.le_of_lt hcurrent)
  have hold {id : Nat} (hid : id < current) : ∀ i ≤ id, t'.parent? i = t.parent? i :=
    fun i hi => halike.parent?_eq (Nat.lt_of_le_of_lt hi hid)
  refine ⟨⟨fun id hid => ?_, fun id child hchild => ?_⟩, ?_, fun id hid => ?_, ?_⟩
  · rw [c.size] at hid
    rw [halike.parent?_eq hid]
    exact h.linked.parent id (by omega)
  · have hid : id < current := c.size ▸ lt_size_of_node? hchild
    rw [c.node?_eq h.linked hparent hid] at hchild
    obtain ⟨node, hnode, rfl⟩ := Option.map_eq_some_iff.1 hchild
    rw [c.size, TagNode.without, h.linked.children id node hnode]
    refine (h.filter_range hid).trans (List.filter_congr fun i hi => ?_)
    rw [halike.parent?_eq (List.mem_range.1 hi)]
  · rw [c.size]
    omega
  · rw [c.size] at hid
    obtain ⟨p, habove, hsub⟩ := h.order id (by omega)
    exact ⟨p, (halike.parent?_eq hid).trans habove, hsub.congr h.linked (hold (by omega))⟩
  · -- The element around it lies on the way up from the node in front of it.
    obtain ⟨n, hn⟩ : ∃ n, current = n + 1 := ⟨current - 1, by omega⟩
    obtain ⟨p, habove, hsub⟩ := h.order n (by omega)
    rw [← hn, hparent] at habove
    obtain rfl := Option.some.inj habove
    rw [c.size, hn, Nat.add_sub_cancel]
    exact hsub.congr h.linked (hold (by omega))

theorem linked_of_size_eq_one (hsize : t.size = 1) (hroot : t.node? root = some node)
    (hparent : node.parent = none) (hleaf : node.children = []) : t.Linked := by
  have hnone : t.parent? root = none := (parent?_of_node? hroot).trans hparent
  refine ⟨fun id hid => ?_, fun id child hchild => ?_⟩
  · obtain rfl : id = root := by
      rw [hsize] at hid
      exact Nat.lt_one_iff.1 hid
    exact .inl ⟨rfl, hnone⟩
  · obtain rfl : id = root := by
      have hid := lt_size_of_node? hchild
      rw [hsize] at hid
      exact Nat.lt_one_iff.1 hid
    rw [hroot] at hchild
    obtain rfl := Option.some.inj hchild
    have hrange : List.range 1 = [root] := rfl
    rw [hleaf, hsize, hrange, List.filter_cons, hnone]
    rfl

theorem ordered_of_size_eq_one (hsize : t.size = 1) (hroot : t.node? root = some node)
    (hparent : node.parent = none) (hleaf : node.children = []) : t.Ordered root := by
  refine ⟨linked_of_size_eq_one hsize hroot hparent hleaf, ?_, fun id hid => ?_, ?_⟩
  · rw [hsize]
    exact Nat.one_pos
  · omega
  · rw [hsize]
    exact InSubtree.self .root

theorem node?_reset (h : t.node? root = some node) :
    t.reset.node? root = some { node with children := [] } := by
  have htake : (t.nodes.take 1)[root]? = some node :=
    (List.getElem?_take_of_lt Nat.one_pos).trans h
  rw [node?, TagTree.reset, List.getElem?_map, htake]
  rfl

theorem Ordered.reset (h : t.Ordered current) : t.reset.Ordered root := by
  obtain ⟨node, hnode⟩ : ∃ node, t.node? root = some node := exists_node?_of_lt h.pos
  have hparent := h.linked.parent?_root
  rw [parent?_of_node? hnode] at hparent
  exact ordered_of_size_eq_one (size_reset h.pos) (node?_reset hnode) hparent rfl

theorem grows_of_append? {added : Nat × TagTree} (h : t.append? parent node = some added) :
    added.1 = t.size ∧ Grows t parent node added.2 := by
  have hlt : parent < t.size := by
    unfold append? at h
    split at h
    · assumption
    · cases h
  obtain ⟨t', happend, hgrows⟩ := exists_grows hlt node
  rw [happend] at h
  obtain rfl := Option.some.inj h
  exact ⟨rfl, hgrows⟩

end

end TagTree

end ClonePrint
