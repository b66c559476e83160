import ClonePrint.Export.TagTree

/-!
# Reading subtrees off the list of nodes

Nodes are appended in document order, and every node stands behind its parent. A
subtree that is complete therefore occupies a stretch of positions, and so do the
children of a node, one behind the other. The sketch of a function is a walk over
such a stretch. It looks at tags, texts and parents only, so linking more children
or cutting the list short behind the stretch does not change it.
-/
namespace ClonePrint.TagTree

/-- The children in the list and their subtrees take up the positions from `start` to
`stop`, without a gap. -/
inductive Tile (t : TagTree) : Nat → Nat → List Nat → Prop
  | nil (n : Nat) : Tile t n n []
  | cons {start middle stop : Nat} {node : TagNode} {more : List Nat}
      (found : t.node? start = some node) (inner : Tile t (start + 1) middle node.children)
      (rest : Tile t middle stop more) : Tile t start stop (start :: more)

theorem Tile.le {t : TagTree} {start stop : Nat} {ids : List Nat} (h : Tile t start stop ids) :
    start ≤ stop := by
  induction h with
  | nil n => exact Nat.le_refl n
  | cons found inner rest ihinner ihrest => omega

theorem Tile.bounds {t : TagTree} {start stop : Nat} {ids : List Nat} (h : Tile t start stop ids)
    {id : Nat} (hid : id ∈ ids) : start ≤ id ∧ id < stop := by
  induction h with
  | nil n => cases hid
  | cons found inner rest ihinner ihrest =>
      have hinner := inner.le
      have hrest := rest.le
      rcases List.mem_cons.1 hid with rfl | hid
      · omega
      · have hmore := ihrest hid
        omega

theorem Tile.congr {t t' : TagTree} {start stop : Nat} {ids : List Nat} (h : Tile t start stop ids)
    (hsame : ∀ id, start ≤ id → id < stop → t'.node? id = t.node? id) : Tile t' start stop ids := by
  induction h with
  | nil n => exact .nil n
  | cons found inner rest ihinner ihrest =>
      have hinner := inner.le
      have hrest := rest.le
      refine .cons ((hsame _ (Nat.le_refl _) (by omega)).trans found) (ihinner ?_) (ihrest ?_)
      · exact fun id hid hlt => hsame id (by omega) (by omega)
      · exact fun id hid hlt => hsame id (by omega) hlt

theorem Tile.append {t : TagTree} {start middle stop : Nat} {a b : List Nat}
    (ha : Tile t start middle a) (hb : Tile t middle stop b) : Tile t start stop (a ++ b) := by
  induction ha with
  | nil n => exact hb
  | cons found inner rest _ ihrest => exact .cons found inner (ihrest hb)

/-- The positions of a stretch of subtrees are counted up one by one. -/
theorem Tile.preorderWithin {t : TagTree} {start stop : Nat} {ids : List Nat}
    (h : Tile t start stop ids) {depth : Nat} (hdepth : stop - start ≤ depth) :
    ∃ parts, ids.mapM (t.preorderWithin? depth) = some parts ∧
      parts.flatten = List.range' start (stop - start) := by
  induction h generalizing depth with
  | nil n => exact ⟨[], rfl, by simp⟩
  | @cons start middle stop node more found inner rest ihinner ihrest =>
      have hinner := inner.le
      have hrest := rest.le
      obtain ⟨depth, rfl⟩ : ∃ d, depth = d + 1 := ⟨depth - 1, by omega⟩
      obtain ⟨below, hbelow, hflat⟩ := ihinner (show middle - (start + 1) ≤ depth by omega)
      obtain ⟨behind, hbehind, hflat'⟩ := ihrest (show stop - middle ≤ depth + 1 by omega)
      have hfirst : t.preorderWithin? (depth + 1) start = some (start :: below.flatten) := by
        rw [preorderWithin?, found, Option.bind_some, hbelow, Option.map_some]
      refine ⟨(start :: below.flatten) :: behind, ?_, ?_⟩
      · rw [List.mapM_cons, hfirst, hbehind]
        rfl
      · have hlength : stop - start = (middle - (start + 1)) + 1 + (stop - middle) := by omega
        have hnext : start + (middle - (start + 1) + 1) = middle := by omega
        rw [List.flatten_cons, hflat, hflat', hlength, List.range'_append_1.symm, hnext,
          List.range'_succ]

theorem preorder?_of_tile {t : TagTree} {id : Nat} {node : TagNode} (hnode : t.node? id = some node)
    (htile : Tile t (id + 1) t.size node.children) :
    t.preorder? id = some (List.range' id (t.size - id)) := by
  have hlt : id < t.size := (List.getElem?_eq_some_iff.1 hnode).1
  have hself : Tile t id t.size [id] := .cons hnode htile (.nil _)
  obtain ⟨parts, hparts, hflat⟩ :=
    hself.preorderWithin (show t.size - id ≤ t.size + 1 by omega)
  rw [List.mapM_cons] at hparts
  cases hid : t.preorderWithin? (t.size + 1) id with
  | none => simp [hid] at hparts
  | some ids =>
      have hids : parts = [ids] := by simpa [hid] using hparts.symm
      rw [preorder?, ← size, hid]
      simpa [hids] using hflat

/-- Every node stands behind its parent. -/
def Rooted (t : TagTree) : Prop :=
  ∀ id node parent, t.node? id = some node → node.parent = some parent → parent < id

/-- The first nodes of two trees differ in nothing but their children. -/
def Alike (n : Nat) (t t' : TagTree) : Prop :=
  ∀ id < n, ∃ a b, t.node? id = some a ∧ t'.node? id = some b ∧
    a.tag = b.tag ∧ a.text = b.text ∧ a.parent = b.parent

section
variable {t t' : TagTree} {n : Nat}

theorem Alike.mono {m : Nat} (h : Alike n t t') (hle : m ≤ n) : Alike m t t' :=
  fun id hid => h id (Nat.lt_of_lt_of_le hid hle)

/-- The way up from a node leads through the nodes in front of it. -/
theorem Alike.tagAbove_eq (h : Alike n t t') (hrooted : Rooted t) (skip : Text) {id : Nat}
    (hid : id < n) {steps steps' : Nat} (hsteps : id < steps) (hsteps' : id < steps') :
    t.tagAbove skip steps (some id) = t'.tagAbove skip steps' (some id) := by
  -- How many steps are left does not matter as long as they suffice for the way up.
  induction id using Nat.strongRecOn generalizing steps steps' with
  | ind id ih =>
      obtain ⟨steps, rfl⟩ : ∃ s, steps = s + 1 := ⟨steps - 1, by omega⟩
      obtain ⟨steps', rfl⟩ : ∃ s, steps' = s + 1 := ⟨steps' - 1, by omega⟩
      obtain ⟨a, b, ha, hb, htag, -, hparent⟩ := h id hid
      rw [tagAbove, tagAbove, ha, hb, Option.bind_some, Option.bind_some, htag]
      split
      · cases hup : a.parent with
        | none =>
            rw [← hparent, hup]
            cases steps <;> cases steps' <;> rfl
        | some parent =>
            have hlt := hrooted id a parent ha hup
            rw [← hparent, hup]
            exact ih parent hlt (by omega) (by omega) (by omega)
      · rfl

theorem Alike.sketchNode?_eq (h : Alike n t t') (hrooted : Rooted t) (s : Sketch) {id : Nat}
    (hid : id < n) : t.sketchNode? s id = t'.sketchNode? s id := by
  obtain ⟨a, b, ha, hb, htag, htext, hparent⟩ := h id hid
  have hlt : id < t.nodes.length := (List.getElem?_eq_some_iff.1 ha).1
  have hlt' : id < t'.nodes.length := (List.getElem?_eq_some_iff.1 hb).1
  have habove : t.ancestorTag? id "name".toList = t'.ancestorTag? id "name".toList := by
    rw [ancestorTag?, ancestorTag?, ha, hb, Option.map_some, Option.map_some, ← hparent]
    cases hup : a.parent with
    | none =>
        obtain ⟨k, hk⟩ : ∃ k, t.nodes.length = k + 1 := ⟨t.nodes.length - 1, by omega⟩
        obtain ⟨k', hk'⟩ : ∃ k, t'.nodes.length = k + 1 := ⟨t'.nodes.length - 1, by omega⟩
        rw [hk, hk']
        rfl
    | some parent =>
        have hlow := hrooted id a parent ha hup
        have hinside : parent < t.nodes.length := by omega
        have hinside' : parent < t'.nodes.length := by omega
        rw [h.tagAbove_eq hrooted _ (by omega) hinside hinside']
  rw [sketchNode?, sketchNode?, ha, hb, Option.bind_some, Option.bind_some, htext, htag, habove]

theorem Alike.foldlM_eq (h : Alike n t t') (hrooted : Rooted t) {ids : List Nat}
    (hids : ∀ id ∈ ids, id < n) (s : Sketch) :
    ids.foldlM t.sketchNode? s = ids.foldlM t'.sketchNode? s := by
  induction ids generalizing s with
  | nil => rfl
  | cons id ids ih =>
      rw [List.foldlM_cons, List.foldlM_cons, h.sketchNode?_eq hrooted s (hids id (by simp))]
      exact congrArg _ (funext fun s => ih (fun x hx => hids x (List.mem_cons_of_mem id hx)) s)

end

theorem size_reset {t : TagTree} (h : 0 < t.size) : t.reset.size = 1 := by
  rw [size] at h
  rw [reset, size, List.length_map, List.length_take]
  omega

section
variable {t t' : TagTree} {parent id : Nat} {node : TagNode}

/-- From `t` to `t'` one node is added at the end. -/
structure Grows (t : TagTree) (parent : Nat) (node : TagNode) (t' : TagTree) : Prop where
  size : t'.size = t.size + 1
  added : t'.node? t.size = some { node with parent := some parent }
  linked : ∀ p, t.node? parent = some p →
    t'.node? parent = some { p with children := p.children ++ [t.size] }
  others : ∀ id < t.size, id ≠ parent → t'.node? id = t.node? id

theorem exists_grows (h : parent < t.size) (node : TagNode) :
    ∃ t', t.append? parent node = some (t.size, t') ∧ Grows t parent node t' := by
  obtain ⟨linked, hlinked⟩ : ∃ linked, linked = t.nodes.modify parent fun p =>
      { p with children := p.children ++ [t.nodes.length] } := ⟨_, rfl⟩
  have hlength : linked.length = t.nodes.length := by rw [hlinked, List.length_modify]
  have happend : t.append? parent node =
      some (t.size, ⟨linked ++ [{ node with parent := some parent }]⟩) := by
    rw [hlinked]
    exact if_pos h
  refine ⟨_, happend, ?_, ?_, fun p hp => ?_, fun i hi hne => ?_⟩
  · simp only [size, List.length_append, hlength, List.length_singleton]
  · simp only [node?, size]
    rw [List.getElem?_append_right (by omega), hlength, Nat.sub_self]
    rfl
  · simp only [node?, size] at h hp ⊢
    rw [List.getElem?_append_left (by omega), hlinked, List.getElem?_modify_eq, hp]
    rfl
  · simp only [node?, size] at hi ⊢
    rw [List.getElem?_append_left (by omega), hlinked, List.getElem?_modify_ne _ _ (Ne.symm hne)]

theorem Grows.alike (h : Grows t parent node t') : Alike t.size t t' := by
  intro i hi
  have hsome : t.node? i = some t.nodes[i] := List.getElem?_eq_getElem hi
  by_cases hparent : i = parent
  · subst hparent
    exact ⟨_, _, hsome, h.linked _ hsome, rfl, rfl, rfl⟩
  · exact ⟨_, _, hsome, (h.others i hi hparent).trans hsome, rfl, rfl, rfl⟩

theorem Grows.rooted (h : Grows t parent node t') (hrooted : Rooted t) (hparent : parent < t.size) :
    Rooted t' := by
  intro i a p ha hp
  have hi : i < t.size + 1 := by
    rw [← h.size]
    exact (List.getElem?_eq_some_iff.1 ha).1
  by_cases hlast : i = t.size
  · subst hlast
    rw [h.added, Option.some.injEq] at ha
    rw [← ha] at hp
    obtain rfl := Option.some.inj hp
    exact hparent
  · obtain ⟨b, a', hb, ha', -, -, hsame⟩ := h.alike i (by omega)
    rw [ha] at ha'
    obtain rfl := Option.some.inj ha'
    exact hrooted i b p hb (hsame.trans hp)

/-- From `t` to `t'` the list is cut in front of a node, and the node is unlinked. -/
structure Cuts (t : TagTree) (id parent : Nat) (t' : TagTree) : Prop where
  size : t'.size = id
  unlinked : ∀ p, parent < id → t.node? parent = some p →
    t'.node? parent = some { p with children := p.children.filter (· != id) }
  others : ∀ i < id, i ≠ parent → t'.node? i = t.node? i

theorem exists_cuts (hid : id ≠ root) (hnode : t.node? id = some node)
    (hparent : node.parent = some parent) : ∃ t', t.detach? id = some t' ∧ Cuts t id parent t' := by
  have hlt : id < t.nodes.length := (List.getElem?_eq_some_iff.1 hnode).1
  refine ⟨⟨(t.nodes.modify parent fun p =>
    { p with children := p.children.filter (· != id) }).take id⟩, ?_, ?_, fun p hp hsome => ?_,
    fun i hi hne => ?_⟩
  · rw [detach?, if_neg hid, hnode, Option.map_some, hparent]
  · rw [size, List.length_take, List.length_modify]
    omega
  · rw [node?] at hsome ⊢
    rw [List.getElem?_take_of_lt hp, List.getElem?_modify_eq, hsome]
    rfl
  · rw [node?, List.getElem?_take_of_lt hi, List.getElem?_modify_ne _ _ (Ne.symm hne)]
    rfl

theorem Cuts.alike (h : Cuts t id parent t') (hid : id ≤ t.size) : Alike id t t' := by
  intro i hi
  have hlt : i < t.nodes.length := Nat.lt_of_lt_of_le hi hid
  have hsome : t.node? i = some t.nodes[i] := List.getElem?_eq_getElem hlt
  by_cases hparent : i = parent
  · subst hparent
    exact ⟨_, _, hsome, h.unlinked _ hi hsome, rfl, rfl, rfl⟩
  · exact ⟨_, _, hsome, (h.others i hi hparent).trans hsome, rfl, rfl, rfl⟩

theorem Cuts.rooted (h : Cuts t id parent t') (hrooted : Rooted t) (hid : id ≤ t.size) :
    Rooted t' := by
  intro i b p hb hp
  have hi : i < id := by
    rw [← h.size]
    exact (List.getElem?_eq_some_iff.1 hb).1
  obtain ⟨a, b', ha, hb', -, -, hsame⟩ := h.alike hid i hi
  rw [hb] at hb'
  obtain rfl := Option.some.inj hb'
  exact hrooted i a p ha (hsame.trans hp)

end

end ClonePrint.TagTree
