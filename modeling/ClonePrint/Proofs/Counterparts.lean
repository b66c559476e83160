import ClonePrint.Proofs.Likeness
import ClonePrint.Proofs.Places

/-!
# Trees that differ in places

Two trees have the same shape except where functions are apart: there one function stands in
place of another, and nothing is said about what is below. All other nodes have a counterpart
of the same sort in the other tree. A survey comes to a node and to its counterpart knowing the
same about them, because whatever is called in a function that is apart stands in it.
-/
namespace ClonePrint

namespace SyntaxTree

variable {apart : SyntaxTree → SyntaxTree → Bool}

mutual

/-- Two trees have the same shape and, up to numbers and positions, the same labels, except
where they are apart. -/
def sameShape (apart : SyntaxTree → SyntaxTree → Bool) : SyntaxTree → SyntaxTree → Bool
  | .node label children, .node label' children' =>
      apart (.node label children) (.node label' children') ||
        (label.movedTo label' == label' && sameShapeAll apart children children')

def sameShapeAll (apart : SyntaxTree → SyntaxTree → Bool) :
    List SyntaxTree → List SyntaxTree → Bool
  | [], [] => true
  | t :: more, u :: more' => sameShape apart t u && sameShapeAll apart more more'
  | _, _ => false

end

mutual

/-- The nodes of two trees of one shape, each with its counterpart. Nodes that are apart are
listed, but not what is below them. -/
def pairs (apart : SyntaxTree → SyntaxTree → Bool) :
    SyntaxTree → SyntaxTree → List (SyntaxTree × SyntaxTree)
  | .node label children, .node label' children' =>
      (.node label children, .node label' children') ::
        if apart (.node label children) (.node label' children') then []
        else pairsAll apart children children'

def pairsAll (apart : SyntaxTree → SyntaxTree → Bool) :
    List SyntaxTree → List SyntaxTree → List (SyntaxTree × SyntaxTree)
  | t :: more, u :: more' => pairs apart t u ++ pairsAll apart more more'
  | _, _ => []

end

theorem mem_pairs_self (t u : SyntaxTree) : (t, u) ∈ pairs apart t u := by
  cases t
  cases u
  exact List.mem_cons_self

/-- Below nodes that are not apart every child has its counterpart. -/
theorem pairs_of_not_apart {t u : SyntaxTree} (h : apart t u = false) :
    pairs apart t u = (t, u) :: pairsAll apart t.children u.children := by
  cases t
  cases u
  rw [pairs, h]
  rfl

theorem sameShape_of_not_apart {t u : SyntaxTree} (hshape : sameShape apart t u = true)
    (h : apart t u = false) :
    t.label.movedTo u.label = u.label ∧ sameShapeAll apart t.children u.children = true := by
  cases t
  cases u
  rw [sameShape, h, Bool.false_or, Bool.and_eq_true, beq_iff_eq] at hshape
  exact hshape

theorem kind_eq {t u : SyntaxTree} (hshape : sameShape apart t u = true) (h : apart t u = false) :
    t.kind = u.kind := by
  have hlabel := congrArg SyntaxLabel.kind (sameShape_of_not_apart hshape h).1
  exact hlabel

mutual

/-- Both trees are listed in preorder, with gaps where they are apart. -/
theorem pairs_sublist : ∀ t u : SyntaxTree,
    ((pairs apart t u).map Prod.fst).Sublist t.preorder ∧
      ((pairs apart t u).map Prod.snd).Sublist u.preorder
  | .node label children, .node label' children' => by
      rw [pairs, preorder, preorder, List.map_cons, List.map_cons]
      split
      · exact ⟨.cons_cons _ (List.nil_sublist _), .cons_cons _ (List.nil_sublist _)⟩
      · obtain ⟨hfst, hsnd⟩ := pairsAll_sublist children children'
        exact ⟨.cons_cons _ hfst, .cons_cons _ hsnd⟩

theorem pairsAll_sublist : ∀ ts us : List SyntaxTree,
    ((pairsAll apart ts us).map Prod.fst).Sublist (preorderAll ts) ∧
      ((pairsAll apart ts us).map Prod.snd).Sublist (preorderAll us)
  | t :: more, u :: more' => by
      obtain ⟨hfst, hsnd⟩ := pairs_sublist t u
      obtain ⟨hfst', hsnd'⟩ := pairsAll_sublist more more'
      rw [pairsAll, List.map_append, List.map_append, preorderAll, preorderAll]
      exact ⟨hfst.append hfst', hsnd.append hsnd'⟩
  | [], us => by simp [pairsAll]
  | _ :: _, [] => by simp [pairsAll]

end

/-- Among several trees a node is known by its number, and so is its counterpart. -/
theorem id_eq_iff_of_mem_pairsAll {ts us : List SyntaxTree}
    (hts : ((preorderAll ts).map (·.label.id)).Nodup)
    (hus : ((preorderAll us).map (·.label.id)).Nodup) {p q : SyntaxTree × SyntaxTree}
    (hp : p ∈ pairsAll apart ts us) (hq : q ∈ pairsAll apart ts us) :
    p.1.label.id = q.1.label.id ↔ p.2.label.id = q.2.label.id := by
  have hzip : ((pairsAll apart ts us).map Prod.fst).zip ((pairsAll apart ts us).map Prod.snd) =
      pairsAll apart ts us := by
    rw [← List.unzip_fst, ← List.unzip_snd, List.zip_unzip]
  apply Pairing.id_eq_iff_of_mem_zip
    (hts.sublist ((pairsAll_sublist ts us).1.map _))
    (hus.sublist ((pairsAll_sublist ts us).2.map _))
  · rw [hzip]
    exact hp
  · rw [hzip]
    exact hq

theorem forall₂_of_sameShapeAll {ts us : List SyntaxTree} (h : sameShapeAll apart ts us = true) :
    List.Forall₂ (fun t u => sameShape apart t u = true ∧ pairs apart t u ⊆ pairsAll apart ts us)
      ts us := by
  induction ts generalizing us with
  | nil =>
      cases us with
      | nil => exact .nil
      | cons u more' => cases h
  | cons t more ih =>
      cases us with
      | nil => cases h
      | cons u more' =>
          rw [sameShapeAll, Bool.and_eq_true] at h
          rw [pairsAll]
          constructor
          · exact ⟨h.1, List.subset_append_left _ _⟩
          · exact (ih h.2).imp fun _ _ hmore =>
              ⟨hmore.1, List.subset_append_of_subset_right _ hmore.2⟩

theorem mem_preorder_self (t : SyntaxTree) : t ∈ t.preorder := by
  cases t
  exact List.mem_cons_self

theorem preorder_subset {t c : SyntaxTree} (hc : c ∈ t.children) : c.preorder ⊆ t.preorder := by
  obtain ⟨label, children⟩ := t
  intro n hn
  rw [preorder, preorderAll_eq_flatMap]
  exact List.mem_cons_of_mem _ (List.mem_flatMap_of_mem hc hn)

theorem mem_children_of_child? {field : String} {t c : SyntaxTree} (h : t.child? field = some c) :
    c ∈ t.children := List.mem_of_find?_eq_some h

theorem mem_preorderAll_of_mem {c : SyntaxTree} {ts : List SyntaxTree} (h : c ∈ ts) :
    c ∈ preorderAll ts := by
  rw [preorderAll_eq_flatMap]
  exact List.mem_flatMap_of_mem h (mem_preorder_self c)

end SyntaxTree

open SyntaxTree

namespace Grammar

variable {g : Grammar} {apart : SyntaxTree → SyntaxTree → Bool} {t u : SyntaxTree}

/-- In one place nodes are apart. They are functions, and their parents cannot tell one from the
other. -/
structure Swaps (g : Grammar) (apart : SyntaxTree → SyntaxTree → Bool) : Prop where
  id {t u t' u' : SyntaxTree} : apart t u = true → apart t' u' = true →
    t.label.id = t'.label.id ∧ u.label.id = u'.label.id
  isFunction {t u : SyntaxTree} : apart t u = true → g.isFunction t = true ∧ g.isFunction u = true
  field {t u : SyntaxTree} : apart t u = true → t.label.field = u.label.field
  named {t u : SyntaxTree} : apart t u = true → t.label.named = u.label.named

/-- A node and its counterpart are of the same sort. -/
structure SortsAlike (g : Grammar) (t u : SyntaxTree) : Prop where
  isComment : g.isComment t = g.isComment u
  isFunction : g.isFunction t = g.isFunction u
  isType : g.isType t = g.isType u
  isCall : g.isCall t = g.isCall u
  isIdentifier : g.isIdentifier t = g.isIdentifier u
  isAtomic : g.isAtomic t = g.isAtomic u
  isIdleLiteral : g.isIdleLiteral t = g.isIdleLiteral u

theorem functionName?_eq (hlanguage : g = .python ∨ g = .javaScript) (t : SyntaxTree) :
    g.functionName? t = t.child? "name" := by
  rcases hlanguage with rfl | rfl <;> rfl

namespace Swaps

theorem field_eq (hswaps : g.Swaps apart) (hshape : sameShape apart t u = true) :
    t.label.field = u.label.field := by
  cases h : apart t u with
  | true => exact hswaps.field h
  | false =>
      have hlabel := congrArg SyntaxLabel.field (sameShape_of_not_apart hshape h).1
      exact hlabel

theorem named_eq (hswaps : g.Swaps apart) (hshape : sameShape apart t u = true) :
    t.label.named = u.label.named := by
  cases h : apart t u with
  | true => exact hswaps.named h
  | false =>
      have hlabel := congrArg SyntaxLabel.named (sameShape_of_not_apart hshape h).1
      exact hlabel

/-- The children that fill a field, if any do, are counterparts. -/
theorem child? (hswaps : g.Swaps apart) (name : String)
    (hshape : sameShapeAll apart t.children u.children = true) :
    Option.Rel (fun c d => sameShape apart c d = true ∧
        pairs apart c d ⊆ pairsAll apart t.children u.children)
      (t.child? name) (u.child? name) := by
  have hchildren := forall₂_of_sameShapeAll hshape
  unfold SyntaxTree.child?
  generalize pairsAll apart t.children u.children = listed at hchildren ⊢
  generalize t.children = cs, u.children = ds at hchildren
  induction hchildren with
  | nil => exact .none
  | @cons c d cs ds hcd hmore ih =>
      rw [List.find?_cons, List.find?_cons, hswaps.field_eq hcd.1]
      cases d.label.field == name with
      | true => exact .some hcd
      | false => exact ih

theorem namedChildren (hswaps : g.Swaps apart)
    (hshape : sameShapeAll apart t.children u.children = true) :
    List.Forall₂ (fun c d => sameShape apart c d = true) t.namedChildren u.namedChildren := by
  have hchildren := forall₂_of_sameShapeAll hshape
  unfold SyntaxTree.namedChildren
  generalize pairsAll apart t.children u.children = listed at hchildren
  generalize t.children = cs, u.children = ds at hchildren
  induction hchildren with
  | nil => exact .nil
  | @cons c d cs ds hcd hmore ih =>
      rw [List.filter_cons, List.filter_cons, hswaps.named_eq hcd.1]
      cases d.label.named with
      | true => exact .cons hcd.1 ih
      | false => exact ih

theorem isPythonString_eq (hswaps : python.Swaps apart) (hshape : sameShape apart t u = true) :
    isPythonString t = isPythonString u := by
  cases h : apart t u with
  | true =>
      obtain ⟨ht, hu⟩ := hswaps.isFunction h
      obtain ⟨-, -, -, -, hatomic, -⟩ := eq_false_of_isFunction (.inl rfl) ht
      obtain ⟨-, -, -, -, hatomic', -⟩ := eq_false_of_isFunction (.inl rfl) hu
      exact hatomic.trans hatomic'.symm
  | false => rw [isPythonString, isPythonString, kind_eq hshape h]

theorem sortsAlike (hswaps : g.Swaps apart) (hlanguage : g = .python ∨ g = .javaScript)
    (hshape : sameShape apart t u = true) : g.SortsAlike t u := by
  cases h : apart t u with
  | true =>
      obtain ⟨ht, hu⟩ := hswaps.isFunction h
      obtain ⟨hcomment, htype, hcall, hidentifier, hatomic, hidle⟩ :=
        eq_false_of_isFunction hlanguage ht
      obtain ⟨hcomment', htype', hcall', hidentifier', hatomic', hidle'⟩ :=
        eq_false_of_isFunction hlanguage hu
      exact ⟨hcomment.trans hcomment'.symm, ht.trans hu.symm, htype.trans htype'.symm,
        hcall.trans hcall'.symm, hidentifier.trans hidentifier'.symm,
        hatomic.trans hatomic'.symm, hidle.trans hidle'.symm⟩
  | false =>
      have hkind := kind_eq hshape h
      have hnamed := hswaps.named_eq hshape
      rcases hlanguage with rfl | rfl
      · have hchildren := hswaps.namedChildren (sameShape_of_not_apart hshape h).2
        constructor
        case isIdleLiteral =>
          simp only [python, hkind]
          -- A statement with one named child is decided by the child.
          generalize t.namedChildren = cs, u.namedChildren = ds at hchildren
          cases hchildren with
          | nil => rfl
          | @cons c d cs ds hcd hmore =>
              cases hmore with
              | nil => simp only [hswaps.isPythonString_eq hcd]
              | cons _ _ => rfl
        all_goals simp only [python, isPythonString, hkind]
      · constructor
        all_goals simp only [javaScript, hkind, hnamed]

/-- What is called through a field is a counterpart of what the other call calls there. -/
theorem calleeAt? (hswaps : g.Swaps apart) (field access part : String)
    (haccess : ∀ t, g.isFunction t = true → t.kind ≠ "identifier" ∧ t.kind ≠ access)
    (hshape : sameShapeAll apart t.children u.children = true) :
    Option.Rel (fun c d => (c, d) ∈ pairsAll apart t.children u.children)
      (Grammar.calleeAt? field access part t) (Grammar.calleeAt? field access part u) := by
  have hchild := hswaps.child? field hshape
  unfold Grammar.calleeAt?
  generalize t.child? field = c, u.child? field = d at hchild
  cases hchild with
  | none => exact .none
  | @some c d hcd =>
      obtain ⟨hbelow, hlisted⟩ := hcd
      simp only [Option.bind_some]
      cases h : apart c d with
      | true =>
          obtain ⟨hc, hd⟩ := hswaps.isFunction h
          rw [if_neg (haccess c hc).1, if_neg (haccess c hc).2, if_neg (haccess d hd).1,
            if_neg (haccess d hd).2]
          exact .none
      | false =>
          rw [kind_eq hbelow h]
          split_ifs
          · exact .some (hlisted (mem_pairs_self c d))
          · have hpart := hswaps.child? part (sameShape_of_not_apart hbelow h).2
            rw [pairs_of_not_apart h, List.cons_subset] at hlisted
            generalize c.child? part = x, d.child? part = y at hpart
            cases hpart with
            | none => exact .none
            | @some x y hxy => exact .some (hlisted.2 (hxy.2 (mem_pairs_self x y)))
          · exact .none

/-- A call and its counterpart call counterparts. -/
theorem callee? (hswaps : g.Swaps apart) (hlanguage : g = .python ∨ g = .javaScript)
    (hshape : sameShape apart t u = true) (h : apart t u = false) :
    Option.Rel (fun c d => (c, d) ∈ pairsAll apart t.children u.children)
      (g.callee? t) (g.callee? u) := by
  have hchildren := (sameShape_of_not_apart hshape h).2
  rcases hlanguage with rfl | rfl
  · refine hswaps.calleeAt? "function" "attribute" "attribute" (fun t ht => ?_) hchildren
    have hkind : t.kind = "function_definition" := by simpa [python] using ht
    simp [hkind]
  · simp only [javaScript, kind_eq hshape h]
    refine hswaps.calleeAt? _ "member_expression" "property" (fun t ht => ?_) hchildren
    simp only [javaScript, Bool.and_eq_true, List.contains_iff_mem] at ht
    constructor <;> rintro hkind <;> simp [javaScriptFunctions, hkind] at ht

/-- The names of a function and its counterpart stand at one place. -/
theorem functionName? (hswaps : g.Swaps apart) (hlanguage : g = .python ∨ g = .javaScript)
    (hshape : sameShapeAll apart t.children u.children = true) :
    Option.Rel (fun c d => (c, d) ∈ pairsAll apart t.children u.children)
      (g.functionName? t) (g.functionName? u) := by
  have hchild := hswaps.child? "name" hshape
  rw [functionName?_eq hlanguage, functionName?_eq hlanguage]
  generalize t.child? "name" = c, u.child? "name" = d at hchild
  cases hchild with
  | none => exact .none
  | @some c d hcd => exact .some (hcd.2 (mem_pairs_self c d))

end Swaps

theorem mem_preorder_of_calleeAt? {field access part : String} {n : SyntaxTree}
    (h : Grammar.calleeAt? field access part t = some n) : n ∈ t.preorder := by
  rw [Grammar.calleeAt?, Option.bind_eq_some_iff] at h
  obtain ⟨c, hc, h⟩ := h
  have hbelow := preorder_subset (mem_children_of_child? hc)
  split_ifs at h
  · obtain rfl := Option.some.inj h
    exact hbelow (mem_preorder_self c)
  · exact hbelow (preorder_subset (mem_children_of_child? h) (mem_preorder_self n))

/-- What a call calls stands below it. -/
theorem exists_of_called? (hlanguage : g = .python ∨ g = .javaScript) {i : Nat}
    (h : g.called? t = some i) : ∃ n ∈ t.preorder, n.label.id = i := by
  rw [Grammar.called?] at h
  split_ifs at h
  obtain ⟨n, hn, hid⟩ := Option.map_eq_some_iff.1 h
  refine ⟨n, ?_, hid⟩
  rcases hlanguage with rfl | rfl
  · exact mem_preorder_of_calleeAt? hn
  · exact mem_preorder_of_calleeAt? hn

/-- Nothing is visited that is not in the tree. -/
theorem preorder_subset_of_mem_visited {inFunction : Bool} {n : SyntaxTree}
    (h : n ∈ g.visited inFunction t) : n.preorder ⊆ t.preorder := by
  induction t using forest_induction generalizing inFunction with
  | node label children ih =>
      rw [Grammar.visited, Grammar.visitedAll_eq_flatMap, List.mem_cons] at h
      rcases h with rfl | h
      · exact List.Subset.refl _
      · split_ifs at h
        · obtain ⟨c, hc, hn⟩ := List.mem_flatMap.1 h
          exact List.Subset.trans (ih c hc hn) (preorder_subset hc)
        · cases h

end Grammar

namespace Scene

variable {g : Grammar} {apart : SyntaxTree → SyntaxTree → Bool} {s s' : Scene} {t u : SyntaxTree}
  {more more' : List SyntaxTree}

/-- A survey comes to several trees in a row, and another one to their counterparts. Both know
the same about every node in them that has a counterpart. -/
structure Parallels (g : Grammar) (apart : SyntaxTree → SyntaxTree → Bool)
    (ts us : List SyntaxTree) (s s' : Scene) : Prop where
  shape : sameShapeAll apart ts us = true
  nodup : ((preorderAll ts).map (·.label.id)).Nodup
  nodup' : ((preorderAll us).map (·.label.id)).Nodup
  owner : s.owner.isSome = s'.owner.isSome
  inType : s.inType = s'.inType
  own : ∀ p ∈ pairsAll apart ts us, s.isOwnName g p.1 = s'.isOwnName g p.2
  called : ∀ p ∈ pairsAll apart ts us, s.isCalled g p.1 = s'.isCalled g p.2

theorem isCalled_below (n : SyntaxTree) :
    (s.below g t).isCalled g n = (s.isCalled g n || g.called? t == some n.label.id) := by
  simp only [isCalled, below, List.any_append, List.any_cons, List.any_nil, Bool.or_false]

/-- Surveys begin with the same knowledge. -/
theorem parallels_start (hshape : sameShape apart t u = true)
    (ht : (t.preorder.map (·.label.id)).Nodup) (hu : (u.preorder.map (·.label.id)).Nodup) :
    Parallels g apart [t] [u] {} {} := by
  refine ⟨?_, ?_, ?_, rfl, rfl, fun _ _ => rfl, fun _ _ => rfl⟩
  · rw [sameShapeAll, hshape]
    rfl
  · simpa [preorderAll] using ht
  · simpa [preorderAll] using hu

/-- What is called in a tree stands in it. -/
theorem isCalled_beyond (hlanguage : g = .python ∨ g = .javaScript) {n : SyntaxTree}
    (h : n.label.id ∉ t.preorder.map (·.label.id)) :
    (s.beyond g t).isCalled g n = s.isCalled g n := by
  have hnone : ((g.visited s.owner.isSome t).any fun call => g.called? call == some n.label.id) =
      false := by
    rw [List.any_eq_false]
    intro call hcall hcalled
    obtain ⟨m, hm, hid⟩ := Grammar.exists_of_called? hlanguage (beq_iff_eq.1 hcalled)
    rw [← hid] at h
    exact h (List.mem_map_of_mem (Grammar.preorder_subset_of_mem_visited hcall hm))
  rw [isCalled, beyond, List.any_append, hnone, Bool.or_false, isCalled]

namespace Parallels

variable (hswaps : g.Swaps apart) (hlanguage : g = .python ∨ g = .javaScript)

theorem sameShape (h : Parallels g apart (t :: more) (u :: more') s s') :
    SyntaxTree.sameShape apart t u = true := by
  have hshape := h.shape
  rw [sameShapeAll, Bool.and_eq_true] at hshape
  exact hshape.1

theorem head (h : Parallels g apart (t :: more) (u :: more') s s') :
    Parallels g apart [t] [u] s s' := by
  have hnodup := h.nodup
  have hnodup' := h.nodup'
  have hlisted : pairsAll apart [t] [u] ⊆ pairsAll apart (t :: more) (u :: more') := by
    simp [pairsAll]
  rw [preorderAll, List.map_append] at hnodup hnodup'
  constructor
  · rw [sameShapeAll, h.sameShape]
    rfl
  · simpa [preorderAll] using hnodup.of_append_left
  · simpa [preorderAll] using hnodup'.of_append_left
  · exact h.owner
  · exact h.inType
  · exact fun p hp => h.own p (hlisted hp)
  · exact fun p hp => h.called p (hlisted hp)

include hlanguage in
theorem beyond (h : Parallels g apart (t :: more) (u :: more') s s') :
    Parallels g apart more more' (s.beyond g t) (s'.beyond g u) := by
  have hshape := h.shape
  have hnodup := h.nodup
  have hnodup' := h.nodup'
  have hlisted : pairsAll apart more more' ⊆ pairsAll apart (t :: more) (u :: more') := by
    simp [pairsAll]
  rw [sameShapeAll, Bool.and_eq_true] at hshape
  rw [preorderAll, List.map_append, List.nodup_append'] at hnodup hnodup'
  refine ⟨hshape.2, hnodup.2.1, hnodup'.2.1, h.owner, h.inType, fun p hp => h.own p (hlisted hp),
    fun p hp => ?_⟩
  have hfst : p.1 ∈ preorderAll more :=
    (pairsAll_sublist more more').1.subset (List.mem_map_of_mem hp)
  have hsnd : p.2 ∈ preorderAll more' :=
    (pairsAll_sublist more more').2.subset (List.mem_map_of_mem hp)
  rw [isCalled_beyond hlanguage fun hmem => hnodup.2.2 hmem (List.mem_map_of_mem hfst),
    isCalled_beyond hlanguage fun hmem => hnodup'.2.2 hmem (List.mem_map_of_mem hsnd),
    h.called p (hlisted hp)]

include hswaps hlanguage in
/-- The children of nodes that are not apart are counterparts. -/
theorem children (h : Parallels g apart (t :: more) (u :: more') s s')
    (hkept : apart t u = false) :
    Parallels g apart t.children u.children (s.below g t) (s'.below g u) := by
  have hsorts := hswaps.sortsAlike hlanguage h.sameShape
  have hshape := (sameShape_of_not_apart h.sameShape hkept).2
  have hnodup : ((preorderAll t.children).map (·.label.id)).Nodup := by
    have hnodup := h.head.nodup
    obtain ⟨label, children⟩ := t
    simp only [preorderAll, preorder, List.append_nil, List.map_cons, List.nodup_cons] at hnodup
    exact hnodup.2
  have hnodup' : ((preorderAll u.children).map (·.label.id)).Nodup := by
    have hnodup := h.head.nodup'
    obtain ⟨label, children⟩ := u
    simp only [preorderAll, preorder, List.append_nil, List.map_cons, List.nodup_cons] at hnodup
    exact hnodup.2
  have hlisted : pairsAll apart t.children u.children ⊆
      pairsAll apart (t :: more) (u :: more') := by
    rw [pairsAll, pairs_of_not_apart hkept]
    intro p hp
    simp [hp]
  -- Counterparts have equal numbers in both trees or in neither.
  have hid {c d : SyntaxTree} (hcd : (c, d) ∈ pairsAll apart t.children u.children)
      {p : SyntaxTree × SyntaxTree} (hp : p ∈ pairsAll apart t.children u.children) :
      (c.label.id == p.1.label.id) = (d.label.id == p.2.label.id) := by
    rw [Bool.eq_iff_iff, beq_iff_eq, beq_iff_eq]
    exact id_eq_iff_of_mem_pairsAll hnodup hnodup' hcd hp
  refine ⟨hshape, hnodup, hnodup', ?_, ?_, fun p hp => ?_, fun p hp => ?_⟩
  · rw [below, below, hsorts.isFunction]
    cases g.isFunction u with
    | true => rfl
    | false => exact h.owner
  · rw [below, below, h.inType, hsorts.isType]
  · have hown := h.own p (hlisted hp)
    rw [isOwnName, isOwnName] at hown ⊢
    rw [below, below, hsorts.isFunction]
    cases g.isFunction u with
    | true =>
        have hname := hswaps.functionName? hlanguage hshape
        simp only [↓reduceIte, Option.bind_some]
        generalize g.functionName? t = c, g.functionName? u = d at hname
        cases hname with
        | none => rfl
        | some hcd => exact hid hcd hp
    | false => exact hown
  · rw [isCalled_below, isCalled_below, h.called p (hlisted hp), Grammar.called?, Grammar.called?,
      hsorts.isCall]
    have hcallee := hswaps.callee? hlanguage h.sameShape hkept
    generalize g.callee? t = c, g.callee? u = d at hcallee
    cases g.isCall u with
    | false => rfl
    | true =>
        cases hcallee with
        | none => rfl
        | some hcd => exact congrArg _ (hid hcd hp)

end Parallels

end Scene

/-- Two rows agree in front of some stretch and behind it. -/
def AgreeAround {α β : Type} (same : α → β → Prop) (P : List α → Prop) (P' : List β → Prop)
    (as : List α) (bs : List β) : Prop :=
  ∃ front inner back front' inner' back', as = front ++ inner ++ back ∧
    bs = front' ++ inner' ++ back' ∧ List.Forall₂ same front front' ∧
      List.Forall₂ same back back' ∧ P inner ∧ P' inner'

namespace AgreeAround

variable {α β : Type} {same : α → β → Prop} {P : List α → Prop} {P' : List β → Prop}
  {as cs : List α} {bs ds : List β}

theorem of_inner (hP : P as) (hP' : P' bs) : AgreeAround same P P' as bs :=
  ⟨[], as, [], [], bs, [], by simp, by simp, .nil, .nil, hP, hP'⟩

theorem of_forall₂ (h : List.Forall₂ same as bs) (hP : P []) (hP' : P' []) :
    AgreeAround same P P' as bs :=
  ⟨as, [], [], bs, [], [], by simp, by simp, h, .nil, hP, hP'⟩

theorem append_left (h : List.Forall₂ same cs ds) (hmore : AgreeAround same P P' as bs) :
    AgreeAround same P P' (cs ++ as) (ds ++ bs) := by
  obtain ⟨front, inner, back, front', inner', back', rfl, rfl, hfront, hback, hP, hP'⟩ := hmore
  exact ⟨cs ++ front, inner, back, ds ++ front', inner', back', by simp, by simp,
    List.rel_append h hfront, hback, hP, hP'⟩

theorem append_right (hmore : AgreeAround same P P' as bs) (h : List.Forall₂ same cs ds) :
    AgreeAround same P P' (as ++ cs) (bs ++ ds) := by
  obtain ⟨front, inner, back, front', inner', back', rfl, rfl, hfront, hback, hP, hP'⟩ := hmore
  exact ⟨front, inner, back ++ cs, front', inner', back' ++ ds, by simp, by simp, hfront,
    List.rel_append hback h, hP, hP'⟩

/-- Where nothing can stand in the stretch the rows agree. -/
theorem forall₂ (h : AgreeAround same P P' as bs) (hP : ∀ inner, P inner → inner = [])
    (hP' : ∀ inner, P' inner → inner = []) : List.Forall₂ same as bs := by
  obtain ⟨front, inner, back, front', inner', back', rfl, rfl, hfront, hback, hinner, hinner'⟩ := h
  rw [hP inner hinner, hP' inner' hinner', List.append_nil, List.append_nil]
  exact List.rel_append hfront hback

theorem imp {same₁ : α → β → Prop} {P₁ : List α → Prop} {P₁' : List β → Prop}
    (h : AgreeAround same P P' as bs) (hsame : ∀ a b, same a b → same₁ a b)
    (hP : ∀ inner, P inner → P₁ inner) (hP' : ∀ inner, P' inner → P₁' inner) :
    AgreeAround same₁ P₁ P₁' as bs := by
  obtain ⟨front, inner, back, front', inner', back', has, hbs, hfront, hback, hinner, hinner'⟩ := h
  exact ⟨front, inner, back, front', inner', back', has, hbs, hfront.imp hsame, hback.imp hsame,
    hP inner hinner, hP' inner' hinner'⟩

end AgreeAround

namespace FunctionSite

/-- Two functions in their places are counterparts, with everything in them. -/
structure Matches (g : Grammar) (apart : SyntaxTree → SyntaxTree → Bool)
    (ps : List (SyntaxTree × SyntaxTree)) (x y : FunctionSite) : Prop where
  parallels : x.scene.Parallels g apart [x.node] [y.node] y.scene
  kept : apart x.node y.node = false
  listed : pairs apart x.node y.node ⊆ ps

/-- The functions stand where two trees are apart. -/
def Apart (apart : SyntaxTree → SyntaxTree → Bool) (ps : List (SyntaxTree × SyntaxTree))
    (side : SyntaxTree × SyntaxTree → SyntaxTree) (inner : List FunctionSite) : Prop :=
  ∀ x ∈ inner, ∃ p ∈ ps, apart p.1 p.2 = true ∧ x.node ∈ (side p).preorder

variable {g : Grammar} {apart : SyntaxTree → SyntaxTree → Bool}
  {ps qs : List (SyntaxTree × SyntaxTree)} {side : SyntaxTree × SyntaxTree → SyntaxTree}

theorem Matches.mono {x y : FunctionSite} (h : Matches g apart ps x y) (hsub : ps ⊆ qs) :
    Matches g apart qs x y := ⟨h.parallels, h.kept, List.Subset.trans h.listed hsub⟩

theorem Matches.children_subset {x y : FunctionSite} (h : Matches g apart ps x y) :
    pairsAll apart x.node.children y.node.children ⊆ ps := by
  have hlisted := h.listed
  rw [pairs_of_not_apart h.kept, List.cons_subset] at hlisted
  exact hlisted.2

theorem Apart.mono {inner : List FunctionSite} (h : Apart apart ps side inner) (hsub : ps ⊆ qs) :
    Apart apart qs side inner := fun x hx =>
  (h x hx).imp fun _ hp => ⟨hsub hp.1, hp.2⟩

theorem Apart.nil : Apart apart ps side [] := fun x hx => by cases hx

theorem Apart.eq_nil {inner : List FunctionSite} (h : Apart apart ps side inner)
    (hkept : ∀ p ∈ ps, apart p.1 p.2 = false) : inner = [] := by
  rw [List.eq_nil_iff_forall_not_mem]
  intro x hx
  obtain ⟨p, hp, hapart, -⟩ := h x hx
  rw [hkept p hp] at hapart
  cases hapart

end FunctionSite

namespace Grammar

open FunctionSite

variable {g : Grammar} {apart : SyntaxTree → SyntaxTree → Bool}

mutual

theorem of_mem_functions : ∀ (t : SyntaxTree) {s : Scene} {x : FunctionSite},
    x ∈ g.functions s t →
      x.node ∈ t.preorder ∧ g.isComment x.node = false ∧ g.isFunction x.node = true
  | .node label children, s, x, h => by
      rw [functions, List.mem_append] at h
      rcases h with h | h
      · split_ifs at h
        · obtain ⟨hmem, hsort⟩ := of_mem_functionsAll children h
          exact ⟨List.mem_cons_of_mem _ hmem, hsort⟩
        · cases h
      · split_ifs at h with hfunction
        · rw [List.mem_singleton] at h
          rw [h]
          rw [Bool.and_eq_true, Bool.not_eq_true'] at hfunction
          exact ⟨mem_preorder_self _, hfunction⟩
        · cases h

theorem of_mem_functionsAll : ∀ (ts : List SyntaxTree) {s : Scene} {x : FunctionSite},
    x ∈ g.functionsAll s ts →
      x.node ∈ preorderAll ts ∧ g.isComment x.node = false ∧ g.isFunction x.node = true
  | [], _, _, h => by cases h
  | t :: more, s, x, h => by
      rw [functionsAll, List.mem_append] at h
      rw [preorderAll, List.mem_append]
      rcases h with h | h
      · exact (of_mem_functions t h).imp .inl id
      · exact (of_mem_functionsAll more h).imp .inr id

end

mutual

/-- The functions of two trees are counterparts, except for those that stand where the trees are
apart. -/
theorem agree_functions (hswaps : g.Swaps apart) (hlanguage : g = .python ∨ g = .javaScript) :
    ∀ (t u : SyntaxTree) {s s' : Scene} {more more' : List SyntaxTree},
      s.Parallels g apart (t :: more) (u :: more') s' →
        AgreeAround (Matches g apart (pairs apart t u)) (Apart apart (pairs apart t u) Prod.fst)
          (Apart apart (pairs apart t u) Prod.snd) (g.functions s t) (g.functions s' u)
  | .node label children, .node label' children', s, s', more, more', h => by
      have hself : (node label children, node label' children') ∈
          pairs apart (.node label children) (.node label' children') := mem_pairs_self _ _
      cases hkept : apart (.node label children) (.node label' children') with
      | true =>
          apply AgreeAround.of_inner
          · exact fun x hx => ⟨_, hself, hkept, (of_mem_functions _ hx).1⟩
          · exact fun x hx => ⟨_, hself, hkept, (of_mem_functions _ hx).1⟩
      | false =>
          have hsorts := hswaps.sortsAlike hlanguage h.sameShape
          have hdescends : g.descends s.owner.isSome (.node label children) =
              g.descends s'.owner.isSome (.node label' children') := by
            rw [descends, descends, hsorts.isComment, hsorts.isFunction, hsorts.isIdleLiteral,
              hsorts.isAtomic, h.owner]
          have hlisted : pairsAll apart children children' ⊆
              pairs apart (.node label children) (.node label' children') := by
            rw [pairs_of_not_apart hkept]
            exact List.subset_cons_self _ _
          rw [functions, functions, ← hdescends, ← hsorts.isComment, ← hsorts.isFunction]
          apply AgreeAround.append_right
          · split_ifs
            · refine (agree_functionsAll hswaps hlanguage children children'
                (h.children hswaps hlanguage hkept)).imp ?_ ?_ ?_
              · exact fun x y hxy => hxy.mono hlisted
              · exact fun inner hinner => hinner.mono hlisted
              · exact fun inner hinner => hinner.mono hlisted
            · exact .of_forall₂ .nil .nil .nil
          · split_ifs
            · exact .cons ⟨h.head, hkept, List.Subset.refl _⟩ .nil
            · exact .nil

theorem agree_functionsAll (hswaps : g.Swaps apart) (hlanguage : g = .python ∨ g = .javaScript) :
    ∀ (ts us : List SyntaxTree) {s s' : Scene}, s.Parallels g apart ts us s' →
      AgreeAround (Matches g apart (pairsAll apart ts us))
        (Apart apart (pairsAll apart ts us) Prod.fst) (Apart apart (pairsAll apart ts us) Prod.snd)
        (g.functionsAll s ts) (g.functionsAll s' us)
  | [], [], _, _, _ => .of_forall₂ .nil .nil .nil
  | t :: more, u :: more', s, s', h => by
      have hfirst := agree_functions hswaps hlanguage t u h
      have hmore := agree_functionsAll hswaps hlanguage more more' (h.beyond hlanguage)
      have hleft : pairs apart t u ⊆ pairsAll apart (t :: more) (u :: more') := by
        rw [pairsAll]
        exact List.subset_append_left _ _
      have hright : pairsAll apart more more' ⊆ pairsAll apart (t :: more) (u :: more') := by
        rw [pairsAll]
        exact List.subset_append_right _ _
      rw [functionsAll, functionsAll]
      -- The trees are apart in one place only.
      by_cases hkept : ∀ p ∈ pairs apart t u, apart p.1 p.2 = false
      · apply AgreeAround.append_left
        · exact (hfirst.forall₂ (fun _ hinner => hinner.eq_nil hkept)
            (fun _ hinner => hinner.eq_nil hkept)).imp fun _ _ hxy => hxy.mono hleft
        · exact hmore.imp (fun _ _ hxy => hxy.mono hright) (fun _ hinner => hinner.mono hright)
            (fun _ hinner => hinner.mono hright)
      · obtain ⟨p, hp, hapart⟩ : ∃ p ∈ pairs apart t u, apart p.1 p.2 = true := by
          simpa using hkept
        have hkept' : ∀ q ∈ pairsAll apart more more', apart q.1 q.2 = false := by
          intro q hq
          by_contra hapart'
          have hnodup := h.nodup
          rw [preorderAll, List.map_append, List.nodup_append'] at hnodup
          have hfst : p.1.label.id ∈ t.preorder.map (·.label.id) := List.mem_map_of_mem
            ((pairs_sublist t u).1.subset (List.mem_map_of_mem hp))
          have hsnd : q.1.label.id ∈ (preorderAll more).map (·.label.id) := List.mem_map_of_mem
            ((pairsAll_sublist more more').1.subset (List.mem_map_of_mem hq))
          rw [← (hswaps.id hapart (by simpa using hapart')).1] at hsnd
          exact hnodup.2.2 hfst hsnd
        apply AgreeAround.append_right
        · exact hfirst.imp (fun _ _ hxy => hxy.mono hleft) (fun _ hinner => hinner.mono hleft)
            (fun _ hinner => hinner.mono hleft)
        · exact (hmore.forall₂ (fun _ hinner => hinner.eq_nil hkept')
            (fun _ hinner => hinner.eq_nil hkept')).imp fun _ _ hxy => hxy.mono hright
  | [], _ :: _, _, _, h => by cases h.shape
  | _ :: _, [], _, _, h => by cases h.shape

end

end Grammar

/-- Two traces differ at most in a text or a name. -/
inductive Trace.Like (text name : Text → Text → Prop) : Trace → Trace → Prop
  | kept {a b : Text} (h : text a b) : Like text name (.kept a) (.kept b)
  | marked (p : Placeholder) : Like text name (.marked p) (.marked p)
  | named {a b : Text} (h : name a b) : Like text name (.named a) (.named b)

namespace Survey

variable {v w : Survey} {apart : SyntaxTree → SyntaxTree → Bool} {s s' : Scene} {t u : SyntaxTree}
  {more more' : List SyntaxTree} {text name : Text → Text → Prop}

/-- The node is taken as one token when it stands in a function. -/
def isToken (v : Survey) (t : SyntaxTree) : Bool := v.grammar.isAtomic t || t.children.isEmpty

/-- Tokens and their counterparts have related texts, except for the name of the function
around them. -/
def Agree (v w : Survey) (apart : SyntaxTree → SyntaxTree → Bool) (text name : Text → Text → Prop)
    (s : Scene) (ps : List (SyntaxTree × SyntaxTree)) : Prop :=
  ∀ p ∈ ps, apart p.1 p.2 = false → v.isToken p.1 = true →
    text (v.textOf p.1) (w.textOf p.2) ∨
      v.grammar.isIdentifier p.1 = true ∧ s.isOwnName v.grammar p.1 = true ∧
        name (v.textOf p.1) (w.textOf p.2)

theorem like_trace (hswaps : v.grammar.Swaps apart)
    (hlanguage : v.grammar = .python ∨ v.grammar = .javaScript) (hgrammar : w.grammar = v.grammar)
    (hname : ∀ a b, text a b → name a b)
    (h : s.Parallels v.grammar apart (t :: more) (u :: more') s')
    (hagree : text (v.textOf t) (w.textOf u) ∨
      v.grammar.isIdentifier t = true ∧ s.isOwnName v.grammar t = true ∧
        name (v.textOf t) (w.textOf u)) :
    Trace.Like text name (v.trace s t) (w.trace s' u) := by
  have hsorts := hswaps.sortsAlike hlanguage h.sameShape
  have hself : (t, u) ∈ pairsAll apart (t :: more) (u :: more') :=
    List.mem_append_left _ (mem_pairs_self t u)
  rw [trace, trace, hgrammar, ← hsorts.isIdentifier, ← hsorts.isType, ← h.inType,
    ← h.own _ hself, ← h.called _ hself]
  rcases hagree with htext | ⟨hidentifier, hown, hnames⟩
  · split_ifs
    · exact .kept htext
    · exact .named (hname _ _ htext)
    · exact .marked .callee
    · exact .kept htext
    · exact .marked .other
  · rw [hidentifier, hown]
    exact .named hnames

mutual

/-- Counterparts leave like traces in the functions around them. -/
theorem like_traces (hswaps : v.grammar.Swaps apart)
    (hlanguage : v.grammar = .python ∨ v.grammar = .javaScript) (hgrammar : w.grammar = v.grammar)
    (hname : ∀ a b, text a b → name a b) :
    ∀ (t u : SyntaxTree) {s s' : Scene} {more more' : List SyntaxTree},
      s.Parallels v.grammar apart (t :: more) (u :: more') s' →
        v.Agree w apart text name s (pairs apart t u) →
          List.Forall₂ (Trace.Like text name) (v.traces s t) (w.traces s' u)
  | .node label children, .node label' children', s, s', more, more', h, hagree => by
      have hsorts := hswaps.sortsAlike hlanguage h.sameShape
      rw [traces, traces, hgrammar, ← hsorts.isComment, ← hsorts.isFunction, ← hsorts.isIdleLiteral,
        ← hsorts.isAtomic]
      cases hkept : apart (.node label children) (.node label' children') with
      | true =>
          have hfunction := (hswaps.isFunction hkept).1
          have hcomment := (Grammar.eq_false_of_isFunction hlanguage hfunction).1
          rw [hcomment, hfunction]
          exact .cons (.marked .nested) .nil
      | false =>
          have hchildren := h.children hswaps hlanguage hkept
          have hempty : children.isEmpty = children'.isEmpty := by
            have hforall := forall₂_of_sameShapeAll (sameShape_of_not_apart h.sameShape hkept).2
            cases hforall <;> rfl
          rw [← hempty]
          split_ifs with hcomment hfunction hidle htoken
          · exact .nil
          · exact .cons (.marked .nested) .nil
          · exact .nil
          · exact .cons (like_trace hswaps hlanguage hgrammar hname h
              (hagree _ (mem_pairs_self _ _) hkept htoken)) .nil
          · refine like_tracesAll hswaps hlanguage hgrammar hname children children' hchildren
              fun p hp hkept' htoken' => ?_
            have hlisted : p ∈ pairs apart (.node label children) (.node label' children') := by
              rw [pairs_of_not_apart hkept]
              exact List.mem_cons_of_mem _ hp
            have hbelow := hagree p hlisted hkept' htoken'
            -- The function around is the same for the children.
            rwa [Scene.isOwnName, Scene.below, if_neg hfunction]

theorem like_tracesAll (hswaps : v.grammar.Swaps apart)
    (hlanguage : v.grammar = .python ∨ v.grammar = .javaScript) (hgrammar : w.grammar = v.grammar)
    (hname : ∀ a b, text a b → name a b) : ∀ (ts us : List SyntaxTree) {s s' : Scene},
      s.Parallels v.grammar apart ts us s' → v.Agree w apart text name s (pairsAll apart ts us) →
        List.Forall₂ (Trace.Like text name) (v.tracesAll s ts) (w.tracesAll s' us)
  | [], [], _, _, _, _ => by
      rw [tracesAll, tracesAll]
      exact .nil
  | t :: more, u :: more', s, s', h, hagree => by
      rw [pairsAll] at hagree
      rw [tracesAll, tracesAll, hgrammar]
      apply List.rel_append
      · exact like_traces hswaps hlanguage hgrammar hname t u h fun p hp =>
          hagree p (List.mem_append_left _ hp)
      · exact like_tracesAll hswaps hlanguage hgrammar hname more more' (h.beyond hlanguage)
          fun p hp => hagree p (List.mem_append_right _ hp)
  | [], _ :: _, _, _, h, _ => by cases h.shape
  | _ :: _, [], _, _, h, _ => by cases h.shape

end

/-- Counterparts hold like traces. -/
theorem like_content (hswaps : v.grammar.Swaps apart)
    (hlanguage : v.grammar = .python ∨ v.grammar = .javaScript) (hgrammar : w.grammar = v.grammar)
    (hname : ∀ a b, text a b → name a b) {ps : List (SyntaxTree × SyntaxTree)} {x y : FunctionSite}
    (h : FunctionSite.Matches v.grammar apart ps x y)
    (hagree : v.Agree w apart text name (x.scene.below v.grammar x.node)
      (pairsAll apart x.node.children y.node.children)) :
    List.Forall₂ (Trace.Like text name) (v.content x) (w.content y) := by
  rw [content, content, hgrammar]
  exact like_tracesAll hswaps hlanguage hgrammar hname _ _
    (h.parallels.children hswaps hlanguage h.kept) hagree

end Survey

end ClonePrint
