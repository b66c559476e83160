import Mathlib.Data.List.Chain
import Mathlib.Data.List.Nodup
import ClonePrint.Proofs.Depiction
import ClonePrint.Proofs.Pieces

/-!
# Trees that differ in names and layout

Two trees are alike if they have the same shape and the same tokens, names apart. A name
still reaches a body as part of a literal that is taken as one token, so the names in
such literals have to agree as well. Then both trees give the same digests.
-/
namespace ClonePrint

/-- What becomes of the tokens at a place of a tree. They go into the innermost function one by
one, or as parts of one literal, if they do not go to waste. -/
inductive Fate where
  | outside
  | inside
  | whole
  | dropped
deriving Repr, DecidableEq

def Fate.within (g : Grammar) (t : SyntaxTree) : Fate → Fate
  | outside =>
      if g.isComment t then dropped
      else if g.isFunction t then inside
      else outside
  | inside =>
      if g.isComment t then dropped
      else if g.isFunction t then inside
      else if g.isIdleLiteral t then dropped
      else if g.isAtomic t then whole
      else inside
  | whole => whole
  | dropped => dropped

def Scene.fate (s : Scene) : Fate := if s.owner.isSome then .inside else .outside

/-- A label at the place of another. -/
def SyntaxLabel.movedTo (label place : SyntaxLabel) : SyntaxLabel :=
  { label with
    id := place.id
    start := place.start
    stop := place.stop
    startRow := place.startRow
    stopRow := place.stopRow }

namespace Survey

mutual

/-- Two trees have the same shape, and up to blanks the same tokens, except for
identifiers outside types whose fate makes them free. -/
def alike (v w : Survey) (free : Fate → Bool) (fate : Fate) (inType : Bool) :
    SyntaxTree → SyntaxTree → Bool
  | .node label children, .node label' children' =>
      label.movedTo label' == label' &&
        (!children.isEmpty ||
          (v.grammar.isIdentifier (.node label children) && !inType &&
            free (fate.within v.grammar (.node label children))) ||
          Text.stripBlanks (v.textOf (.node label children)) ==
            Text.stripBlanks (w.textOf (.node label' children'))) &&
        alikeAll v w free (fate.within v.grammar (.node label children))
          (inType || v.grammar.isType (.node label children)) children children'

def alikeAll (v w : Survey) (free : Fate → Bool) (fate : Fate) (inType : Bool) :
    List SyntaxTree → List SyntaxTree → Bool
  | [], [] => true
  | t :: more, t' :: more' =>
      alike v w free fate inType t t' && alikeAll v w free fate inType more more'
  | _, _ => false

end

end Survey

/-- The nodes with nothing below them. -/
def SyntaxTree.leaves (t : SyntaxTree) : List SyntaxTree := t.preorder.filter (·.children.isEmpty)

/-- Nothing but blanks stands between two offsets. -/
def Text.blankBetween (start stop : Nat) (t : Text) : Bool := (slice? start stop t).any isAllBlank

/-- A tree describes a source: the leaves are parts of it with blanks between them, a
literal reaches from its first leaf to its last, and no function ends above its start. -/
structure Survey.Describes (v : Survey) (t : SyntaxTree) : Prop where
  leaf : ∀ n ∈ t.leaves, (Text.slice? n.label.start n.label.stop v.source).isSome
  gap : t.leaves.IsChain fun a b => Text.blankBetween a.label.stop b.label.start v.source
  literal : ∀ n ∈ t.preorder, v.grammar.isAtomic n →
    n.leaves.head?.map (·.label.start) = some n.label.start ∧
      n.leaves.getLast?.map (·.label.stop) = some n.label.stop
  rows : ∀ n ∈ t.preorder, v.grammar.isFunction n → n.label.startRow ≤ n.label.stopRow

namespace Text

theorem stripBlanks_of_isAllBlank {t : Text} (h : isAllBlank t = true) : stripBlanks t = [] := by
  rw [isAllBlank, List.all_eq_true] at h
  rw [stripBlanks, List.filter_eq_nil_iff]
  intro c hc
  simp [h c hc]

end Text

namespace Survey

variable {v w : Survey}

theorem flatMap_eq_of_forall₂ {α β γ : Type} {f : α → List γ} {g : β → List γ} {as : List α}
    {bs : List β} (h : List.Forall₂ (fun a b => f a = g b) as bs) : as.flatMap f = bs.flatMap g := by
  induction h with
  | nil => rfl
  | cons hab _ ih => rw [List.flatMap_cons, List.flatMap_cons, hab, ih]

theorem textOf_of_slice {t : SyntaxTree} {part : Text}
    (h : Text.slice? t.label.start t.label.stop v.source = some part) : v.textOf t = part := by
  rw [textOf, h, Option.getD_some]

/-- The part of the source from one leaf to another holds the tokens between them. -/
theorem exists_slice_of_isChain {first : SyntaxTree} {more : List SyntaxTree}
    (hleaf : ∀ n ∈ first :: more, (Text.slice? n.label.start n.label.stop v.source).isSome)
    (hgap : (first :: more).IsChain fun a b =>
      Text.blankBetween a.label.stop b.label.start v.source) :
    ∃ part, Text.slice? first.label.start ((first :: more).getLast (by simp)).label.stop v.source =
        some part ∧
      Text.stripBlanks part = (first :: more).flatMap fun n => Text.stripBlanks (v.textOf n) := by
  induction more generalizing first with
  | nil =>
      obtain ⟨part, hpart⟩ := Option.isSome_iff_exists.1 (hleaf first (by simp))
      exact ⟨part, hpart, by simp [textOf_of_slice hpart]⟩
  | cons second more ih =>
      rw [List.isChain_cons_cons] at hgap
      obtain ⟨token, htoken⟩ := Option.isSome_iff_exists.1 (hleaf first (by simp))
      obtain ⟨gap, hbetween, hblank⟩ := (Option.any_eq_true ..).1 hgap.1
      obtain ⟨part, hpart, hstrip⟩ := ih (fun n hn => hleaf n (by simp [hn])) hgap.2
      refine ⟨token ++ gap ++ part, ?_, ?_⟩
      · rw [List.getLast_cons (by simp)]
        exact Text.slice?_append (Text.slice?_append htoken hbetween) hpart
      · rw [Text.stripBlanks_append, Text.stripBlanks_append,
          Text.stripBlanks_of_isAllBlank hblank, hstrip, List.append_nil, List.flatMap_cons (x := first),
          textOf_of_slice htoken]

end Survey

/-- What holds of a node if it holds of its children holds of every tree. -/
@[elab_as_elim]
theorem SyntaxTree.forest_induction {motive : SyntaxTree → Prop}
    (node : ∀ label children, (∀ t ∈ children, motive t) → motive (.node label children)) :
    ∀ t, motive t
  | .node label children => node label children fun t _ => forest_induction node t

theorem SyntaxTree.preorderAll_eq_flatMap (ts : List SyntaxTree) :
    preorderAll ts = ts.flatMap preorder := by
  induction ts with
  | nil => rfl
  | cons t more ih => rw [preorderAll, ih, List.flatMap_cons]

/-- The nodes of two trees of one shape, each with the one at its place. -/
structure Pairing (P : SyntaxTree → SyntaxTree → Prop) : Prop where
  label {t u : SyntaxTree} : P t u → t.label.movedTo u.label = u.label
  children {t u : SyntaxTree} : P t u → List.Forall₂ P t.children u.children
  id {t u t' u' : SyntaxTree} :
    P t u → P t' u' → (t.label.id = t'.label.id ↔ u.label.id = u'.label.id)

namespace Pairing

variable {P : SyntaxTree → SyntaxTree → Prop} {t u : SyntaxTree}

theorem kind (hP : Pairing P) (h : P t u) : t.kind = u.kind := by
  have hlabel := congrArg SyntaxLabel.kind (hP.label h)
  exact hlabel

theorem named (hP : Pairing P) (h : P t u) : t.label.named = u.label.named := by
  have hlabel := congrArg SyntaxLabel.named (hP.label h)
  exact hlabel

theorem field (hP : Pairing P) (h : P t u) : t.label.field = u.label.field := by
  have hlabel := congrArg SyntaxLabel.field (hP.label h)
  exact hlabel

theorem id_beq {t' u' : SyntaxTree} (hP : Pairing P) (h : P t u) (h' : P t' u') :
    (t.label.id == t'.label.id) = (u.label.id == u'.label.id) := by
  rw [Bool.eq_iff_iff, beq_iff_eq, beq_iff_eq, hP.id h h']

theorem child? (hP : Pairing P) (name : String) (h : P t u) :
    Option.Rel P (t.child? name) (u.child? name) := by
  have hchildren := hP.children h
  unfold SyntaxTree.child?
  generalize t.children = ts, u.children = us at hchildren
  induction hchildren with
  | nil => exact .none
  | @cons c d cs ds hcd hmore ih =>
      rw [List.find?_cons, List.find?_cons, hP.field hcd]
      cases d.label.field == name with
      | true => exact .some hcd
      | false => exact ih

theorem namedChildren (hP : Pairing P) (h : P t u) :
    List.Forall₂ P t.namedChildren u.namedChildren := by
  have hchildren := hP.children h
  unfold SyntaxTree.namedChildren
  generalize t.children = ts, u.children = us at hchildren
  induction hchildren with
  | nil => exact .nil
  | @cons c d cs ds hcd hmore ih =>
      rw [List.filter_cons, List.filter_cons, hP.named hcd]
      cases d.label.named with
      | true => exact .cons hcd ih
      | false => exact ih

theorem calleeAt? (hP : Pairing P) (field access part : String) (h : P t u) :
    Option.Rel P (Grammar.calleeAt? field access part t) (Grammar.calleeAt? field access part u) := by
  have hchild := hP.child? field h
  unfold Grammar.calleeAt?
  generalize t.child? field = c, u.child? field = d at hchild
  cases hchild with
  | none => exact .none
  | @some c d hcd =>
      simp only [Option.bind_some, hP.kind hcd]
      split_ifs
      · exact .some hcd
      · exact hP.child? part hcd
      · exact .none

end Pairing

/-- A grammar that sorts nodes by what they and their children say about themselves. -/
structure Grammar.Respects (g : Grammar) (P : SyntaxTree → SyntaxTree → Prop) : Prop where
  isFunction {t u : SyntaxTree} : P t u → g.isFunction t = g.isFunction u
  functionName {t u : SyntaxTree} : P t u → Option.Rel P (g.functionName? t) (g.functionName? u)
  isCall {t u : SyntaxTree} : P t u → g.isCall t = g.isCall u
  callee {t u : SyntaxTree} : P t u → Option.Rel P (g.callee? t) (g.callee? u)
  isIdentifier {t u : SyntaxTree} : P t u → g.isIdentifier t = g.isIdentifier u
  isType {t u : SyntaxTree} : P t u → g.isType t = g.isType u
  isAtomic {t u : SyntaxTree} : P t u → g.isAtomic t = g.isAtomic u
  isComment {t u : SyntaxTree} : P t u → g.isComment t = g.isComment u
  isIdleLiteral {t u : SyntaxTree} : P t u → g.isIdleLiteral t = g.isIdleLiteral u

namespace Pairing

variable {P : SyntaxTree → SyntaxTree → Prop}

theorem respects_python (hP : Pairing P) : Grammar.python.Respects P := by
  constructor <;> intro t u h
  case functionName => exact hP.child? "name" h
  case callee => exact hP.calleeAt? "function" "attribute" "attribute" h
  case isIdleLiteral =>
    simp only [Grammar.python, hP.kind h]
    -- A statement with one named child is decided by the kind of the child.
    have hnamed := hP.namedChildren h
    generalize t.namedChildren = ts, u.namedChildren = us at hnamed
    cases hnamed with
    | nil => rfl
    | @cons c d cs ds hcd hmore =>
        cases hmore with
        | nil => simp only [Grammar.isPythonString, hP.kind hcd]
        | cons _ _ => rfl
  all_goals simp only [Grammar.python, Grammar.isPythonString, hP.kind h]

theorem respects_javaScript (hP : Pairing P) : Grammar.javaScript.Respects P := by
  constructor <;> intro t u h
  case functionName => exact hP.child? "name" h
  case callee =>
    simp only [Grammar.javaScript, hP.kind h]
    exact hP.calleeAt? _ "member_expression" "property" h
  all_goals simp only [Grammar.javaScript, hP.kind h, hP.named h]

theorem respects_of_eq (hP : Pairing P) {g : Grammar} (h : g = .python ∨ g = .javaScript) :
    g.Respects P := by
  rcases h with rfl | rfl
  · exact hP.respects_python
  · exact hP.respects_javaScript

end Pairing

namespace Survey

variable {v w : Survey} {free : Fate → Bool}

theorem alikeAll_iff {fate : Fate} {inType : Bool} {ts us : List SyntaxTree} :
    v.alikeAll w free fate inType ts us = true ↔
      List.Forall₂ (fun t u => v.alike w free fate inType t u = true) ts us := by
  induction ts generalizing us with
  | nil => cases us <;> simp [alikeAll]
  | cons t more ih => cases us <;> simp [alikeAll, ih]

/-- What the labels of two alike nodes have in common, and their children. -/
theorem alike_node {fate : Fate} {inType : Bool} {label label' : SyntaxLabel}
    {children children' : List SyntaxTree}
    (h : v.alike w free fate inType (.node label children) (.node label' children') = true) :
    label.movedTo label' = label' ∧
      List.Forall₂
        (fun t u => v.alike w free (fate.within v.grammar (.node label children))
          (inType || v.grammar.isType (.node label children)) t u = true) children children' := by
  simp only [alike, Bool.and_eq_true, beq_iff_eq, alikeAll_iff] at h
  exact ⟨h.1.1, h.2⟩

theorem text_of_alike {fate : Fate} {inType : Bool} {label label' : SyntaxLabel}
    {children' : List SyntaxTree}
    (h : v.alike w free fate inType (.node label []) (.node label' children') = true)
    (hkept : v.grammar.isIdentifier (.node label []) = true → inType = false →
      free (fate.within v.grammar (.node label [])) = false) :
    Text.stripBlanks (v.textOf (.node label [])) =
      Text.stripBlanks (w.textOf (.node label' children')) := by
  simp only [alike, Bool.and_eq_true, beq_iff_eq, List.isEmpty_nil, Bool.not_true, Bool.false_or,
    Bool.or_eq_true, Bool.not_eq_true'] at h
  rcases h.1.2 with ⟨⟨hidentifier, htype⟩, hfree⟩ | htext
  · rw [hkept hidentifier htype] at hfree
    cases hfree
  · exact htext

end Survey

namespace Pairing

open SyntaxTree

theorem length_preorderAll {ts us : List SyntaxTree}
    (h : List.Forall₂ (fun t u => t.preorder.length = u.preorder.length) ts us) :
    (preorderAll ts).length = (preorderAll us).length := by
  induction h with
  | nil => rfl
  | cons htu hmore ih =>
      rw [preorderAll, preorderAll, List.length_append, List.length_append, htu, ih]

theorem zip_subset {ts us : List SyntaxTree}
    (h : List.Forall₂ (fun t u => t.preorder.length = u.preorder.length) ts us) :
    List.Forall₂ (fun t u => t.preorder.zip u.preorder ⊆ (preorderAll ts).zip (preorderAll us))
      ts us := by
  induction h with
  | nil => exact .nil
  | cons htu hmore ih =>
      rw [preorderAll, preorderAll, List.zip_append htu]
      constructor
      · exact List.subset_append_left ..
      · exact ih.imp fun _ _ hsub => List.subset_append_of_subset_right _ hsub

theorem length_preorder {v w : Survey} {free : Fate → Bool} {t u : SyntaxTree} {fate : Fate}
    {inType : Bool} (h : v.alike w free fate inType t u = true) :
    t.preorder.length = u.preorder.length := by
  induction t using forest_induction generalizing u fate inType with
  | node label children ih =>
      obtain ⟨label', children'⟩ := u
      obtain ⟨-, hchildren⟩ := Survey.alike_node h
      have hlength := (List.forall₂_and_left ..).2 ⟨ih, hchildren⟩
      rw [preorder, preorder, List.length_cons, List.length_cons,
        length_preorderAll (hlength.imp fun _ _ htu => htu.1 htu.2)]

/-- A node is known by its number in either tree. -/
theorem id_eq_iff_of_mem_zip {ts us : List SyntaxTree} (hts : (ts.map (·.label.id)).Nodup)
    (hus : (us.map (·.label.id)).Nodup) {t u t' u' : SyntaxTree} (h : (t, u) ∈ ts.zip us)
    (h' : (t', u') ∈ ts.zip us) : t.label.id = t'.label.id ↔ u.label.id = u'.label.id := by
  have hplace {ns : List SyntaxTree} (hns : (ns.map (·.label.id)).Nodup) {i j : Nat}
      (hi : i < ns.length) (hj : j < ns.length) : ns[i].label.id = ns[j].label.id ↔ i = j := by
    rw [← hns.getElem_inj_iff (i := i) (j := j), List.getElem_map, List.getElem_map] <;>
      rwa [List.length_map]
  obtain ⟨i, hi, htu⟩ := List.mem_iff_getElem.1 h
  obtain ⟨j, hj, htu'⟩ := List.mem_iff_getElem.1 h'
  rw [List.length_zip] at hi hj
  rw [List.getElem_zip, Prod.mk.injEq] at htu htu'
  rw [← htu.1, ← htu.2, ← htu'.1, ← htu'.2, hplace hts, hplace hus]

/-- Alike trees with distinct node numbers are paired node by node. -/
theorem exists_of_alike {v w : Survey} {free : Fate → Bool} {a b : SyntaxTree} {fate : Fate}
    {inType : Bool} (h : v.alike w free fate inType a b = true)
    (ha : (a.preorder.map (·.label.id)).Nodup) (hb : (b.preorder.map (·.label.id)).Nodup) :
    ∃ P, Pairing P ∧ P a b := by
  refine ⟨fun t u => (∃ fate inType, v.alike w free fate inType t u = true) ∧
    t.preorder.zip u.preorder ⊆ a.preorder.zip b.preorder, ⟨?_, ?_, ?_⟩, ⟨_, _, h⟩,
    List.Subset.refl _⟩
  · rintro ⟨label, children⟩ ⟨label', children'⟩ ⟨⟨fate, inType, htu⟩, -⟩
    exact (Survey.alike_node htu).1
  · rintro ⟨label, children⟩ ⟨label', children'⟩ ⟨⟨fate, inType, htu⟩, hsub⟩
    have hchildren := (Survey.alike_node htu).2
    have hzip := zip_subset (hchildren.imp fun _ _ => length_preorder)
    rw [preorder, preorder, List.zip_cons_cons] at hsub
    apply hchildren.mp ?_ hzip
    intro t u halike hbelow
    exact ⟨⟨_, _, halike⟩, fun n hn => hsub (List.mem_cons_of_mem _ (hbelow hn))⟩
  · rintro ⟨label₁, children₁⟩ ⟨label₂, children₂⟩ ⟨label₃, children₃⟩ ⟨label₄, children₄⟩ ⟨-, h⟩ ⟨-, h'⟩
    apply id_eq_iff_of_mem_zip ha hb
    · exact h (by simp [preorder])
    · exact h' (by simp [preorder])

end Pairing

namespace SyntaxTree

theorem leaves_node_nil (label : SyntaxLabel) : leaves (.node label []) = [.node label []] := rfl

theorem leaves_node {label : SyntaxLabel} {children : List SyntaxTree} (h : children ≠ []) :
    leaves (.node label children) = children.flatMap leaves := by
  have hchildren : children.isEmpty = false := List.isEmpty_eq_false_iff.2 h
  rw [leaves, preorder, List.filter_cons_of_neg (by simpa [SyntaxTree.children] using hchildren),
    preorderAll_eq_flatMap, List.filter_flatMap]
  rfl

theorem leaves_ne_nil (t : SyntaxTree) : t.leaves ≠ [] := by
  induction t using forest_induction with
  | node label children ih =>
      cases children with
      | nil => simp [leaves_node_nil]
      | cons t more => simp [leaves_node, ih t]

end SyntaxTree

namespace Survey

variable {v w : Survey} {free : Fate → Bool}

theorem Describes.child {label : SyntaxLabel} {children : List SyntaxTree} {t : SyntaxTree}
    (h : v.Describes (.node label children)) (ht : t ∈ children) : v.Describes t := by
  have hbelow : t.preorder ⊆ (SyntaxTree.node label children).preorder := by
    intro n hn
    rw [SyntaxTree.preorder, SyntaxTree.preorderAll_eq_flatMap]
    exact List.mem_cons_of_mem _ (List.mem_flatMap_of_mem ht hn)
  have hleaves : t.leaves <:+: (SyntaxTree.node label children).leaves := by
    rw [SyntaxTree.leaves_node (List.ne_nil_of_mem ht)]
    exact List.infix_flatMap_of_mem ht _
  constructor
  · exact fun n hn => h.leaf n (hleaves.subset hn)
  · exact h.gap.infix hleaves
  · exact fun n hn => h.literal n (hbelow hn)
  · exact fun n hn => h.rows n (hbelow hn)

/-- A literal holds the tokens below it. -/
theorem Describes.stripBlanks_textOf {t : SyntaxTree} (h : v.Describes t)
    (hatomic : v.grammar.isAtomic t = true) :
    Text.stripBlanks (v.textOf t) = t.leaves.flatMap fun n => Text.stripBlanks (v.textOf n) := by
  have hmem : t ∈ t.preorder := by cases t; simp [SyntaxTree.preorder]
  obtain ⟨hstart, hstop⟩ := h.literal t hmem hatomic
  have hleaf := h.leaf
  have hgap := h.gap
  cases hleaves : t.leaves with
  | nil => exact absurd hleaves t.leaves_ne_nil
  | cons first more =>
      rw [hleaves] at hleaf hgap hstart hstop
      obtain ⟨part, hpart, hstrip⟩ := exists_slice_of_isChain hleaf hgap
      rw [List.head?_cons, Option.map_some, Option.some.injEq] at hstart
      rw [List.getLast?_eq_getLast_of_ne_nil (by simp), Option.map_some, Option.some.injEq] at hstop
      rw [hstart, hstop] at hpart
      rw [textOf_of_slice hpart, hstrip]

/-- Where nothing is free the tokens agree. -/
theorem leaves_of_alike {fate : Fate} {inType : Bool} {t u : SyntaxTree}
    (h : v.alike w free fate inType t u = true)
    (hstays : ∀ n, fate.within v.grammar n = fate) (hkept : free fate = false) :
    List.Forall₂ (fun n m => Text.stripBlanks (v.textOf n) = Text.stripBlanks (w.textOf m))
      t.leaves u.leaves := by
  induction t using SyntaxTree.forest_induction generalizing u inType with
  | node label children ih =>
      obtain ⟨label', children'⟩ := u
      have hchildren := (alike_node h).2
      cases hchildren with
      | nil =>
          have htext := text_of_alike h fun _ _ => by rw [hstays, hkept]
          exact .cons htext .nil
      | @cons c d cs ds hcd hmore =>
          rw [hstays] at hcd hmore
          rw [SyntaxTree.leaves_node (by simp), SyntaxTree.leaves_node (by simp)]
          have hall := (List.forall₂_and_left ..).2 ⟨ih, .cons hcd hmore⟩
          exact List.rel_flatMap hall fun _ _ hn => hn.1 hn.2

theorem stripBlanks_textOf_eq {inType : Bool} {label label' : SyntaxLabel}
    {children children' : List SyntaxTree}
    (halike : v.alike w free .inside inType (.node label children) (.node label' children') = true)
    (hv : v.Describes (.node label children)) (hw : w.Describes (.node label' children'))
    (hwhole : free .whole = false)
    (hatomic : v.grammar.isAtomic (.node label children) = true)
    (hatomic' : w.grammar.isAtomic (.node label' children') = true)
    (hfate : Fate.within v.grammar (.node label children) .inside = .whole) :
    Text.stripBlanks (v.textOf (.node label children)) =
      Text.stripBlanks (w.textOf (.node label' children')) := by
  have hall := (alike_node halike).2
  rw [hfate] at hall
  have hchildren := hall
  cases hchildren with
  | nil => exact text_of_alike halike fun _ _ => by rw [hfate, hwhole]
  | cons _ _ =>
      have hleaves := List.rel_flatMap hall fun _ _ htu =>
        leaves_of_alike htu (fun _ => rfl) hwhole
      rw [hv.stripBlanks_textOf hatomic, hw.stripBlanks_textOf hatomic',
        SyntaxTree.leaves_node (by simp), SyntaxTree.leaves_node (by simp)]
      exact flatMap_eq_of_forall₂ hleaves

end Survey

/-- Two places of paired trees. -/
structure Scene.Matches (P : SyntaxTree → SyntaxTree → Prop) (s s' : Scene) : Prop where
  owner : Option.Rel P s.owner s'.owner
  before : List.Forall₂ P s.before s'.before
  inType : s.inType = s'.inType

section

variable {g : Grammar} {P : SyntaxTree → SyntaxTree → Prop} {s s' : Scene} {t u : SyntaxTree}

theorem Grammar.Respects.descends (hg : g.Respects P) (h : P t u) (inFunction : Bool) :
    g.descends inFunction t = g.descends inFunction u := by
  rw [Grammar.descends, Grammar.descends, hg.isComment h, hg.isFunction h, hg.isIdleLiteral h,
    hg.isAtomic h]

theorem Grammar.visitedAll_eq_flatMap (inFunction : Bool) (ts : List SyntaxTree) :
    g.visitedAll inFunction ts = ts.flatMap (g.visited inFunction) := by
  induction ts with
  | nil => rfl
  | cons t more ih => rw [visitedAll, ih, List.flatMap_cons]

theorem Grammar.Respects.visited (hg : g.Respects P) (hP : Pairing P) (h : P t u)
    (inFunction : Bool) :
    List.Forall₂ P (g.visited inFunction t) (g.visited inFunction u) := by
  induction t using SyntaxTree.forest_induction generalizing u inFunction with
  | node label children ih =>
      obtain ⟨label', children'⟩ := u
      have hchildren := (List.forall₂_and_left ..).2 ⟨ih, hP.children h⟩
      rw [Grammar.visited, Grammar.visited, hg.descends h, hg.isFunction h,
        Grammar.visitedAll_eq_flatMap, Grammar.visitedAll_eq_flatMap]
      apply List.Forall₂.cons h
      split_ifs
      · exact List.rel_flatMap hchildren fun _ _ hn => hn.1 hn.2 _
      · exact .nil

namespace Scene.Matches

theorem below (h : s.Matches P s') (hg : g.Respects P) (htu : P t u) :
    (s.below g t).Matches P (s'.below g u) := by
  constructor
  · rw [Scene.below, Scene.below, hg.isFunction htu]
    cases g.isFunction u with
    | true => exact .some htu
    | false => exact h.owner
  · exact List.rel_append h.before (.cons htu .nil)
  · rw [Scene.below, Scene.below, h.inType, hg.isType htu]

theorem owner_isSome (h : s.Matches P s') : s.owner.isSome = s'.owner.isSome := by
  have howner := h.owner
  generalize s.owner = f, s'.owner = f' at howner
  cases howner <;> rfl

theorem beyond (h : s.Matches P s') (hg : g.Respects P) (hP : Pairing P) (htu : P t u) :
    (s.beyond g t).Matches P (s'.beyond g u) := by
  constructor
  · exact h.owner
  · rw [Scene.beyond, Scene.beyond, h.owner_isSome]
    exact List.rel_append h.before (hg.visited hP htu _)
  · exact h.inType

theorem isOwnName (h : s.Matches P s') (hg : g.Respects P) (hP : Pairing P) (htu : P t u) :
    s.isOwnName g t = s'.isOwnName g u := by
  have howner := h.owner
  unfold Scene.isOwnName
  generalize s.owner = f, s'.owner = f' at howner
  cases howner with
  | none => rfl
  | @some f f' hf =>
      have hname := hg.functionName hf
      rw [Option.bind_some, Option.bind_some]
      generalize g.functionName? f = n, g.functionName? f' = m at hname
      cases hname with
      | none => rfl
      | some hnm => exact hP.id_beq hnm htu

theorem called (hg : g.Respects P) (hP : Pairing P) {c d : SyntaxTree} (hcd : P c d)
    (htu : P t u) : (g.called? c == some t.label.id) = (g.called? d == some u.label.id) := by
  have hcallee := hg.callee hcd
  unfold Grammar.called?
  rw [hg.isCall hcd]
  generalize g.callee? c = n, g.callee? d = m at hcallee
  cases g.isCall d with
  | false => rfl
  | true =>
      cases hcallee with
      | none => rfl
      | some hnm => exact hP.id_beq hnm htu

theorem isCalled (h : s.Matches P s') (hg : g.Respects P) (hP : Pairing P) (htu : P t u) :
    s.isCalled g t = s'.isCalled g u := by
  have hbefore := h.before
  unfold Scene.isCalled
  generalize s.before = ts, s'.before = us at hbefore
  induction hbefore with
  | nil => rfl
  | cons hcd hmore ih => rw [List.any_cons, List.any_cons, called hg hP hcd htu, ih]

end Scene.Matches

end

/-- A node that is descended into keeps what becomes of its tokens. -/
theorem Scene.within_fate {g : Grammar} {s : Scene} {t : SyntaxTree}
    (h : g.descends s.owner.isSome t = true) : s.fate.within g t = (s.below g t).fate := by
  rw [Grammar.descends, Bool.and_eq_true, Bool.not_eq_true'] at h
  obtain ⟨hcomment, hdescends⟩ := h
  unfold Scene.fate Scene.below
  cases hfunction : g.isFunction t with
  | true => cases s.owner <;> simp [Fate.within, hcomment, hfunction]
  | false =>
      cases howner : s.owner with
      | none => simp [Fate.within, hcomment, hfunction]
      | some f =>
          simp only [howner, hfunction, Option.isSome_some, Bool.true_and, Bool.false_or,
            Bool.not_eq_true', Bool.or_eq_false_iff] at hdescends
          simp [Fate.within, hcomment, hfunction, hdescends]

namespace Survey

variable {v w : Survey} {free : Fate → Bool} {P : SyntaxTree → SyntaxTree → Prop} {s s' : Scene}
  {t u : SyntaxTree}

theorem bodyOf_append (a b : List Trace) : bodyOf (a ++ b) = bodyOf a ++ bodyOf b := by
  rw [bodyOf, List.flatMap_append, Text.stripBlanks_append, bodyOf, bodyOf]

theorem forall₂_mem {R : SyntaxTree → SyntaxTree → Prop} {ts us : List SyntaxTree}
    (h : List.Forall₂ R ts us) :
    List.Forall₂ (fun t u => t ∈ ts ∧ u ∈ us ∧ R t u) ts us := by
  apply List.forall₂_iff_zip.2
  constructor
  · exact h.length_eq
  · intro t u htu
    exact ⟨(List.of_mem_zip htu).1, (List.of_mem_zip htu).2, List.forall₂_zip h htu⟩

section

variable (hP : Pairing P) (hg : v.grammar.Respects P) (hsorted : v.grammar.IsSorted)
  (hgrammar : w.grammar = v.grammar)

include hP hg hsorted hgrammar

theorem bodyOf_trace (hs : s.Matches P s') (htu : P t u)
    (htext : (v.grammar.isIdentifier t = true → s.inType = true) →
      Text.stripBlanks (v.textOf t) = Text.stripBlanks (w.textOf u)) :
    bodyOf [v.trace s t] = bodyOf [w.trace s' u] := by
  rw [trace, trace, hgrammar, ← hs.isOwnName hg hP htu, ← hs.isCalled hg hP htu, ← hs.inType,
    ← hg.isIdentifier htu, ← hg.isType htu]
  unfold bodyOf
  cases hidentifier : v.grammar.isIdentifier t with
  | false => simpa [Trace.text] using htext (by simp [hidentifier])
  | true =>
      rw [(hsorted.identifier hidentifier).1]
      cases htype : s.inType <;> split_ifs <;> simp_all [Trace.text]

omit hsorted in
theorem bodyOf_tracesAll {inType : Bool} {ts us : List SyntaxTree}
    (h : List.Forall₂ (fun t u => P t u ∧ ∀ s s', s.Matches P s' → s.inType = inType →
      bodyOf (v.traces s t) = bodyOf (w.traces s' u)) ts us)
    (hs : s.Matches P s') (htype : s.inType = inType) :
    bodyOf (v.tracesAll s ts) = bodyOf (w.tracesAll s' us) := by
  induction h generalizing s s' with
  | nil => rfl
  | cons htu hmore ih =>
      have hbeyond := hs.beyond hg hP htu.1
      rw [tracesAll, tracesAll, bodyOf_append, bodyOf_append, htu.2 s s' hs htype, hgrammar,
        ih hbeyond htype]

omit hsorted in
/-- What the children of alike nodes leave is alike if it is for each pair of them. -/
theorem bodyOf_below {label label' : SyntaxLabel} {children children' : List SyntaxTree}
    (htu : P (.node label children) (.node label' children')) (hs : s.Matches P s')
    (hchildren : List.Forall₂
      (fun c d => v.alike w free .inside (s.below v.grammar (.node label children)).inType c d = true)
      children children')
    (hv : v.Describes (.node label children)) (hw : w.Describes (.node label' children'))
    (hstep : ∀ c ∈ children, ∀ {r r' : Scene} {d : SyntaxTree}, P c d →
      v.alike w free .inside r.inType c d = true → r.Matches P r' → v.Describes c →
        w.Describes d → bodyOf (v.traces r c) = bodyOf (w.traces r' d)) :
    bodyOf (v.tracesAll (s.below v.grammar (.node label children)) children) =
      bodyOf (w.tracesAll (s'.below v.grammar (.node label' children')) children') := by
  have hpaired : List.Forall₂ P children children' := hP.children htu
  apply bodyOf_tracesAll hP hg hgrammar ?_ (hs.below hg htu) rfl
  apply (forall₂_mem hchildren).mp ?_ hpaired
  rintro c d ⟨hc, hd, hcd⟩ hpair
  constructor
  · exact hpair
  · intro r r' hr htype
    apply hstep c hc hpair ?_ hr (hv.child hc) (hw.child hd)
    rwa [htype]

/-- Alike nodes leave the same text in the function around them. -/
theorem bodyOf_traces (hwhole : free .whole = false) (htu : P t u)
    (halike : v.alike w free .inside s.inType t u = true) (hs : s.Matches P s')
    (hv : v.Describes t) (hw : w.Describes u) :
    bodyOf (v.traces s t) = bodyOf (w.traces s' u) := by
  induction t using SyntaxTree.forest_induction generalizing u s s' with
  | node label children ih =>
      obtain ⟨label', children'⟩ := u
      obtain ⟨hlabel, hchildren⟩ := alike_node halike
      have hpaired : List.Forall₂ P children children' := hP.children htu
      have hempty : children.isEmpty = children'.isEmpty := by cases hpaired <;> rfl
      rw [traces, traces, hgrammar, ← hg.isComment htu, ← hg.isFunction htu,
        ← hg.isIdleLiteral htu, ← hg.isAtomic htu, ← hempty]
      split_ifs with hcomment hfunction hidle htoken
      · rfl
      · rfl
      · rfl
      -- A token: a literal has the text of its leaves, and a leaf its own.
      · apply bodyOf_trace hP hg hsorted hgrammar hs htu
        intro hkept
        cases hatomic : v.grammar.isAtomic (.node label children) with
        | true =>
            apply stripBlanks_textOf_eq halike hv hw hwhole hatomic
            · rw [hgrammar, ← hg.isAtomic htu, hatomic]
            · simp [Fate.within, hcomment, hfunction, hidle, hatomic]
        | false =>
            obtain rfl : children = [] := by simpa [hatomic] using htoken
            apply text_of_alike halike
            intro hidentifier htype
            rw [hkept hidentifier] at htype
            cases htype
      · have hatomic : v.grammar.isAtomic (.node label children) = false := by
          simp only [Bool.or_eq_true, not_or, Bool.not_eq_true] at htoken
          exact htoken.1
        have hfate : Fate.within v.grammar (.node label children) .inside = .inside := by
          simp [Fate.within, hcomment, hfunction, hidle, hatomic]
        rw [hfate] at hchildren
        exact bodyOf_below hP hg hgrammar htu hs hchildren hv hw ih

/-- Functions with alike nodes in them have the same digest. -/
theorem hash_record?_eq (hwhole : free .whole = false) (htu : P t u)
    (halike : v.alike w free s.fate s.inType t u = true) (hs : s.Matches P s')
    (hcomment : v.grammar.isComment t = false) (hfunction : v.grammar.isFunction t = true)
    (hv : v.Describes t) (hw : w.Describes u) (hlimits : v.limits = {}) (hlimits' : w.limits = {}) :
    (v.record? ⟨s, t⟩).map (·.hash) = (w.record? ⟨s', u⟩).map (·.hash) := by
  obtain ⟨label, children⟩ := t
  obtain ⟨label', children'⟩ := u
  obtain ⟨hlabel, hchildren⟩ := alike_node halike
  have hfate : s.fate.within v.grammar (.node label children) = .inside := by
    unfold Scene.fate
    cases s.owner <;> simp [Fate.within, hcomment, hfunction]
  have hbody : bodyOf (v.content ⟨s, .node label children⟩) =
      bodyOf (w.content ⟨s', .node label' children'⟩) := by
    unfold content
    rw [hgrammar]
    rw [hfate] at hchildren
    apply bodyOf_below hP hg hgrammar htu hs hchildren hv hw
    intro c _ r r' d hcd hbelow hr hc hd
    exact bodyOf_traces hP hg hsorted hgrammar hwhole hcd hbelow hr hc hd
  have hrows := hv.rows (.node label children) (by simp [SyntaxTree.preorder]) hfunction
  have hrows' := hw.rows (.node label' children') (by simp [SyntaxTree.preorder])
    (by rw [hgrammar, ← hg.isFunction htu, hfunction])
  simp [record?, Thresholds.admits, hlimits, hlimits', hbody, hrows, hrows']

omit hsorted hgrammar in
theorem hashes_functionsAll {inType : Bool} {fate : Fate} {ts us : List SyntaxTree}
    (h : List.Forall₂ (fun t u => P t u ∧ ∀ s s', s.Matches P s' → s.inType = inType →
      s.fate = fate → ((v.grammar.functions s t).filterMap v.record?).map (·.hash) =
        ((v.grammar.functions s' u).filterMap w.record?).map (·.hash)) ts us)
    (hs : s.Matches P s') (htype : s.inType = inType) (hfate : s.fate = fate) :
    ((v.grammar.functionsAll s ts).filterMap v.record?).map (·.hash) =
      ((v.grammar.functionsAll s' us).filterMap w.record?).map (·.hash) := by
  induction h generalizing s s' with
  | nil => simp only [Grammar.functionsAll, List.filterMap_nil, List.map_nil]
  | cons htu hmore ih =>
      have hbeyond := hs.beyond hg hP htu.1
      rw [Grammar.functionsAll, Grammar.functionsAll, List.filterMap_append, List.map_append,
        htu.2 s s' hs htype hfate, ih hbeyond htype hfate, List.filterMap_append, List.map_append]

theorem hashes_functions (hwhole : free .whole = false) (htu : P t u)
    (halike : v.alike w free s.fate s.inType t u = true) (hs : s.Matches P s')
    (hv : v.Describes t) (hw : w.Describes u) (hlimits : v.limits = {}) (hlimits' : w.limits = {}) :
    ((v.grammar.functions s t).filterMap v.record?).map (·.hash) =
      ((v.grammar.functions s' u).filterMap w.record?).map (·.hash) := by
  induction t using SyntaxTree.forest_induction generalizing u s s' with
  | node label children ih =>
      have hrecord := hash_record?_eq hP hg hsorted hgrammar hwhole htu halike hs
      obtain ⟨label', children'⟩ := u
      obtain ⟨hlabel, hchildren⟩ := alike_node halike
      have hpaired : List.Forall₂ P children children' := hP.children htu
      rw [Grammar.functions, Grammar.functions, ← hg.descends htu, ← hs.owner_isSome,
        ← hg.isComment htu, ← hg.isFunction htu, List.filterMap_append, List.map_append,
        List.filterMap_append, List.map_append]
      congr 1
      · split_ifs with hdescends
        · rw [Scene.within_fate hdescends] at hchildren
          apply hashes_functionsAll hP hg ?_ (hs.below hg htu) rfl rfl
          apply (forall₂_mem hchildren).mp ?_ hpaired
          rintro c d ⟨hc, hd, hcd⟩ hpair
          refine ⟨hpair, fun r r' hr htype hfate => ?_⟩
          apply ih c hc hpair ?_ hr (hv.child hc) (hw.child hd)
          rwa [htype, hfate]
        · rw [List.filterMap_nil, List.map_nil, List.filterMap_nil, List.map_nil]
      · split_ifs with hreported
        · rw [Bool.and_eq_true, Bool.not_eq_true'] at hreported
          have hhash := hrecord hreported.1 hreported.2 hv hw hlimits hlimits'
          simp only [List.filterMap_cons, List.filterMap_nil]
          generalize v.record? _ = found, w.record? _ = found' at hhash ⊢
          cases found <;> cases found' <;> simp_all
        · rw [List.filterMap_nil, List.map_nil, List.filterMap_nil, List.map_nil]

end

/-- Sources with alike trees have the same digests, whatever their names and layout. -/
theorem map_hash_run_eq {a b : SyntaxTree}
    (hlanguage : v.grammar = .python ∨ v.grammar = .javaScript) (hgrammar : w.grammar = v.grammar)
    (hlimits : v.limits = {}) (hlimits' : w.limits = {})
    (ha : (a.preorder.map (·.label.id)).Nodup) (hb : (b.preorder.map (·.label.id)).Nodup)
    (hv : v.Describes a) (hw : w.Describes b)
    (halike : v.alike w (· != .whole) .outside false a b = true) :
    (v.run a).map (·.hash) = (w.run b).map (·.hash) := by
  obtain ⟨P, hP, hab⟩ := Pairing.exists_of_alike halike ha hb
  have hg := hP.respects_of_eq hlanguage
  have hsorted := Grammar.isSorted_of_eq hlanguage
  have hstart : ({} : Scene).Matches P {} := ⟨.none, .nil, rfl⟩
  have hhashes := hashes_functions hP hg hsorted hgrammar rfl hab halike hstart hv hw hlimits hlimits'
  rw [run, run, visit_start hsorted ha, visit_start (hgrammar ▸ hsorted) hb, hgrammar]
  exact hhashes

end Survey

/-- A function that puts its parameter into a literal, and some white space. -/
def formattingSource : Text := "def f(a):\n return f'\x7ba\x7d'\n".toList

def renamedSource : Text := "def g(b):\n\treturn\tf'\x7ba\x7d'\n".toList

def renamedInside : Text := "def f(b):\n return f'\x7bb\x7d'\n".toList

def formattingTree (source : Text) : SyntaxTree :=
  let node := SyntaxTree.spanning source
  let word := SyntaxTree.fixed source
  node 0 "module" 0 25
    [node 1 "function_definition" 0 24
      [word 2 "def" 0 3, .filling "name" (node 3 "identifier" 4 5 []),
       .filling "parameters" (node 4 "parameters" 5 8
        [word 5 "(" 5 6, node 6 "identifier" 6 7 [], word 7 ")" 7 8]),
       word 8 ":" 8 9,
       .filling "body" (node 9 "block" 11 24
        [node 10 "return_statement" 11 24
          [word 11 "return" 11 17,
           node 12 "string" 18 24
            [node 13 "string_start" 18 20 [],
             node 14 "interpolation" 20 23
              [word 15 "\x7b" 20 21, .filling "expression" (node 16 "identifier" 21 22 []),
               word 17 "\x7d" 22 23],
             node 18 "string_end" 23 24 []]]])]]

def formattingSurvey (source : Text) : Survey := { grammar := .python, source, file := "f.py" }

theorem describes_formattingTree {source : Text}
    (h : source ∈ [formattingSource, renamedSource, renamedInside]) :
    (formattingSurvey source).Describes (formattingTree source) := by
  constructor
  · revert source; decide
  · revert source; decide
  · revert source; decide
  · revert source; decide

namespace Survey

theorem map_hash_run_renamed :
    let v := formattingSurvey formattingSource
    let w := formattingSurvey renamedSource
    let a := formattingTree formattingSource
    let b := formattingTree renamedSource
    (a.preorder.map (·.label.id)).Nodup ∧ (b.preorder.map (·.label.id)).Nodup ∧
      v.Describes a ∧ w.Describes b ∧ v.alike w (· != .whole) .outside false a b = true ∧
      (v.run a).map (·.hash) = (w.run b).map (·.hash) ∧ (v.run a).length = 1 := by
  intro v w a b
  have ha : (a.preorder.map (·.label.id)).Nodup := by decide
  have hb : (b.preorder.map (·.label.id)).Nodup := by decide
  have hv : v.Describes a := describes_formattingTree (by simp)
  have hw : w.Describes b := describes_formattingTree (by simp)
  have halike : v.alike w (· != .whole) .outside false a b = true := by decide +kernel
  have hpython : v.grammar = .python := rfl
  have hpython' : w.grammar = .python := rfl
  have hhash : (v.run a).map (·.hash) = (w.run b).map (·.hash) :=
    map_hash_run_eq (.inl hpython) (hpython'.trans hpython.symm) rfl rfl ha hb hv hw halike
  have hrun : (v.run a).length = 1 := by decide +kernel
  exact ⟨ha, hb, hv, hw, halike, hhash, hrun⟩

/-- Digests tell apart what differs in the names inside a literal. -/
theorem map_hash_run_ne :
    let v := formattingSurvey formattingSource
    let w := formattingSurvey renamedInside
    let a := formattingTree formattingSource
    let b := formattingTree renamedInside
    (a.preorder.map (·.label.id)).Nodup ∧ (b.preorder.map (·.label.id)).Nodup ∧
      v.Describes a ∧ w.Describes b ∧ v.alike w (fun _ => true) .outside false a b = true ∧
      (v.run a).map (·.hash) ≠ (w.run b).map (·.hash) := by
  intro v w a b
  have hv : v.Describes a := describes_formattingTree (by simp)
  have hw : w.Describes b := describes_formattingTree (by simp)
  exact ⟨by decide, by decide, hv, hw, by decide, by decide +kernel⟩

end Survey

end ClonePrint
