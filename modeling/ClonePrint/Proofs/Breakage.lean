import ClonePrint.Proofs.Counterparts
import ClonePrint.Proofs.Shifting
import ClonePrint.Proofs.TopLevel

/-!
# Where a tree is broken

A front end marks the nodes that hold an error or a missing node. The marks tell where a tree is
broken without looking at all of it: the search for the first broken node goes below marked nodes
only, and what is held back of a text is found among the topmost nodes. If the marks are right
and the topmost nodes stand in order, the search finds the first broken node in preorder, and
everything that starts in front of the text held back is whole and ends in front of it.
-/
namespace ClonePrint

/-- The first match in an ordered list is related to every later one. -/
theorem eq_or_rel_of_find? {α : Type} {R : α → α → Prop} {p : α → Bool} {xs : List α} {a b : α}
    (hxs : xs.Pairwise R) (hfind : xs.find? p = some a) (hb : b ∈ xs) (hmatch : p b = true) :
    b = a ∨ R a b := by
  obtain ⟨-, before, behind, rfl, hbefore⟩ := List.find?_eq_some_iff_append.1 hfind
  rcases List.mem_append.1 hb with hb | hb
  · have hother := hbefore b hb
    rw [hmatch] at hother
    cases hother
  · rcases List.mem_cons.1 hb with rfl | hb
    · exact .inl rfl
    · exact .inr (List.rel_of_pairwise_cons (List.pairwise_append.1 hxs).2.1 hb)

namespace SyntaxTree

def isBroken (t : SyntaxTree) : Bool := t.label.isError || t.label.missing

def holdsBroken (t : SyntaxTree) : Bool := t.preorder.any isBroken

def firstBroken? (t : SyntaxTree) : Option SyntaxTree := t.preorder.find? isBroken

/-- Exactly the nodes that hold a broken node are marked. -/
def MarksBroken (t : SyntaxTree) : Prop := ∀ n ∈ t.preorder, n.label.hasError = n.holdsBroken

/-- The topmost nodes stand in source order, and none reaches into a later one. -/
def InOrder (t : SyntaxTree) : Prop :=
  t.children.Pairwise fun a b => a.label.start ≤ b.label.start ∧ a.label.stop ≤ b.label.start

instance (t : SyntaxTree) : Decidable t.MarksBroken :=
  inferInstanceAs (Decidable (∀ n ∈ t.preorder, n.label.hasError = n.holdsBroken))

instance (t : SyntaxTree) : Decidable t.InOrder :=
  inferInstanceAs (Decidable (t.children.Pairwise fun a b =>
    a.label.start ≤ b.label.start ∧ a.label.stop ≤ b.label.start))

section
variable {t c : SyntaxTree} {n : Nat}

theorem holdsBroken_of_isBroken (h : t.isBroken = true) : t.holdsBroken = true :=
  List.any_eq_true.2 ⟨t, mem_preorder_self t, h⟩

theorem firstBroken?_eq_none (h : t.holdsBroken = false) : t.firstBroken? = none :=
  List.find?_eq_none.2 (List.any_eq_false.1 h)

theorem exists_firstBroken? (h : t.holdsBroken = true) : ∃ n, t.firstBroken? = some n :=
  Option.isSome_iff_exists.1 (List.find?_isSome.2 (List.any_eq_true.1 h))

namespace MarksBroken

theorem self (h : t.MarksBroken) : t.label.hasError = t.holdsBroken := h t (mem_preorder_self t)

theorem child (h : t.MarksBroken) (hc : c ∈ t.children) : c.MarksBroken :=
  fun n hn => h n (preorder_subset hc hn)

/-- A missing node is marked, so it makes no difference whether one looks for it as well. -/
theorem hasError_or_missing (h : t.MarksBroken) :
    (t.label.hasError || t.label.missing) = t.holdsBroken := by
  rw [h.self]
  cases hmissing : t.label.missing with
  | false => exact Bool.or_false _
  | true =>
      have hbroken : t.isBroken = true := by rw [isBroken, hmissing, Bool.or_true]
      rw [holdsBroken_of_isBroken hbroken, Bool.or_true]

end MarksBroken

/-! ## The first broken node -/

/-- The search goes on behind a tree in which it has found nothing, and passes over a tree
without a mark. It is right about several trees if it is right about each. -/
theorem search_eq {ts : List SyntaxTree}
    (hmarks : ∀ t ∈ ts, t.label.hasError = t.holdsBroken)
    (hfound : ∀ t ∈ ts, t.firstErrorRow? = t.firstBroken?.map (·.label.startRow)) :
    firstErrorRow?.search ts = ((preorderAll ts).find? isBroken).map (·.label.startRow) := by
  induction ts with
  | nil => rfl
  | cons t more ih =>
      have hmore := ih (fun u hu => hmarks u (List.mem_cons_of_mem t hu))
        fun u hu => hfound u (List.mem_cons_of_mem t hu)
      have ht := hmarks t List.mem_cons_self
      have hsplit : (preorderAll (t :: more)).find? isBroken =
          t.firstBroken?.or ((preorderAll more).find? isBroken) := by
        rw [preorderAll, List.find?_append, firstBroken?]
      rw [firstErrorRow?.search, hfound t List.mem_cons_self, hmore, hsplit]
      -- where a marked tree yields nothing both sides go on, so its mark need not be right
      cases hmark : t.label.hasError with
      | false =>
          rw [firstBroken?_eq_none (ht.symm.trans hmark)]
          rfl
      | true => cases t.firstBroken? <;> rfl

/-- Where the marks are right, no broken node is missed for want of a mark above it. -/
theorem firstErrorRow?_eq (h : t.MarksBroken) :
    t.firstErrorRow? = t.firstBroken?.map (·.label.startRow) := by
  induction t using forest_induction with
  | node label children ih =>
      have hbelow : firstErrorRow?.search children =
          ((preorderAll children).find? isBroken).map (·.label.startRow) :=
        search_eq (fun c hc => (h.child hc).self) fun c hc => ih c hc (h.child hc)
      have hself : isBroken (.node label children) = (label.isError || label.missing) := rfl
      rw [firstErrorRow?, hbelow, firstBroken?, preorder, List.find?_cons, hself]
      cases label.isError || label.missing <;> rfl

theorem exists_firstErrorRow? (h : t.MarksBroken) (hbroken : t.label.hasError = true) :
    ∃ b, t.firstBroken? = some b ∧ t.firstErrorRow? = some b.label.startRow := by
  obtain ⟨b, hb⟩ := exists_firstBroken? (h.self.symm.trans hbroken)
  refine ⟨b, hb, ?_⟩
  rw [firstErrorRow?_eq h, hb, Option.map_some]

/-! ## What is held back -/

/-- The first item from the end starts behind all others. -/
theorem lt_lastStart_iff (h : t.InOrder) :
    n < ((t.children.reverse.find? fun c => !c.label.extra).map (·.label.start)).getD 0 ↔
      ∃ c ∈ t.items, n < c.label.start := by
  cases hlast : t.children.reverse.find? fun c => !c.label.extra with
  | none =>
      have hnone : t.items = [] := List.filter_eq_nil_iff.2 fun c hc =>
        List.find?_eq_none.1 hlast c (List.mem_reverse.2 hc)
      simp [hnone]
  | some last =>
      have hfree := List.find?_some hlast
      have hitem : last ∈ t.items :=
        List.mem_filter.2 ⟨List.mem_reverse.1 (List.mem_of_find?_eq_some hlast), hfree⟩
      constructor
      · exact fun hlt => ⟨last, hitem, hlt⟩
      · rintro ⟨c, hc, hlt⟩
        obtain ⟨hc, hplace⟩ := List.mem_filter.1 hc
        rcases eq_or_rel_of_find? (List.pairwise_reverse.2 h) hlast (List.mem_reverse.2 hc)
          hplace with rfl | ⟨hstart, -⟩
        · exact hlt
        · exact Nat.lt_of_lt_of_le hlt hstart

/-- A byte is in front of the text held back if and only if it is in front of some item and of
everything that is marked. -/
theorem lt_holdBackPoint_iff (h : t.InOrder) :
    n < t.holdBackPoint ↔ t.label.isError = false ∧ (∃ c ∈ t.items, n < c.label.start) ∧
      ∀ c ∈ t.children, (c.label.hasError || c.label.missing) = true → n < c.label.start := by
  cases herror : t.label.isError with
  | true => simp [holdBackPoint, herror]
  | false =>
      rw [holdBackPoint, herror, if_neg Bool.false_ne_true]
      dsimp only
      cases hfirst : t.children.find? fun c => c.label.hasError || c.label.missing with
      | none =>
          have hclean := List.find?_eq_none.1 hfirst
          rw [lt_lastStart_iff h]
          exact ⟨fun hitem => ⟨rfl, hitem, fun c hc hmark => absurd hmark (hclean c hc)⟩,
            fun ⟨_, hitem, _⟩ => hitem⟩
      | some first =>
          have hmarked := List.find?_some hfirst
          rw [Nat.lt_min, lt_lastStart_iff h]
          constructor
          · rintro ⟨hlt, hitem⟩
            refine ⟨rfl, hitem, fun c hc hmark => ?_⟩
            rcases eq_or_rel_of_find? h hfirst hc hmark with rfl | ⟨hstart, -⟩
            · exact hlt
            · exact Nat.lt_of_lt_of_le hlt hstart
          · rintro ⟨-, hitem, hall⟩
            exact ⟨hall first (List.mem_of_find?_eq_some hfirst) hmarked, hitem⟩

theorem lt_holdBackPoint_iff_holdsBroken (h : t.InOrder) (hmarks : t.MarksBroken) :
    n < t.holdBackPoint ↔ t.label.isError = false ∧ (∃ c ∈ t.items, n < c.label.start) ∧
      ∀ c ∈ t.children, c.holdsBroken = true → n < c.label.start := by
  have hmarked : ∀ c ∈ t.children, (c.label.hasError || c.label.missing) = c.holdsBroken :=
    fun c hc => (hmarks.child hc).hasError_or_missing
  rw [lt_holdBackPoint_iff h]
  exact and_congr_right fun _ => and_congr_right fun _ => forall₂_congr fun c hc => by
    rw [hmarked c hc]

/-- Of two topmost nodes the one that starts first ends before the other one starts. -/
theorem InOrder.stop_le {d : SyntaxTree} (h : t.InOrder) (hc : c ∈ t.children)
    (hd : d ∈ t.children) (hlt : c.label.start < d.label.start) :
    c.label.stop ≤ d.label.start := by
  obtain ⟨i, hi, rfl⟩ := List.mem_iff_getElem.1 hc
  obtain ⟨j, hj, rfl⟩ := List.mem_iff_getElem.1 hd
  rcases Nat.lt_trichotomy i j with hij | rfl | hji
  · exact (List.pairwise_iff_getElem.1 h i j hi hj hij).2
  · exact absurd hlt (Nat.lt_irrefl _)
  · have hback := (List.pairwise_iff_getElem.1 h j i hj hi hji).1
    exact absurd hlt (Nat.not_lt.2 hback)

/-- A topmost node that starts in front of the text held back ends in front of it. -/
theorem stop_le_holdBackPoint (h : t.InOrder) (hc : c ∈ t.children)
    (hlt : c.label.start < t.holdBackPoint) : c.label.stop ≤ t.holdBackPoint := by
  obtain ⟨d, hd, hpoint⟩ := exists_of_holdBackPoint_ne_zero (Nat.ne_zero_of_lt hlt)
  rw [← hpoint] at hlt ⊢
  exact h.stop_le hc hd hlt

/-- A topmost node that starts in front of the text held back is whole. -/
theorem holdsBroken_of_lt_holdBackPoint (h : t.InOrder) (hmarks : t.MarksBroken)
    (hc : c ∈ t.children) (hlt : c.label.start < t.holdBackPoint) : c.holdsBroken = false := by
  by_contra hbroken
  have hbehind := ((lt_holdBackPoint_iff_holdsBroken h hmarks).1 hlt).2.2 c hc
    (eq_true_of_ne_false hbroken)
  exact Nat.lt_irrefl _ hbehind

/-- If more than the last item is held back, it is for a broken node that starts there. -/
theorem exists_holdsBroken_of_holdBackPoint_lt (h : t.InOrder) (hmarks : t.MarksBroken)
    (herror : t.label.isError = false) (hitem : ∃ c ∈ t.items, t.holdBackPoint < c.label.start) :
    ∃ b ∈ t.children, b.holdsBroken = true ∧ b.label.start = t.holdBackPoint := by
  have hpoint := (lt_holdBackPoint_iff_holdsBroken h hmarks (n := t.holdBackPoint)).not.1
    (Nat.lt_irrefl _)
  push Not at hpoint
  obtain ⟨b, hb, hbroken, hle⟩ := hpoint herror hitem
  refine ⟨b, hb, hbroken, Nat.le_antisymm hle (Nat.not_lt.1 fun hlt => ?_)⟩
  have hbehind := ((lt_holdBackPoint_iff_holdsBroken h hmarks).1 hlt).2.2 b hb hbroken
  exact Nat.lt_irrefl _ hbehind

end

/-- Let the topmost nodes of a tree stand in order and the marks be right. Each of them that starts
in front of the text held back is whole and ends in front of it. If an item starts behind the point
where that text begins, then something broken begins at the point, unless the whole tree is an
error. So the point is as late as it can be: in front of it are exactly the bytes in front of some
item and of all that is broken. If anything is broken, the row found is that of the first broken
node, and the text is refused with its line. -/
theorem breakage_located {t : SyntaxTree} (horder : t.InOrder) (hmarks : t.MarksBroken) :
    (∀ c ∈ t.children, c.label.start < t.holdBackPoint →
      c.holdsBroken = false ∧ c.label.stop ≤ t.holdBackPoint) ∧
    (t.label.isError = false → (∃ c ∈ t.items, t.holdBackPoint < c.label.start) →
      ∃ b ∈ t.children, b.holdsBroken = true ∧ b.label.start = t.holdBackPoint) ∧
    (∀ n, n < t.holdBackPoint ↔ t.label.isError = false ∧ (∃ c ∈ t.items, n < c.label.start) ∧
      ∀ b ∈ t.children, b.holdsBroken = true → n < b.label.start) ∧
    (t.label.hasError = true → ∃ b, t.firstBroken? = some b ∧
      t.firstErrorRow? = some b.label.startRow ∧
      ∀ (p : TokenTree) (file : String) (text : Text) (lines : Nat), p.frontEnd text = t →
        p.parseStrict file text lines =
          .error (TokenTree.syntaxError file (b.label.startRow + 1 + lines))) := by
  refine ⟨fun c hc hlt => ⟨holdsBroken_of_lt_holdBackPoint horder hmarks hc hlt,
      stop_le_holdBackPoint horder hc hlt⟩,
    exists_holdsBroken_of_holdBackPoint_lt horder hmarks,
    fun n => lt_holdBackPoint_iff_holdsBroken horder hmarks, fun hbroken => ?_⟩
  obtain ⟨b, hb, hrow⟩ := exists_firstErrorRow? hmarks hbroken
  refine ⟨b, hb, hrow, ?_⟩
  rintro p file text lines rfl
  rw [p.parseStrict_of_hasError file text lines hbroken, TokenTree.errorLine, hrow,
    Option.getD_some]

def relabelled (f : SyntaxLabel → SyntaxLabel) : SyntaxTree → SyntaxTree
  | node label children => node (f label) children

end SyntaxTree

def unclosedSource : Text := "import a\n# note\ndef f(:\n  pass\nx = 1\n".toList

/-- A function whose parameters are not closed, between other statements and behind a comment. -/
def unclosedTree : SyntaxTree :=
  let node := SyntaxTree.spanning unclosedSource
  let word := SyntaxTree.fixed unclosedSource
  let marked := SyntaxTree.relabelled ({ · with hasError := true })
  marked (node 0 "module" 0 37
    [node 1 "import_statement" 0 8 [word 2 "import" 0 6, node 3 "dotted_name" 7 8 []],
     (node 4 "comment" 9 15 []).relabelled ({ · with extra := true }),
     marked (node 5 "function_definition" 16 30
      [word 6 "def" 16 19, node 7 "identifier" 20 21 [],
       marked (node 8 "parameters" 21 22
        [word 9 "(" 21 22,
         (word 10 ")" 22 22).relabelled ({ · with missing := true, hasError := true })]),
       word 11 ":" 22 23,
       node 12 "block" 26 30 [node 13 "pass_statement" 26 30 [word 14 "pass" 26 30]]]),
     node 15 "expression_statement" 31 36 []])

/-- What is held back begins with the unclosed function, and the third line is to blame. -/
theorem SyntaxTree.breakage_located_unclosed :
    let t := unclosedTree
    t.InOrder ∧ t.MarksBroken ∧ t.label.hasError = true ∧ t.holdBackPoint = 16 ∧
      (∀ c ∈ t.children, c.label.start < 16 → c.holdsBroken = false ∧ c.label.stop ≤ 16) ∧
      (∃ b ∈ t.children, b.holdsBroken = true ∧ b.label.start = 16) ∧
      (∃ b, t.firstBroken? = some b ∧ t.firstErrorRow? = some b.label.startRow) ∧
      t.firstErrorRow? = some 2 := by
  intro t
  have horder : t.InOrder := by decide
  have hmarks : t.MarksBroken := by decide
  have hbroken : t.label.hasError = true := rfl
  have hpoint : t.holdBackPoint = 16 := by decide
  have hbehind : ∃ c ∈ t.items, t.holdBackPoint < c.label.start := by
    rw [hpoint]
    decide
  obtain ⟨hwhole, hblame, -, hfirst⟩ := breakage_located horder hmarks
  obtain ⟨b, hb, hrow, -⟩ := hfirst hbroken
  rw [hpoint] at hwhole hblame hbehind
  exact ⟨horder, hmarks, hbroken, hpoint, hwhole, hblame rfl hbehind, ⟨b, hb, hrow⟩, by decide⟩

end ClonePrint
