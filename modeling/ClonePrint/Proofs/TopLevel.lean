import ClonePrint.Backlog
import ClonePrint.Proofs.Depiction
import ClonePrint.Proofs.Windows

/-!
# Cuts in front of the items of a file

The items of a file are the nodes at the top of its tree that may not stand anywhere. Most of
them are statements, but a fixed token between two statements is an item as well. A file is cut
in front of any item, so a piece may begin with such a separator. Every cut is in front of a
statement if and only if no separator stands alone.
-/
namespace ClonePrint

namespace SyntaxTree

/-- The top-level items of a file. -/
def items (t : SyntaxTree) : List SyntaxTree := t.children.filter fun c => !c.label.extra

/-- The items that are fixed tokens. -/
def separators (t : SyntaxTree) : List SyntaxTree := t.items.filter fun c => !c.label.named

/-- An item that stands for a rule starts at byte `n`. -/
def StartsStatement (t : SyntaxTree) (n : Nat) : Prop :=
  ∃ c ∈ t.items, c.label.named = true ∧ c.label.start = n

instance (t : SyntaxTree) (n : Nat) : Decidable (t.StartsStatement n) :=
  inferInstanceAs (Decidable (∃ c ∈ t.items, c.label.named = true ∧ c.label.start = n))

theorem mem_separators {t s : SyntaxTree} :
    s ∈ t.separators ↔ s ∈ t.items ∧ s.label.named = false := by
  simp [separators]

theorem itemStarts?_of_clean {t : SyntaxTree} (hclean : t.label.hasError = false) :
    t.itemStarts? = some (t.items.map (·.label.start)) := by
  simp [itemStarts?, items, hclean]

/-- An item starts where a statement starts, unless it is a separator that does not. -/
theorem startsStatement_of_mem_items {t c : SyntaxTree} (hc : c ∈ t.items)
    (h : c ∈ t.separators → t.StartsStatement c.label.start) :
    t.StartsStatement c.label.start := by
  by_cases hnamed : c.label.named = true
  · exact ⟨c, hc, hnamed, rfl⟩
  · exact h (mem_separators.2 ⟨hc, by simpa using hnamed⟩)

theorem holdBackPoint_cases (t : SyntaxTree) :
    t.holdBackPoint = 0 ∨ (∃ c ∈ t.items, c.label.start = t.holdBackPoint) ∨
      ∃ c ∈ t.children, (c.label.hasError || c.label.missing) = true ∧
        c.label.start = t.holdBackPoint := by
  unfold holdBackPoint
  split
  · exact .inl rfl
  · cases hlast : t.children.reverse.find? fun c => !c.label.extra with
    | none =>
        refine .inl ?_
        split
        · rfl
        · exact Nat.min_zero _
    | some last =>
        have hplace := List.find?_some hlast
        have hitem : last ∈ t.items :=
          List.mem_filter.2 ⟨List.mem_reverse.1 (List.mem_of_find?_eq_some hlast), hplace⟩
        dsimp only [Option.map_some, Option.getD_some]
        split
        · exact .inr (.inl ⟨last, hitem, rfl⟩)
        · rename_i broken hbroken
          have hmarked := List.find?_some hbroken
          rcases Nat.le_total broken.label.start last.label.start with hle | hle
          · rw [Nat.min_eq_left hle]
            exact .inr (.inr ⟨broken, List.mem_of_find?_eq_some hbroken, hmarked, rfl⟩)
          · rw [Nat.min_eq_right hle]
            exact .inr (.inl ⟨last, hitem, rfl⟩)

theorem exists_of_holdBackPoint_ne_zero {t : SyntaxTree} (h : t.holdBackPoint ≠ 0) :
    ∃ c ∈ t.children, c.label.start = t.holdBackPoint := by
  rcases t.holdBackPoint_cases with hzero | ⟨c, hc, hpoint⟩ | ⟨c, hc, -, hpoint⟩
  · exact absurd hzero h
  · exact ⟨c, List.mem_of_mem_filter hc, hpoint⟩
  · exact ⟨c, hc, hpoint⟩

/-- Where something is held back although nothing is broken, an item starts. -/
theorem exists_mem_items_of_holdBackPoint_ne_zero {t : SyntaxTree} (h : t.holdBackPoint ≠ 0)
    (hwhole : ∀ c ∈ t.children, c.label.hasError = false ∧ c.label.missing = false) :
    ∃ c ∈ t.items, c.label.start = t.holdBackPoint := by
  rcases t.holdBackPoint_cases with hzero | hitem | ⟨c, hc, hbroken, -⟩
  · exact absurd hzero h
  · exact hitem
  · obtain ⟨herror, hmissing⟩ := hwhole c hc
    rw [herror, hmissing] at hbroken
    cases hbroken

end SyntaxTree

namespace Splitter

theorem byteOffset_mem_of_cutBest {limit : Nat} {items : List Nat} {file : String} {t : Text}
    {cs : List Chunk} (hpartition : Chunk.Partition file t cs) (hbest : CutBest limit items t cs)
    {c : Chunk} (hc : c ∈ cs) (hstart : c.openStart = false) (hpos : 0 < c.byteOffset) :
    c.byteOffset ∈ items := by
  obtain ⟨i, hi, rfl⟩ := List.mem_iff_getElem.1 hc
  cases i with
  | zero =>
      rw [hpartition.byteOffset 0 hi] at hpos
      exact absurd hpos (Nat.lt_irrefl 0)
  | succ i =>
      have hjoined := List.isChain_iff_getElem.1 hpartition.joined i hi
      obtain ⟨-, e, -, hcut⟩ := List.isChain_iff_getElem.1 hbest.cut i hi
      rw [hjoined.2, hstart] at hcut
      cases hcut with
      | item mem after inside last => exact mem

theorem BestCut.eq_of_mem {items : List Nat} {t : Text} {s e n : Nat} {isOpen : Bool}
    (h : BestCut items t s e n isOpen) (hitem : e ∈ items) (hafter : s < e) :
    n = e ∧ isOpen = false := by
  cases h with
  | item mem after inside last =>
      exact ⟨Nat.le_antisymm inside (last e hitem hafter (Nat.le_refl e)), rfl⟩
  | line none before behind last => exact absurd (Nat.le_refl e) (none e hitem hafter)
  | stop none whole unbroken => exact absurd (Nat.le_refl e) (none e hitem hafter)

/-- With a limit of `n` bytes the first piece ends where the item at byte `n` starts. -/
theorem exists_mem_of_cutBest {n : Nat} {items : List Nat} {file : String} {t : Text}
    {cs : List Chunk} (hpartition : Chunk.Partition file t cs) (hbest : CutBest n items t cs)
    (hpos : 0 < n) (hlarge : n < Text.size t) (hitem : n ∈ items)
    (hboundary : (Text.cut? n t).isSome = true) :
    ∃ c ∈ cs, c.openStart = false ∧ c.byteOffset = n := by
  obtain ⟨last, hlast, hend⟩ := hbest.last
  have hzero (h : 0 < cs.length) : cs[0].byteOffset = 0 := hpartition.byteOffset 0 h
  cases cs with
  | nil => cases hlast
  | cons c cs =>
      have hfirst : c.byteOffset = 0 := hzero (Nat.zero_lt_succ _)
      cases cs with
      | nil =>
          have hsame : c = last := Option.some.inj hlast
          rw [← hsame, hfirst] at hend
          omega
      | cons d cs =>
          obtain ⟨-, e, hwindow, hcut⟩ := (List.isChain_cons_cons.1 hbest.cut).1
          obtain ⟨-, hedge⟩ := (List.isChain_cons_cons.1 hpartition.joined).1
          rw [hfirst] at hwindow hcut
          have hge : n ≤ e := hwindow.widest n hboundary hpos (Nat.le_add_left n 0)
          have hle : e ≤ n := by
            rcases hwindow.fits with hfits | hwide
            · omega
            · exact hwide n hboundary hpos
          obtain rfl := Nat.le_antisymm hge hle
          obtain ⟨hoffset, hopen⟩ := hcut.eq_of_mem hitem hpos
          exact ⟨d, List.mem_cons_of_mem c List.mem_cons_self, hedge.symm.trans hopen, hoffset⟩

end Splitter

namespace TokenTree

variable {p : TokenTree} {file : SourceFile}

theorem chunksOf_small {limit : Nat} (hsmall : Text.size file.text ≤ max limit 1)
    (memory : Memory) :
    (Backlog.chunksOf p.toParser (.ofLimit limit) file memory).value = .ok [file.chunk] := by
  have hneeds : (Splitter.ofLimit limit).needsSplit file.text = false :=
    decide_eq_false (Nat.not_lt.2 hsmall)
  rw [Backlog.chunksOf, hneeds, Bool.and_false]
  rfl

section
variable (hclean : (p.frontEnd file.text).label.hasError = false)
  (hsorted : (p.frontEnd file.text).items.Pairwise (·.label.start ≤ ·.label.start))
  (hboundary : ∀ c ∈ (p.frontEnd file.text).items,
    (Text.cut? c.label.start file.text).isSome = true)
include hclean hsorted hboundary

/-- A large file without errors is cut into pieces, at the best places. -/
theorem exists_chunksOf_large {limit : Nat} (hlarge : max limit 1 < Text.size file.text)
    (memory : Memory) :
    ∃ cs, (Backlog.chunksOf p.toParser (.ofLimit limit) file memory).value = .ok cs ∧
      Chunk.Partition file.name file.text cs ∧
      Splitter.CutBest (max limit 1) ((p.frontEnd file.text).items.map (·.label.start))
        file.text cs := by
  have hneeds : (Splitter.ofLimit limit).needsSplit file.text = true := decide_eq_true hlarge
  have hsome : ∀ item ∈ (p.frontEnd file.text).items.map (·.label.start),
      item < Text.size file.text → (Text.cut? item file.text).isSome = true := by
    intro item hitem hlt
    obtain ⟨c, hc, rfl⟩ := List.mem_map.1 hitem
    exact hboundary c hc
  obtain ⟨cs, hcs, hpartition⟩ :=
    (Splitter.ofLimit limit).exists_splitAtItems_eq_some file.name hsome
  refine ⟨cs, ?_, hpartition,
    Splitter.cutBest_splitAtItems hlarge (List.pairwise_map.2 hsorted) hcs⟩
  simp only [Backlog.chunksOf, toParser, hneeds, Bool.and_true, ↓reduceIte, Answer.map,
    SyntaxTree.itemStarts?_of_clean hclean, hcs]

/-- A piece with a closed start behind the beginning of the file starts at an item. -/
theorem exists_item_of_mem_chunksOf {limit : Nat} {memory : Memory} {cs : List Chunk} {c : Chunk}
    (hcs : (Backlog.chunksOf p.toParser (.ofLimit limit) file memory).value = .ok cs)
    (hc : c ∈ cs) (hstart : c.openStart = false) (hpos : 0 < c.byteOffset) :
    ∃ item ∈ (p.frontEnd file.text).items, item.label.start = c.byteOffset := by
  rcases Nat.lt_or_ge (max limit 1) (Text.size file.text) with hlarge | hsmall
  · obtain ⟨pieces, hpieces, hpartition, hbest⟩ :=
      exists_chunksOf_large hclean hsorted hboundary hlarge memory
    obtain rfl := Except.ok.inj (hcs.symm.trans hpieces)
    exact List.mem_map.1 (Splitter.byteOffset_mem_of_cutBest hpartition hbest hc hstart hpos)
  · obtain rfl := Except.ok.inj (hcs.symm.trans (chunksOf_small hsmall memory))
    obtain rfl := List.mem_singleton.1 hc
    exact absurd hpos (Nat.lt_irrefl 0)

theorem exists_mem_chunksOf_of_item {item : SyntaxTree}
    (hitem : item ∈ (p.frontEnd file.text).items) (hpos : 0 < item.label.start)
    (hinside : item.label.start < Text.size file.text) (memory : Memory) :
    ∃ cs, (Backlog.chunksOf p.toParser (.ofLimit item.label.start) file memory).value = .ok cs ∧
      ∃ c ∈ cs, c.openStart = false ∧ c.byteOffset = item.label.start := by
  have hmax : max item.label.start 1 = item.label.start := Nat.max_eq_left hpos
  obtain ⟨cs, hcs, hpartition, hbest⟩ :=
    exists_chunksOf_large hclean hsorted hboundary (by rwa [hmax]) memory
  rw [hmax] at hbest
  exact ⟨cs, hcs, Splitter.exists_mem_of_cutBest hpartition hbest hpos hinside
    (List.mem_map.2 ⟨item, hitem, rfl⟩) (hboundary item hitem)⟩

/-- Items, pieces and held back parts begin at statements if and only if the separators do. -/
theorem startsStatement_iff_separators
    (hseparators : ∀ s ∈ (p.frontEnd file.text).separators,
      s.label.start < Text.size file.text) :
    ((∀ ns, (p.frontEnd file.text).itemStarts? = some ns →
        ∀ n ∈ ns, (p.frontEnd file.text).StartsStatement n) ↔
      ∀ s ∈ (p.frontEnd file.text).separators,
        (p.frontEnd file.text).StartsStatement s.label.start) ∧
    ((∀ limit memory cs,
        (Backlog.chunksOf p.toParser (.ofLimit limit) file memory).value = .ok cs →
        ∀ c ∈ cs, c.openStart = false → 0 < c.byteOffset →
          (p.frontEnd file.text).StartsStatement c.byteOffset) ↔
      ∀ s ∈ (p.frontEnd file.text).separators, 0 < s.label.start →
        (p.frontEnd file.text).StartsStatement s.label.start) ∧
    ∀ t : SyntaxTree, (∀ c ∈ t.children, c.label.hasError = false ∧ c.label.missing = false) →
      (∀ s ∈ t.separators, t.StartsStatement s.label.start) →
      t.holdBackPoint ≠ 0 → t.StartsStatement t.holdBackPoint := by
  refine ⟨⟨?_, ?_⟩, ⟨?_, ?_⟩, ?_⟩
  · intro h s hs
    exact h _ (SyntaxTree.itemStarts?_of_clean hclean) s.label.start
      (List.mem_map.2 ⟨s, (SyntaxTree.mem_separators.1 hs).1, rfl⟩)
  · intro h ns hns n hn
    obtain rfl := Option.some.inj ((SyntaxTree.itemStarts?_of_clean hclean).symm.trans hns)
    obtain ⟨item, hitem, rfl⟩ := List.mem_map.1 hn
    exact SyntaxTree.startsStatement_of_mem_items hitem (h item)
  · intro h s hs hpos
    have hitem := (SyntaxTree.mem_separators.1 hs).1
    obtain ⟨cs, hcs, c, hc, hstart, hoffset⟩ := exists_mem_chunksOf_of_item hclean hsorted
      hboundary hitem hpos (hseparators s hs) {}
    rw [← hoffset] at hpos ⊢
    exact h _ _ cs hcs c hc hstart hpos
  · intro h limit memory cs hcs c hc hstart hpos
    obtain ⟨item, hitem, hoffset⟩ :=
      exists_item_of_mem_chunksOf hclean hsorted hboundary hcs hc hstart hpos
    rw [← hoffset] at hpos ⊢
    exact SyntaxTree.startsStatement_of_mem_items hitem fun hs => h item hs hpos
  · intro t hwhole h hpoint
    obtain ⟨item, hitem, hstart⟩ :=
      SyntaxTree.exists_mem_items_of_holdBackPoint_ne_zero hpoint hwhole
    rw [← hstart]
    exact SyntaxTree.startsStatement_of_mem_items hitem (h item)

end

/-- Python, as far as it is needed for two names, each on its line or both on one. -/
def twoNames : TokenTree where
  grammar := .python
  frontEnd text :=
    let statement (id start : Nat) := SyntaxTree.spanning text id "expression_statement" start
      (start + 1) [.spanning text (id + 1) "identifier" start (start + 1) []]
    .spanning text 0 "module" 0 (Text.size text)
      (if text.contains ';' then
        [statement 1 0, .fixed text 3 ";" 1 2] ++ if text.contains 'y' then [statement 4 3] else []
      else [statement 1 0, statement 3 2])

theorem startsStatement_two_lines :
    let file : SourceFile := ⟨"m.py", "x\ny\n".toList⟩
    let t := twoNames.frontEnd file.text
    t.label.hasError = false ∧ t.items.Pairwise (·.label.start ≤ ·.label.start) ∧
      (∀ c ∈ t.items, (Text.cut? c.label.start file.text).isSome = true) ∧
      (∀ s ∈ t.separators, s.label.start < Text.size file.text) ∧
      t.itemStarts? = some [0, 2] ∧ (∀ n ∈ [0, 2], t.StartsStatement n) ∧
      ∀ limit memory cs,
        (Backlog.chunksOf twoNames.toParser (.ofLimit limit) file memory).value = .ok cs →
        ∀ c ∈ cs, c.openStart = false → 0 < c.byteOffset → t.StartsStatement c.byteOffset := by
  intro file t
  have hclean : t.label.hasError = false := rfl
  have hsorted : t.items.Pairwise (·.label.start ≤ ·.label.start) := by decide
  have hboundary : ∀ c ∈ t.items, (Text.cut? c.label.start file.text).isSome = true := by decide
  have hnone : t.separators = [] := by decide
  have hseparators : ∀ s ∈ t.separators, s.label.start < Text.size file.text := by
    rw [hnone]
    exact fun s hs => absurd hs List.not_mem_nil
  obtain ⟨hstarts, hpieces, -⟩ :=
    startsStatement_iff_separators hclean hsorted hboundary hseparators
  rw [hnone] at hstarts hpieces
  have hitems : t.itemStarts? = some [0, 2] := by decide
  exact ⟨hclean, hsorted, hboundary, hseparators, hitems,
    hstarts.2 (fun s hs => absurd hs List.not_mem_nil) _ hitems,
    hpieces.2 fun s hs => absurd hs List.not_mem_nil⟩

/-- Two statements on one line are cut in front of the semicolon between them, and a semicolon
behind the last statement is held back on its own. -/
theorem cut_in_front_of_semicolon :
    let file : SourceFile := ⟨"m.py", "x; y\n".toList⟩
    let t := twoNames.frontEnd file.text
    let u := twoNames.frontEnd "x;\n".toList
    t.label.hasError = false ∧ t.itemStarts? = some [0, 1, 3] ∧ ¬ t.StartsStatement 1 ∧
      (Backlog.chunksOf twoNames.toParser (.ofLimit 2) file {}).value =
        .ok [⟨"m.py", "x".toList, 0, 0, 0, false, false, true⟩,
          ⟨"m.py", "; ".toList, 1, 1, 0, false, false, true⟩,
          ⟨"m.py", "y\n".toList, 2, 3, 0, false, false, true⟩] ∧
      (∀ c ∈ u.children, c.label.hasError = false ∧ c.label.missing = false) ∧
      u.holdBackPoint = 1 ∧ ¬ u.StartsStatement 1 :=
  ⟨rfl, by decide, by decide, by decide +kernel, by decide, by decide, by decide⟩

end TokenTree

end ClonePrint
