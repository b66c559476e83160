import ClonePrint.Proofs.Standing

/-!
# Which functions of an export are completed

Between the tag that opens a function and the tag that closes it each closing tag
has to fit the innermost element that was opened since. Nothing else decides
whether a function is completed, and nothing else goes into its sketch. What stands
in front of it counts for its lines only.
-/
namespace ClonePrint

namespace PlacedTag

/-- A tag that does not close anything and leaves open what is open. -/
def passes (p : PlacedTag) : Bool := Reader.opensComment p.tag || p.tag.isSelfClosing

def opensFunction (p : PlacedTag) : Bool :=
  !p.tag.isClosing && !p.passes && p.tag.bareName = "function".toList

def closesFunction (p : PlacedTag) : Bool := p.tag.isClosing && p.tag.bareName = "function".toList

/-- A unit tag says where line one is. -/
def isUnit (p : PlacedTag) : Bool :=
  !p.tag.isClosing && !Reader.opensComment p.tag && p.tag.bareName = "unit".toList

/-- The names of the elements that are open behind the tag, innermost first, given
those in front of it. A tag that closes another element than the innermost one has none. -/
def nesting? (p : PlacedTag) (names : List Text) : Option (List Text) :=
  if p.tag.isClosing then
    match names with
    | [] => none
    | name :: names => if p.tag.bareName = name then some names else none
  else if p.passes then some names
  else some (p.tag.bareName :: names)

theorem nesting?_append {p : PlacedTag} {names names' : List Text}
    (h : p.nesting? names = some names') (outer : List Text) :
    p.nesting? (names ++ outer) = some (names' ++ outer) := by
  unfold nesting? at h ⊢
  split at h
  · rename_i hclosing
    rw [if_pos hclosing]
    cases names with
    | nil => cases h
    | cons name names =>
        simp only at h
        split at h
        · rename_i hfits
          rw [List.cons_append]
          simp only [if_pos hfits, Option.some.inj h]
        · cases h
  · rename_i hclosing
    rw [if_neg hclosing]
    split at h
    · rename_i hpasses
      rw [if_pos hpasses, Option.some.inj h]
    · rename_i hpasses
      rw [if_neg hpasses, ← Option.some.inj h, List.cons_append]

theorem nesting?_nil_of_isClosing {p : PlacedTag} (h : p.tag.isClosing = true) :
    p.nesting? [] = none := if_pos h

end PlacedTag

/-- The tags close the elements of the given names, innermost first, and those that
they open themselves. Every closing tag fits the innermost element that is open. -/
def unwinds : List Text → List PlacedTag → Bool
  | names, [] => names.isEmpty
  | names, p :: tags => (p.nesting? names).any fun names => unwinds names tags

/-- Line breaks in front of the first unit tag. -/
def unitBreaks? (tags : List PlacedTag) : Option Nat :=
  (tags.find? PlacedTag.isUnit).map PlacedTag.breaks

theorem unitBreaks?_append (front back : List PlacedTag) :
    unitBreaks? (front ++ back) = (unitBreaks? front).or (unitBreaks? back) := by
  rw [unitBreaks?, List.find?_append, Option.map_or, unitBreaks?, unitBreaks?]

def sourceLine (unit : Option Nat) (breaks : Nat) : Nat :=
  match unit with
  | some unit => breaks - unit + 1
  | none => breaks + 1

namespace Sketch

/-- Add a run of text. The names are those of the elements inside the function that are
open around it, innermost first. What stands in a nested function does not count. -/
def hearing (names : List Text) (text : Text) (s : Sketch) : Sketch :=
  if text.isEmpty || names.contains "function".toList then s
  else
    TagTree.sketchLeaf text (names.headD "function".toList)
      ((names ++ ["function".toList]).find? fun name => name ≠ "name".toList) s

/-- Leave the innermost element. A nested function leaves its placeholder. -/
def leaving (names : List Text) (s : Sketch) : Sketch :=
  match names with
  | [] => s
  | name :: names =>
      if name = "function".toList ∧ names.contains "function".toList = false then s.mark .nested
      else s

/-- Add what stands in front of a tag and what the tag closes. -/
def meeting (names : List Text) (p : PlacedTag) (s : Sketch) : Sketch :=
  if p.tag.isClosing then (s.hearing names p.tag.textBefore).leaving names
  else s.hearing names p.tag.textBefore

/-- The sketch of a function after several tags. -/
def through : List Text → List PlacedTag → Sketch → Sketch
  | _, [], s => s
  | names, p :: tags, s =>
      match p.nesting? names with
      | none => s.meeting names p
      | some names' => through names' tags (s.meeting names p)

end Sketch

/-- The tags of a function, from the one that opens it to the one that closes it. -/
structure FunctionSpan where
  opener : PlacedTag
  inner : List PlacedTag
  closer : PlacedTag
deriving Repr, DecidableEq

namespace FunctionSpan

def tags (span : FunctionSpan) : List PlacedTag := span.opener :: (span.inner ++ [span.closer])

/-- What stands in the function is balanced. -/
structure IsBalanced (span : FunctionSpan) : Prop where
  opens : span.opener.opensFunction = true
  unwinds : unwinds [] span.inner = true
  closes : span.closer.closesFunction = true

def sketch (span : FunctionSpan) : Sketch := Sketch.through [] (span.inner ++ [span.closer]) {}

/-- The record of the function, if it is large enough, given the line breaks in front of
the first unit tag if there has been one. -/
def record? (file : String) (limits : Thresholds) (unit : Option Nat) (span : FunctionSpan) :
    Option Fingerprint :=
  span.sketch.finish file (sourceLine unit span.opener.breaks)
    (sourceLine (unit.or (unitBreaks? (span.opener :: span.inner))) span.closer.breaks) limits

end FunctionSpan

/-- A place where a function is completed. -/
structure Completion where
  before : List PlacedTag
  span : FunctionSpan
  after : List PlacedTag
deriving Repr, DecidableEq

namespace Completion

structure IsIn (c : Completion) (tags : List PlacedTag) : Prop where
  tags : tags = c.before ++ (c.span.tags ++ c.after)
  balanced : c.span.IsBalanced

def record? (file : String) (limits : Thresholds) (c : Completion) : Option Fingerprint :=
  c.span.record? file limits (unitBreaks? c.before)

end Completion

/-- What stands in front of the tag that closes a function, this tag, and the rest. -/
structure Enclosure where
  inner : List PlacedTag
  closer : PlacedTag
  after : List PlacedTag
deriving Repr, DecidableEq

/-- The enclosure seen from one tag further out. -/
def Enclosure.behind (p : PlacedTag) (e : Enclosure) : Enclosure := { e with inner := p :: e.inner }

/-- Look for the tag that closes a function in which the elements of the given names are
open, innermost first. -/
def enclosure? : List Text → List PlacedTag → Option Enclosure
  | _, [] => none
  | names, p :: tags =>
      if names.isEmpty && p.closesFunction then some ⟨[], p, tags⟩
      else (p.nesting? names).bind fun names => (enclosure? names tags).map (.behind p)

/-- The search finds the tag if and only if everything in front of it is balanced. -/
theorem enclosure?_eq_some_iff {names : List Text} {tags : List PlacedTag} {e : Enclosure} :
    enclosure? names tags = some e ↔ tags = e.inner ++ e.closer :: e.after ∧
      unwinds names e.inner = true ∧ e.closer.closesFunction = true := by
  induction tags generalizing names e with
  | nil => simp [enclosure?]
  | cons p tags ih =>
      rw [enclosure?]
      by_cases hcloser : (names.isEmpty && p.closesFunction) = true
      -- Nothing balanced can go on behind the tag that closes the function.
      · obtain ⟨hnames, hcloses⟩ := Bool.and_eq_true_iff.1 hcloser
        obtain rfl := List.isEmpty_iff.1 hnames
        rw [if_pos hcloser, Option.some.injEq]
        constructor
        · rintro rfl
          exact ⟨rfl, rfl, hcloses⟩
        · rintro ⟨htags, hunwinds, -⟩
          obtain ⟨inner, closer, after⟩ := e
          cases inner with
          | nil =>
              obtain ⟨rfl, rfl⟩ := List.cons.inj htags
              rfl
          | cons q inner =>
              obtain ⟨rfl, -⟩ := List.cons.inj htags
              rw [unwinds, PlacedTag.nesting?_nil_of_isClosing
                (Bool.and_eq_true_iff.1 hcloses).1] at hunwinds
              cases hunwinds
      · rw [if_neg hcloser, Option.bind_eq_some_iff]
        constructor
        · rintro ⟨names', hnesting, hrest⟩
          obtain ⟨e, he, rfl⟩ := Option.map_eq_some_iff.1 hrest
          obtain ⟨rfl, hunwinds, hcloses⟩ := ih.1 he
          exact ⟨rfl, by rw [Enclosure.behind, unwinds, hnesting]; exact hunwinds, hcloses⟩
        · rintro ⟨htags, hunwinds, hcloses⟩
          obtain ⟨inner, closer, after⟩ := e
          cases inner with
          | nil =>
              obtain ⟨rfl, rfl⟩ := List.cons.inj htags
              exact absurd (Bool.and_eq_true_iff.2 ⟨hunwinds, hcloses⟩) hcloser
          | cons q inner =>
              obtain ⟨rfl, rfl⟩ := List.cons.inj htags
              rw [unwinds, Option.any_eq_true] at hunwinds
              obtain ⟨names', hnesting, hunwinds⟩ := hunwinds
              exact ⟨names', hnesting, Option.map_eq_some_iff.2
                ⟨⟨inner, closer, after⟩, ih.2 ⟨rfl, hunwinds, hcloses⟩, rfl⟩⟩

/-- The completed functions, given the tags in front. -/
def completions (before : List PlacedTag) : List PlacedTag → List Completion
  | [] => []
  | p :: tags =>
      (if p.opensFunction then
        ((enclosure? [] tags).map fun e =>
          (⟨before, ⟨p, e.inner, e.closer⟩, e.after⟩ : Completion)).toList
      else []) ++ completions (before ++ [p]) tags

theorem mem_completions {before tags : List PlacedTag} {c : Completion} :
    c ∈ completions before tags ↔
      ∃ mid, c.before = before ++ mid ∧ ({ c with before := mid } : Completion).IsIn tags := by
  obtain ⟨front, ⟨opener, inner, closer⟩, after⟩ := c
  induction tags generalizing before with
  | nil =>
      simp only [completions, List.not_mem_nil, false_iff]
      rintro ⟨mid, -, hin⟩
      exact absurd hin.tags (by simp [FunctionSpan.tags])
  | cons p tags ih =>
      rw [completions, List.mem_append, ih]
      constructor
      · rintro (hmem | ⟨mid, hbefore, hin⟩)
        · split at hmem
          · rename_i hopens
            rw [Option.mem_toList, Option.map_eq_some_iff] at hmem
            obtain ⟨e, he, heq⟩ := hmem
            cases heq
            obtain ⟨rfl, hunwinds, hcloses⟩ := enclosure?_eq_some_iff.1 he
            exact ⟨[], (List.append_nil _).symm, by simp [FunctionSpan.tags],
              hopens, hunwinds, hcloses⟩
          · cases hmem
        · exact ⟨p :: mid, by rw [hbefore, List.append_assoc]; rfl,
            congrArg (p :: ·) hin.tags, hin.balanced⟩
      · rintro ⟨mid, hbefore, htags, hopens, hunwinds, hcloses⟩
        cases mid with
        | nil =>
            obtain ⟨rfl, rfl⟩ := List.cons.inj htags
            left
            rw [if_pos hopens, Option.mem_toList, Option.map_eq_some_iff]
            exact ⟨⟨inner, closer, after⟩,
              enclosure?_eq_some_iff.2 ⟨by simp, hunwinds, hcloses⟩, by simp_all⟩
        | cons q mid =>
            obtain ⟨rfl, rfl⟩ := List.cons.inj htags
            exact .inr ⟨mid, by rw [hbefore, List.append_assoc]; rfl, rfl, hopens, hunwinds,
              hcloses⟩

theorem nodup_completions (before tags : List PlacedTag) :
    ((completions before tags).map Completion.before).Nodup := by
  induction tags generalizing before with
  | nil => exact List.nodup_nil
  | cons p tags ih =>
      rw [completions, List.map_append]
      refine List.nodup_append.2 ⟨?_, ih _, ?_⟩
      · split
        · cases enclosure? [] tags <;> simp
        · exact List.nodup_nil
      · intro b hb b' hb' heq
        obtain ⟨c, hc, rfl⟩ := List.mem_map.1 hb
        obtain ⟨c', hc', rfl⟩ := List.mem_map.1 hb'
        obtain ⟨mid, hmid, -⟩ := mem_completions.1 hc'
        have hfirst : c.before = before := by
          split at hc
          · rw [Option.mem_toList, Option.map_eq_some_iff] at hc
            obtain ⟨e, -, rfl⟩ := hc
            rfl
          · cases hc
        have hlength := congrArg List.length (hfirst.symm.trans (heq.trans hmid))
        simp at hlength

end ClonePrint
