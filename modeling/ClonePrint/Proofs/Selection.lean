import Mathlib.Data.List.Basic
import ClonePrint.Proofs.Depiction
import ClonePrint.Proofs.Standing

/-!
# What thresholds select

Thresholds are looked at when a function has been read to its end, and nothing else depends
on them: a function that is too small leaves the same placeholder behind as any other. So a
source has its candidates whatever the thresholds are, and the records are those of the
candidates that are large enough.
-/
namespace ClonePrint

/-- A function that has been read to its end. -/
structure Candidate where
  sketch : Sketch
  first : Nat
  last : Nat
deriving Repr, DecidableEq

namespace Candidate

def record? (file : String) (limits : Thresholds) (c : Candidate) : Option Fingerprint :=
  c.sketch.finish file c.first c.last limits

def recordsOf (file : String) (limits : Thresholds) (cs : List Candidate) : List Fingerprint :=
  cs.filterMap (record? file limits)

variable {file : String} {limits limits' : Thresholds} {c : Candidate} {r : Fingerprint}

theorem recordsOf_append (cs ds : List Candidate) :
    recordsOf file limits (cs ++ ds) = recordsOf file limits cs ++ recordsOf file limits ds :=
  List.filterMap_append

theorem recordsOf_singleton (c : Candidate) :
    recordsOf file limits [c] = (c.record? file limits).toList := by
  rw [recordsOf, List.filterMap_cons, List.filterMap_nil]
  cases c.record? file limits <;> rfl

theorem record?_eq_some_iff : c.record? file limits = some r ↔
    limits.minChars ≤ c.sketch.canonicalBody.length ∧ c.first ≤ c.last ∧
      limits.minLines ≤ c.last - c.first ∧
      r = ⟨Digest.ofText c.sketch.canonicalBody, file, String.ofList c.sketch.nameText,
        c.first, c.last⟩ := by
  rw [record?, Sketch.finish, Thresholds.admits]
  constructor
  · intro h
    split at h
    · rename_i hadmits
      simp only [Bool.and_eq_true, decide_eq_true_eq] at hadmits
      obtain ⟨⟨hchars, horder⟩, hlines⟩ := hadmits
      rw [Fingerprint.ofLines, Nat.min_eq_left horder] at h
      exact ⟨hchars, horder, hlines, (Option.some.inj h).symm⟩
    · cases h
  · rintro ⟨hchars, horder, hlines, rfl⟩
    rw [if_pos (by simp [hchars, horder, hlines]), Fingerprint.ofLines, Nat.min_eq_left horder]

theorem record?_of_le (hchars : limits.minChars ≤ limits'.minChars)
    (hlines : limits.minLines ≤ limits'.minLines) (h : c.record? file limits' = some r) :
    c.record? file limits = some r := by
  obtain ⟨hlong, horder, hspan, hr⟩ := record?_eq_some_iff.1 h
  exact record?_eq_some_iff.2 ⟨Nat.le_trans hchars hlong, horder, Nat.le_trans hlines hspan, hr⟩

theorem record?_eq_filter (hchars : limits.minChars = limits'.minChars)
    (hlines : limits.minLines ≤ limits'.minLines) (c : Candidate) :
    c.record? file limits' =
      (c.record? file limits).filter fun r => limits'.minLines ≤ r.lineSpan := by
  ext r
  rw [Option.filter_eq_some_iff, record?_eq_some_iff, record?_eq_some_iff, decide_eq_true_eq,
    ← hchars]
  constructor
  · rintro ⟨hlong, horder, hspan, rfl⟩
    exact ⟨⟨hlong, horder, Nat.le_trans hlines hspan, rfl⟩, hspan⟩
  · rintro ⟨⟨hlong, horder, -, rfl⟩, hspan⟩
    exact ⟨hlong, horder, hspan, rfl⟩

theorem recordsOf_sublist (hchars : limits.minChars ≤ limits'.minChars)
    (hlines : limits.minLines ≤ limits'.minLines) (cs : List Candidate) :
    (recordsOf file limits' cs).Sublist (recordsOf file limits cs) := by
  induction cs with
  | nil => exact .slnil
  | cons c cs ih =>
      rw [recordsOf, List.filterMap_cons, recordsOf, List.filterMap_cons]
      cases hsmall : c.record? file limits' with
      | some r =>
          rw [record?_of_le hchars hlines hsmall]
          exact ih.cons_cons r
      | none =>
          cases c.record? file limits with
          | none => exact ih
          | some r => exact ih.cons r

theorem recordsOf_eq_filter (hchars : limits.minChars = limits'.minChars)
    (hlines : limits.minLines ≤ limits'.minLines) (cs : List Candidate) :
    recordsOf file limits' cs =
      (recordsOf file limits cs).filter fun r => limits'.minLines ≤ r.lineSpan := by
  rw [recordsOf, recordsOf, List.filter_filterMap]
  exact List.filterMap_congr fun c _ => record?_eq_filter hchars hlines c

end Candidate

/-- Records that are found under any thresholds. The functions are the same whatever the
thresholds are, each with its body, its name and its lines. Higher thresholds only take records
away, and the least number of lines is looked up in them. -/
structure Selective (found : Thresholds → List Fingerprint) : Prop where
  candidates : ∃ (file : String) (cs : List Candidate), ∀ limits,
    found limits = Candidate.recordsOf file limits cs
  sublist {limits limits' : Thresholds} : limits.minChars ≤ limits'.minChars →
    limits.minLines ≤ limits'.minLines → (found limits').Sublist (found limits)
  filter {limits limits' : Thresholds} : limits.minChars = limits'.minChars →
    limits.minLines ≤ limits'.minLines →
      found limits' = (found limits).filter fun r => limits'.minLines ≤ r.lineSpan
  ordered {limits : Thresholds} {r : Fingerprint} : r ∈ found limits → r.lineStart ≤ r.lineEnd

theorem Selective.of_candidates {found : Thresholds → List Fingerprint} (file : String)
    (cs : List Candidate) (h : ∀ limits, found limits = Candidate.recordsOf file limits cs) :
    Selective found := by
  constructor
  · exact ⟨file, cs, h⟩
  · intro limits limits' hchars hlines
    rw [h, h]
    exact Candidate.recordsOf_sublist hchars hlines cs
  · intro limits limits' hchars hlines
    rw [h, h]
    exact Candidate.recordsOf_eq_filter hchars hlines cs
  · intro limits r hr
    rw [h, Candidate.recordsOf, List.mem_filterMap] at hr
    obtain ⟨c, -, hc⟩ := hr
    obtain ⟨-, horder, -, rfl⟩ := Candidate.record?_eq_some_iff.1 hc
    exact horder

namespace Survey

def within (v : Survey) (limits : Thresholds) : Survey := { v with limits }

end Survey

namespace Walk

/-- The walk with other records found so far. -/
def finding (found : List Fingerprint) (w : Walk) : Walk := { w with found }

end Walk

namespace Survey

variable {v : Survey} {t : SyntaxTree} {w : Walk}

theorem noteNode_finding (v : Survey) (t : SyntaxTree) (w : Walk) (limits : Thresholds)
    (found : List Fingerprint) :
    (v.within limits).noteNode t (w.finding found) = (v.noteNode t w).finding found := by
  rw [noteNode_eq, noteNode_eq]
  rfl

theorem emit_finding (v : Survey) (t : SyntaxTree) (w : Walk) (limits : Thresholds)
    (found : List Fingerprint) :
    (v.within limits).emit t (w.finding found) = (v.emit t w).finding found := by
  obtain ⟨contexts, callees, typeDepth, records⟩ := w
  cases contexts <;> rfl

/-- What happens when a node is entered does not depend on the thresholds. -/
theorem enter_finding (v : Survey) (t : SyntaxTree) (w : Walk) (limits : Thresholds)
    (found : List Fingerprint) :
    (v.within limits).enter t (w.finding found) =
      ((v.enter t w).1, (v.enter t w).2.finding found) := by
  have hcontexts : ((v.noteNode t w).finding found).contexts = (v.noteNode t w).contexts := rfl
  have hgrammar : (v.within limits).grammar = v.grammar := rfl
  rw [enter, enter, noteNode_finding, hgrammar]
  simp only [emit_finding, hcontexts]
  split_ifs <;> rfl

/-- Closing a function yields a candidate or, outside functions, nothing. -/
theorem exists_close (v : Survey) (t : SyntaxTree) (w : Walk) :
    ∃ (w' : Walk) (cs : List Candidate), ∀ limits found,
      (v.within limits).close t (w.finding found) =
        w'.finding (found ++ Candidate.recordsOf v.file limits cs) := by
  obtain ⟨contexts, callees, typeDepth, records⟩ := w
  cases contexts with
  | nil =>
      refine ⟨⟨[], callees, typeDepth, []⟩, [], fun limits found => ?_⟩
      rw [Candidate.recordsOf, List.filterMap_nil, List.append_nil]
      rfl
  | cons f outer =>
      refine ⟨(v.close t ⟨f :: outer, callees, typeDepth, []⟩),
        [⟨f.sketch, f.startLine, v.lineOf t.label.stopRow⟩], fun limits found => ?_⟩
      rw [Candidate.recordsOf_singleton]
      rfl

theorem exists_leave (v : Survey) (t : SyntaxTree) (w : Walk) :
    ∃ (w' : Walk) (cs : List Candidate), ∀ limits found,
      (v.within limits).leave t (w.finding found) =
        w'.finding (found ++ Candidate.recordsOf v.file limits cs) := by
  obtain ⟨left, hleft⟩ : ∃ left : Walk, ∀ found : List Fingerprint,
      (if v.grammar.isType t then { w.finding found with typeDepth := w.typeDepth - 1 }
        else w.finding found) = left.finding found := by
    split
    · exact ⟨{ w with typeDepth := w.typeDepth - 1 }, fun _ => rfl⟩
    · exact ⟨w, fun _ => rfl⟩
  obtain ⟨closed, cs, hclose⟩ := v.exists_close t left
  have hleave (limits : Thresholds) (found : List Fingerprint) :
      (v.within limits).leave t (w.finding found) =
        if v.grammar.isFunction t then (v.within limits).close t (left.finding found)
        else left.finding found := by
    rw [← hleft]
    rfl
  simp only [hleave]
  split
  · exact ⟨closed, cs, hclose⟩
  · exact ⟨left, [], fun limits found => by
      rw [Candidate.recordsOf, List.filterMap_nil, List.append_nil]⟩

mutual

/-- A walk comes across the same functions under any thresholds. -/
theorem exists_visit (v : Survey) : ∀ (t : SyntaxTree) (w : Walk),
    ∃ (w' : Walk) (cs : List Candidate), ∀ limits found,
      (v.within limits).visit (w.finding found) t =
        w'.finding (found ++ Candidate.recordsOf v.file limits cs)
  | .node label children, w => by
      obtain ⟨below, cs, hbelow⟩ := exists_visitAll v children (v.enter (.node label children) w).2
      cases hdescends : (v.enter (.node label children) w).1 with
      | true =>
          obtain ⟨left, ds, hleft⟩ := v.exists_leave (.node label children) below
          refine ⟨left, cs ++ ds, fun limits found => ?_⟩
          simp only [visit, enter_finding, hdescends, ↓reduceIte]
          rw [hbelow, hleft, Candidate.recordsOf_append, List.append_assoc]
      | false =>
          obtain ⟨left, ds, hleft⟩ :=
            v.exists_leave (.node label children) (v.enter (.node label children) w).2
          refine ⟨left, ds, fun limits found => ?_⟩
          simp only [visit, enter_finding, hdescends, Bool.false_eq_true, ↓reduceIte]
          exact hleft limits found

theorem exists_visitAll (v : Survey) : ∀ (ts : List SyntaxTree) (w : Walk),
    ∃ (w' : Walk) (cs : List Candidate), ∀ limits found,
      (v.within limits).visitAll (w.finding found) ts =
        w'.finding (found ++ Candidate.recordsOf v.file limits cs)
  | [], w => ⟨w, [], fun limits found => by
      rw [visitAll, Candidate.recordsOf, List.filterMap_nil, List.append_nil]⟩
  | t :: more, w => by
      obtain ⟨first, cs, hfirst⟩ := exists_visit v t w
      obtain ⟨last, ds, hlast⟩ := exists_visitAll v more first
      refine ⟨last, cs ++ ds, fun limits found => ?_⟩
      rw [visitAll, hfirst, hlast, Candidate.recordsOf_append, List.append_assoc]

end

theorem selective_run (v : Survey) (t : SyntaxTree) :
    Selective fun limits => (v.within limits).run t := by
  obtain ⟨w, cs, hvisit⟩ := v.exists_visit t {}
  refine Selective.of_candidates v.file cs fun limits => ?_
  have hrun := congrArg Walk.found (hvisit limits [])
  exact hrun

end Survey

namespace Outline

def finding (found : List Fingerprint) (o : Outline) : Outline :=
  { o with reading := { o.reading with found } }

theorem hear_finding (found : List Fingerprint) (text : Text) (o : Outline) :
    (o.finding found).hear text = (o.hear text).finding found := rfl

theorem base_finding (found : List Fingerprint) (p : PlacedTag) (o : Outline) :
    (o.finding found).base p = (o.base p).finding found := by
  unfold base finding
  split_ifs <;> rfl

theorem enter_finding (found : List Fingerprint) (p : PlacedTag) (o : Outline) :
    (o.finding found).enter p = (o.enter p).finding found := by
  unfold enter finding
  split_ifs <;> rfl

/-- A closing tag yields at most one candidate. -/
theorem exists_close (file : String) (p : PlacedTag) (o : Outline) :
    ∃ (o' : Outline) (cs : List Candidate), ∀ limits found,
      (o.finding found).close file limits p =
        o'.finding (found ++ Candidate.recordsOf file limits cs) := by
  obtain ⟨openings, unitLine, reading⟩ := o
  cases openings with
  | nil =>
      refine ⟨⟨[], unitLine, reading⟩, [], fun limits found => ?_⟩
      rw [Candidate.recordsOf, List.filterMap_nil, List.append_nil]
      rfl
  | cons top outer =>
      simp only [close, finding]
      split
      · exact ⟨⟨[], unitLine, { reading with corruptions := reading.corruptions + 1 }⟩, [],
          fun limits found => by rw [Candidate.recordsOf, List.filterMap_nil, List.append_nil]⟩
      · split
        · refine ⟨⟨Opening.sketching (·.push Placeholder.nested.text) outer, unitLine, reading⟩,
            [⟨top.sketch, top.line, (⟨[], unitLine, reading⟩ : Outline).sourceLine p.breaks⟩],
            fun limits found => ?_⟩
          rw [Candidate.recordsOf_singleton]
          rfl
        · exact ⟨⟨outer, unitLine, reading⟩, [], fun limits found => by
            rw [Candidate.recordsOf, List.filterMap_nil, List.append_nil]⟩

theorem exists_take (file : String) (p : PlacedTag) (o : Outline) :
    ∃ (o' : Outline) (cs : List Candidate), ∀ limits found,
      (o.finding found).take file limits p =
        o'.finding (found ++ Candidate.recordsOf file limits cs) := by
  simp only [take, hear_finding, base_finding, enter_finding]
  split
  · exact exists_close file p _
  · split
    · exact ⟨o.hear p.tag.textBefore, [], fun limits found => by
        rw [Candidate.recordsOf, List.filterMap_nil, List.append_nil]⟩
    · exact ⟨((o.hear p.tag.textBefore).base p).enter p, [], fun limits found => by
        rw [Candidate.recordsOf, List.filterMap_nil, List.append_nil]⟩

/-- The tags of an export hold the same functions under any thresholds. -/
theorem exists_foldl_take (file : String) (tags : List PlacedTag) (o : Outline) :
    ∃ (o' : Outline) (cs : List Candidate), ∀ limits found,
      tags.foldl (take file limits) (o.finding found) =
        o'.finding (found ++ Candidate.recordsOf file limits cs) := by
  induction tags generalizing o with
  | nil =>
      exact ⟨o, [], fun limits found => by
        rw [List.foldl_nil, Candidate.recordsOf, List.filterMap_nil, List.append_nil]⟩
  | cons p tags ih =>
      obtain ⟨first, cs, hfirst⟩ := exists_take file p o
      obtain ⟨last, ds, hlast⟩ := ih first
      refine ⟨last, cs ++ ds, fun limits found => ?_⟩
      rw [List.foldl_cons, hfirst, hlast, Candidate.recordsOf_append, List.append_assoc]

end Outline

/-- What is read from an export under any thresholds: always the same error, or records that
the thresholds select and always the same number of corruptions. -/
def Reading.IsSelective (read : Thresholds → Option (Except Error Reading)) : Prop :=
  (∃ e, ∀ limits, read limits = some (.error e)) ∨
    ∃ found corruptions, Selective found ∧
      ∀ limits, read limits = some (.ok ⟨found limits, corruptions⟩)

theorem Reading.isSelective_ofExport? (file : String) (text : Text) :
    Reading.IsSelective fun limits => Reading.ofExport? file limits text := by
  obtain ⟨first, s, hfirst⟩ : ∃ first s, TagStream.next ⟨text, 0⟩ = (first, s) := ⟨_, _, rfl⟩
  by_cases hempty : (first.name.isEmpty && first.textBefore.isEmpty && s.isEmpty) = true
  · refine .inr ⟨fun _ => [], 0, Selective.of_candidates file [] fun _ => rfl,
      fun limits => ?_⟩
    simp only [ofExport?, hfirst, hempty, ↓reduceIte]
  · by_cases hxml : first.name = "?xml".toList
    · obtain ⟨o, cs, hfold⟩ := Outline.exists_foldl_take file (Reading.tags text) {}
      refine .inr ⟨_, o.reading.corruptions,
        Selective.of_candidates file cs fun _ => rfl, fun limits => ?_⟩
      have hread : Reading.ofExport? file limits text = _ :=
        ofExport?_eq (by rw [hfirst]; exact hxml)
      have hreading := congrArg Outline.reading (hfold limits [])
      exact hread.trans (congrArg (fun r => some (Except.ok r)) hreading)
    · refine .inl ⟨.malformedTagStream file s.line, fun limits => ?_⟩
      simp only [ofExport?, hfirst, hempty, hxml, ↓reduceIte, ne_eq, not_false_eq_true,
        Bool.false_eq_true]

/-- Thresholds select among the functions of a tree and among those of an export. -/
theorem Thresholds.selective (v : Survey) (t : SyntaxTree) (file : String) (text : Text) :
    Selective (fun limits => (v.within limits).run t) ∧
      Reading.IsSelective fun limits => Reading.ofExport? file limits text :=
  ⟨v.selective_run t, Reading.isSelective_ofExport? file text⟩

end ClonePrint
