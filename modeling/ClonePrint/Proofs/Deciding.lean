import ClonePrint.Chunk.Split
import ClonePrint.Parser.TokenTree
import ClonePrint.Proofs.Channels

/-!
# What parsing a chunk decides

Parsing a chunk through its syntax tree decides a part of it for good, the whole
chunk or its beginning or nothing, and hands the rest back. A part is decided
when its strict parse succeeds. It is also decided when the parse fails but there
is no neighbour to blame, and then it costs a warning.
-/
namespace ClonePrint

namespace Chunk

def front (text : Text) (c : Chunk) : Chunk := { c with text, openEnd := false }

def behind (skipped text : Text) (c : Chunk) : Chunk :=
  { c with
    text
    byteOffset := c.byteOffset + Text.size skipped
    lineOffset := c.lineOffset + Text.lineBreaks skipped
    openStart := false }

theorem tailFrom?_of_cut? {offset : Nat} {skipped text : Text} {c : Chunk}
    (h : Text.cut? offset c.text = some (skipped, text)) (hstart : c.openStart = false) :
    c.tailFrom? offset = some (c.behind skipped text) := by
  obtain ⟨happ, rfl⟩ := Text.cut?_eq_some_iff.1 h
  have hmin : min (Text.size skipped) (Text.size c.text) = Text.size skipped := by
    rw [← happ, Text.size_append]
    omega
  simp [tailFrom?, hmin, h, behind, hstart]

theorem behind_nil {c : Chunk} (hstart : c.openStart = false) : c.behind [] c.text = c := by
  cases c
  simp_all [behind, Text.size, Text.lineBreaks]

end Chunk

namespace TokenTree

/-- The functions of a part of a file, none if it does not parse. -/
def recordsOf (p : TokenTree) (part : Chunk) : List Fingerprint :=
  match p.parseStrict part.file part.text part.lineOffset with
  | .ok found => found
  | .error _ => []

def warningOf? (p : TokenTree) (part : Chunk) : Option String :=
  match p.parseStrict part.file part.text part.lineOffset with
  | .ok _ => none
  | .error cause => some (skippingFile part.file cause)

def accepts (p : TokenTree) (part : Chunk) : Bool := (p.warningOf? part).isNone

/-- The part of a chunk that a parse of it is about, if it can be parsed at all. -/
def attempt? (p : TokenTree) (c : Chunk) : Option Chunk :=
  if c.isClosed then some c
  else if c.openStart then none
  else
    let offset := (p.frontEnd c.text).holdBackPoint
    if offset = 0 then none else (Text.cut? offset c.text).map fun parts => c.front parts.1

/-- The part of a chunk that is decided when the chunk is parsed. A broken part
whose edges may be to blame is not. -/
def decided (p : TokenTree) (c : Chunk) : List Chunk :=
  (p.attempt? c).toList.filter fun part => p.accepts part || !part.provisional

/-- What parsing a chunk comes to: the part that is decided, and the part that is handed back. All
of a chunk is handed back if nothing can be parsed yet, or if an attempt fails and the edges may
be to blame. -/
inductive Parses (p : TokenTree) (c : Chunk) : List Chunk → List Chunk → Prop
  | whole (closed : c.isClosed = true) (final : p.accepts c = true ∨ c.provisional = false) :
      Parses p c [c] []
  | front {skipped text : Text} (starts : c.openStart = false) (ends : c.openEnd = true)
      (divides : skipped ++ text = c.text) (progress : 0 < Text.size skipped)
      (point : (p.frontEnd c.text).holdBackPoint = Text.size skipped)
      (final : p.accepts (c.front skipped) = true ∨ c.provisional = false) :
      Parses p c [c.front skipped] [c.behind skipped text]
  | defer (unclosed : c.isClosed = false) : Parses p c [] [c]
  | reopen {part : Chunk} (attempt : p.attempt? c = some part) (starts : c.openStart = false)
      (broken : p.accepts part = false) (provisional : c.provisional = true) :
      Parses p c [] [c.reopened]

theorem accepts_iff {p : TokenTree} {part : Chunk} :
    p.accepts part = true ↔
      ∃ found, p.parseStrict part.file part.text part.lineOffset = .ok found := by
  rw [accepts, warningOf?]
  split <;> simp [*]

theorem recordsOf_of_ok {p : TokenTree} {part : Chunk} {found : List Fingerprint}
    (h : p.parseStrict part.file part.text part.lineOffset = .ok found) :
    p.recordsOf part = found ∧ p.warningOf? part = none ∧ p.accepts part = true := by
  simp [recordsOf, warningOf?, accepts, h]

theorem recordsOf_of_error {p : TokenTree} {part : Chunk} {cause : Error}
    (h : p.parseStrict part.file part.text part.lineOffset = .error cause) :
    p.recordsOf part = [] ∧ p.warningOf? part = some (skippingFile part.file cause) ∧
      p.accepts part = false := by
  simp [recordsOf, warningOf?, accepts, h]

/-- What a worker replies to a job agrees with what the parse decides. -/
structure Answers (p : TokenTree) (c : Chunk) (replies : List Reply) : Prop where
  parses : p.Parses c (p.decided c) (replies.filterMap Reply.remainder?)
  found : replies.flatMap Reply.found = (p.decided c).flatMap p.recordsOf
  lines : replies.filterMap Reply.line? = (p.decided c).filterMap p.warningOf?

theorem answers_replies {p : TokenTree} {c : Chunk} {outcome : Outcome}
    (hwarnings : outcome.warnings = []) (hparses : p.Parses c (p.decided c) outcome.remainder.toList)
    (hfound : outcome.found = (p.decided c).flatMap p.recordsOf)
    (hlines : (p.decided c).filterMap p.warningOf? = []) :
    p.Answers c (Worker.replies c.file outcome) := by
  have hremainder : (Worker.replies c.file outcome).filterMap Reply.remainder? =
      outcome.remainder.toList := by
    rw [Worker.replies, hwarnings]
    cases outcome.remainder <;> rfl
  have hnone : (Worker.replies c.file outcome).filterMap Reply.line? = [] := by
    rw [Worker.replies, hwarnings]
    cases outcome.remainder <;> rfl
  exact ⟨by rwa [hremainder], by rw [flatMap_found_replies, hfound], by rw [hnone, hlines]⟩

theorem answers_deferred {p : TokenTree} {c back : Chunk} (hdecided : p.decided c = [])
    (hparses : p.Parses c [] [back]) : p.Answers c (Worker.replies c.file (.deferred back)) := by
  refine answers_replies rfl ?_ ?_ ?_
  · rw [hdecided]
    exact hparses
  · rw [hdecided]
    rfl
  · rw [hdecided]
    rfl

/-- A chunk with closed edges is decided, or its edges are opened again. -/
theorem answers_closed {p : TokenTree} {c : Chunk} {job : Job Chunk} {batch : Nat}
    {memory : Memory} {replies : List Reply} (hc : job.payload = c) (hclosed : c.isClosed = true)
    (h : (Worker.runJob p.toParser batch job memory).value = .ok replies) :
    p.Answers c replies := by
  have hstart : c.openStart = false := (Chunk.isClosed_iff.1 hclosed).1
  have hattempt : p.attempt? c = some c := by rw [attempt?, if_pos hclosed]
  have houtcome : p.outcome c = p.parseClosed c := by rw [outcome, if_pos hclosed]
  simp only [Worker.runJob, toParser, Answer.map, hc, houtcome, parseClosed] at h
  cases hparse : p.parseStrict c.file c.text c.lineOffset with
  | ok found =>
      obtain ⟨hfound, hlines, haccepts⟩ := recordsOf_of_ok hparse
      have hdecided : p.decided c = [c] := by simp [decided, hattempt, haccepts]
      simp only [hparse, Except.ok.injEq] at h
      rw [← h]
      refine answers_replies rfl ?_ ?_ ?_
      · rw [hdecided]
        exact .whole hclosed (.inl haccepts)
      · rw [hdecided]
        simp [Outcome.resolved, hfound]
      · rw [hdecided]
        simp [hlines]
  | error cause =>
      obtain ⟨hfound, hlines, haccepts⟩ := recordsOf_of_error hparse
      cases hprovisional : c.provisional with
      | true =>
          have hdecided : p.decided c = [] := by
            simp [decided, hattempt, haccepts, hprovisional]
          simp only [hparse, hprovisional, ↓reduceIte, Except.ok.injEq] at h
          rw [← h]
          exact answers_deferred hdecided (.reopen hattempt hstart haccepts hprovisional)
      | false =>
          have hdecided : p.decided c = [c] := by
            simp [decided, hattempt, haccepts, hprovisional]
          simp only [hparse, hprovisional, Bool.false_eq_true, ↓reduceIte, Except.ok.injEq] at h
          rw [← h]
          constructor
          · rw [hdecided]
            exact .whole hclosed (.inr hprovisional)
          · rw [hdecided]
            simp [Reply.found, Reply.warning, hfound]
          · rw [hdecided]
            simp [Reply.line?, Reply.warning, hlines]

/-- The beginning of a piece that ends inside an item is decided, or nothing is. -/
theorem answers_openEnd {p : TokenTree} {c : Chunk} {job : Job Chunk} {batch : Nat}
    {memory : Memory} {replies : List Reply} (hc : job.payload = c)
    (hclosed : c.isClosed = false) (hstart : c.openStart = false) (hprovisional : c.provisional = true)
    (h : (Worker.runJob p.toParser batch job memory).value = .ok replies) :
    p.Answers c replies := by
  have hend : c.openEnd = true := by simpa [Chunk.isClosed, hstart] using hclosed
  have houtcome : p.outcome c = p.parseOpenEnd c := by simp [outcome, hclosed, hstart]
  simp only [Worker.runJob, toParser, Answer.map, hc, houtcome, parseOpenEnd] at h
  cases hcut : Text.cut? (p.frontEnd c.text).holdBackPoint c.text with
  | none =>
      rw [hcut] at h
      split at h <;> simp_all [offBoundary]
  | some parts =>
      obtain ⟨skipped, text⟩ := parts
      obtain ⟨happ, hsize⟩ := Text.cut?_eq_some_iff.1 hcut
      rw [hcut, Chunk.tailFrom?_of_cut? hcut hstart] at h
      by_cases hzero : (p.frontEnd c.text).holdBackPoint = 0
      · have hnil : skipped = [] := by
          cases skipped with
          | nil => rfl
          | cons x skipped => have := Splitter.size_pos (List.cons_ne_nil x skipped); omega
        have hattempt : p.attempt? c = none := by simp [attempt?, hclosed, hstart, hzero]
        have hdecided : p.decided c = [] := by simp [decided, hattempt]
        subst hnil
        rw [List.nil_append] at happ
        subst happ
        simp only [hzero, ↓reduceIte, Except.ok.injEq] at h
        rw [← h]
        rw [Chunk.behind_nil hstart]
        exact answers_deferred hdecided (.defer hclosed)
      · have hattempt : p.attempt? c = some (c.front skipped) := by
          simp [attempt?, hclosed, hstart, hzero, hcut]
        simp only [hzero, ↓reduceIte] at h
        cases hparse : p.parseStrict c.file skipped c.lineOffset with
        | ok found =>
            have hpart : p.parseStrict (c.front skipped).file (c.front skipped).text
                (c.front skipped).lineOffset = .ok found := hparse
            obtain ⟨hfound, hlines, haccepts⟩ := recordsOf_of_ok hpart
            have hdecided : p.decided c = [c.front skipped] := by
              simp [decided, hattempt, haccepts]
            simp only [hparse, Except.ok.injEq] at h
            rw [← h]
            refine answers_replies rfl ?_ ?_ ?_
            · rw [hdecided]
              exact .front hstart hend happ (by omega) hsize.symm (.inl haccepts)
            · rw [hdecided]
              simp [hfound]
            · rw [hdecided]
              simp [hlines]
        | error cause =>
            have hpart : p.parseStrict (c.front skipped).file (c.front skipped).text
                (c.front skipped).lineOffset = .error cause := hparse
            obtain ⟨-, -, haccepts⟩ := recordsOf_of_error hpart
            have hkept : (c.front skipped).provisional = true := hprovisional
            have hdecided : p.decided c = [] := by simp [decided, hattempt, haccepts, hkept]
            simp only [hparse, hprovisional, ↓reduceIte, Except.ok.injEq] at h
            rw [← h]
            exact answers_deferred hdecided (.reopen hattempt hstart haccepts hprovisional)

/-- A chunk is a piece of a file, or both of its edges are closed. -/
def Sound (c : Chunk) : Prop := c.provisional = true ∨ c.isClosed = true

/-- Every job that ends is answered by what the parse of its chunk decides. -/
theorem answers_of_runJob {p : TokenTree} {job : Job Chunk} {batch : Nat} {memory : Memory}
    {replies : List Reply} (hsound : Sound job.payload)
    (h : (Worker.runJob p.toParser batch job memory).value = .ok replies) :
    p.Answers job.payload replies := by
  cases hclosed : job.payload.isClosed with
  | true => exact answers_closed rfl hclosed h
  | false =>
      have hprovisional : job.payload.provisional = true :=
        hsound.resolve_right (by simp [hclosed])
      cases hstart : job.payload.openStart with
      | false => exact answers_openEnd rfl hclosed hstart hprovisional h
      | true =>
          have houtcome : p.outcome job.payload = .ok (.deferred job.payload) := by
            simp [outcome, hclosed, hstart]
          have hdecided : p.decided job.payload = [] := by
            simp [decided, attempt?, hclosed, hstart]
          simp only [Worker.runJob, toParser, Answer.map, houtcome, Except.ok.injEq] at h
          rw [← h]
          exact answers_deferred hdecided (.defer hclosed)

end TokenTree

end ClonePrint
