import ClonePrint.Parser.TokenTree
import ClonePrint.Proofs.Depiction

/-!
# Lines can be moved before or after parsing

The functions of a text that stands further down its file are those of the text on its own, further
down. A survey that counts from another line opens and closes the same functions, each so many lines
further down, and a function is admitted or not by the difference of its lines. So it makes no
difference whether a closed chunk is surveyed where it stands, or as a file of its own whose
functions are moved afterwards.
-/
namespace ClonePrint

theorem Thresholds.admits_add (limits : Thresholds) (body : Text) (first last lines : Nat) :
    limits.admits body (first + lines) (last + lines) = limits.admits body first last := by
  simp only [admits, Nat.add_sub_add_right, Nat.add_le_add_iff_right]

theorem Sketch.finish_add (s : Sketch) (file : String) (first last lines : Nat)
    (limits : Thresholds) : s.finish file (first + lines) (last + lines) limits =
      (s.finish file first last limits).map (Fingerprint.shifted lines) := by
  have hmin : min (first + lines) (last + lines) = min first last + lines :=
    Nat.add_min_add_right ..
  simp only [finish, Thresholds.admits_add, Fingerprint.ofLines, hmin]
  split <;> rfl

namespace Walk

def shifted (lines : Nat) (w : Walk) : Walk :=
  { w with
    contexts := w.contexts.map fun f => { f with startLine := f.startLine + lines }
    found := w.found.map (Fingerprint.shifted lines) }

end Walk

namespace Survey

def shifted (lines : Nat) (v : Survey) : Survey := { v with lineOffset := v.lineOffset + lines }

section
variable (lines : Nat) (v : Survey) (t : SyntaxTree) (w : Walk)

theorem lineOf_shifted (row : Nat) : (v.shifted lines).lineOf row = v.lineOf row + lines :=
  (Nat.add_assoc ..).symm

theorem emit_shifted : (v.shifted lines).emit t (w.shifted lines) =
    (v.emit t w).shifted lines := by
  obtain ⟨contexts, callees, typeDepth, found⟩ := w
  cases contexts <;> rfl

theorem noteNode_shifted : (v.shifted lines).noteNode t (w.shifted lines) =
    (v.noteNode t w).shifted lines := by
  rw [noteNode_eq, noteNode_eq]
  rfl

theorem enter_shifted : (v.shifted lines).enter t (w.shifted lines) =
    ((v.enter t w).1, (v.enter t w).2.shifted lines) := by
  have hgrammar : (v.shifted lines).grammar = v.grammar := rfl
  have hempty : ((v.noteNode t w).shifted lines).contexts.isEmpty =
      (v.noteNode t w).contexts.isEmpty := List.isEmpty_map
  simp only [enter, noteNode_shifted, emit_shifted, lineOf_shifted, hgrammar, hempty]
  split_ifs <;> rfl

theorem close_shifted : (v.shifted lines).close t (w.shifted lines) =
    (v.close t w).shifted lines := by
  obtain ⟨contexts, callees, typeDepth, found⟩ := w
  cases contexts with
  | nil => rfl
  | cons f outer =>
      have hreport : (f.sketch.finish v.file (f.startLine + lines) (v.lineOf t.label.stopRow + lines)
          v.limits).toList = (f.sketch.finish v.file f.startLine (v.lineOf t.label.stopRow)
            v.limits).toList.map (Fingerprint.shifted lines) := by
        rw [Sketch.finish_add, Option.toList_map]
      have hfile : (v.shifted lines).file = v.file := rfl
      have hlimits : (v.shifted lines).limits = v.limits := rfl
      simp only [close, Walk.shifted, lineOf_shifted, hfile, hlimits, hreport, List.map_cons,
        List.map_append]
      cases outer <;> rfl

theorem leave_shifted : (v.shifted lines).leave t (w.shifted lines) =
    (v.leave t w).shifted lines := by
  have hgrammar : (v.shifted lines).grammar = v.grammar := rfl
  unfold leave
  rw [hgrammar]
  split_ifs
  · exact close_shifted lines v t { w with typeDepth := w.typeDepth - 1 }
  · rfl
  · exact close_shifted lines v t w
  · rfl

end

mutual

/-- A walk that starts further down ends further down. -/
theorem visit_shifted (lines : Nat) (v : Survey) : ∀ (t : SyntaxTree) (w : Walk),
    (v.shifted lines).visit (w.shifted lines) t = (v.visit w t).shifted lines
  | .node label children, w => by
      have hbelow := visitAll_shifted lines v children (v.enter (.node label children) w).2
      rw [visit, visit, enter_shifted, hbelow, ← leave_shifted]
      split <;> rfl

theorem visitAll_shifted (lines : Nat) (v : Survey) : ∀ (ts : List SyntaxTree) (w : Walk),
    (v.shifted lines).visitAll (w.shifted lines) ts = (v.visitAll w ts).shifted lines
  | [], w => rfl
  | t :: more, w => by
      rw [visitAll, visitAll, visit_shifted lines v t, visitAll_shifted lines v more]

end

theorem run_shifted (lines : Nat) (v : Survey) (t : SyntaxTree) :
    (v.shifted lines).run t = (v.run t).map (Fingerprint.shifted lines) :=
  congrArg Walk.found (visit_shifted lines v t {})

end Survey

namespace TokenTree

/-- The line on which a broken text is reported if it begins its file. -/
def errorLine (p : TokenTree) (text : Text) : Nat :=
  ((p.frontEnd text).firstErrorRow?).getD 0 + 1

def survey (p : TokenTree) (file : String) (text : Text) : Survey :=
  { grammar := p.grammar, source := text, file, limits := p.limits }

section
variable (p : TokenTree) (file : String) (text : Text) (lines : Nat)

theorem parseStrict_of_hasError (h : (p.frontEnd text).label.hasError = true) :
    p.parseStrict file text lines = .error (syntaxError file (p.errorLine text + lines)) := by
  simp only [parseStrict, h, ↓reduceIte]
  rfl

theorem parseStrict_zero (h : (p.frontEnd text).label.hasError = false) :
    p.parseStrict file text 0 = .ok ((p.survey file text).run (p.frontEnd text)) := by
  simp only [parseStrict, h, Bool.false_eq_true, ↓reduceIte]
  rfl

/-- A clean text further down its file has the same functions, further down. -/
theorem parseStrict_of_clean (h : (p.frontEnd text).label.hasError = false) :
    p.parseStrict file text lines = .ok
      (((p.survey file text).run (p.frontEnd text)).map (Fingerprint.shifted lines)) := by
  have hmoved := Survey.run_shifted lines (p.survey file text) (p.frontEnd text)
  simp only [Survey.shifted, survey, Nat.zero_add] at hmoved
  simp only [parseStrict, h, Bool.false_eq_true, ↓reduceIte, hmoved]
  rfl

end

/-- A survey that counts from another line finds what a survey from the first line finds, moved by
that many lines. So a closed chunk yields the functions of its text on its own, each moved to where
the chunk stands, as it would if it were treated as a file. A syntax error lies so many lines further
down as well. It is the answer, unless the edges of the chunk may be to blame for it: then the chunk
is handed back. -/
theorem moved_alike (p : TokenTree) {c : Chunk} (hclosed : c.isClosed = true) (clear : Bool)
    (m : Memory) :
    (∀ (v : Survey) (t : SyntaxTree) (lines : Nat), { v with lineOffset := lines }.run t =
      ({ v with lineOffset := 0 }.run t).map (Fingerprint.shifted lines)) ∧
    (∀ found, (p.toParser.parseFile c.file c.text clear m).value = .ok found →
      (p.toParser.parseChunk c clear m).value =
          .ok (.resolved (found.map (Fingerprint.shifted c.lineOffset))) ∧
        (Parser.chunkAsFile p.toParser.parseFile c clear m).value =
          (p.toParser.parseChunk c clear m).value) ∧
    ∀ failure, (p.toParser.parseFile c.file c.text clear m).value = .error failure →
      failure = .error (syntaxError c.file (p.errorLine c.text)) ∧
        p.parseStrict c.file c.text c.lineOffset =
          .error (syntaxError c.file (p.errorLine c.text + c.lineOffset)) ∧
        (p.toParser.parseChunk c clear m).value =
          if c.provisional then .ok (.deferred c.reopened)
          else .error (.error (syntaxError c.file (p.errorLine c.text + c.lineOffset))) := by
  have hchunk : (p.toParser.parseChunk c clear m).value = p.parseClosed c := by
    change p.outcome c = _
    rw [outcome, if_pos hclosed]
  have hfile : (p.toParser.parseFile c.file c.text clear m).value =
      (p.parseStrict c.file c.text 0).mapError .error := rfl
  have hwhole : (Parser.chunkAsFile p.toParser.parseFile c clear m).value =
      (p.toParser.parseFile c.file c.text clear m).value.map fun found =>
        .resolved (found.map (Fingerprint.shifted c.lineOffset)) := rfl
  refine ⟨fun v t lines => ?_, fun found hfound => ?_, fun failure hfailure => ?_⟩
  · have hmoved := Survey.run_shifted lines { v with lineOffset := 0 } t
    simpa only [Survey.shifted, Nat.zero_add] using hmoved
  · rw [hwhole, hfound, hchunk, parseClosed]
    cases hbroken : (p.frontEnd c.text).label.hasError with
    | true =>
        rw [hfile, p.parseStrict_of_hasError c.file c.text 0 hbroken] at hfound
        cases hfound
    | false =>
        rw [hfile, p.parseStrict_zero c.file c.text hbroken] at hfound
        rw [p.parseStrict_of_clean c.file c.text c.lineOffset hbroken, Except.ok.inj hfound]
        exact ⟨rfl, rfl⟩
  · rw [hchunk, parseClosed]
    cases hbroken : (p.frontEnd c.text).label.hasError with
    | true =>
        rw [hfile, p.parseStrict_of_hasError c.file c.text 0 hbroken] at hfailure
        rw [p.parseStrict_of_hasError c.file c.text c.lineOffset hbroken]
        exact ⟨(Except.error.inj hfailure).symm, rfl, rfl⟩
    | false =>
        rw [hfile, p.parseStrict_zero c.file c.text hbroken] at hfailure
        cases hfailure

/-- A chunk behind seven lines of its file, clean and with an error in its second line. -/
theorem moved_alike_behind_seven_lines :
    let c : Chunk := ⟨"f.py", nestedSource, 1, 100, 7, false, false, false⟩
    let clean : TokenTree := { grammar := .python, frontEnd := fun _ => nestedTree }
    let broken : TokenTree :=
      { grammar := .python
        frontEnd := fun _ => .node
          { id := 0, kind := "ERROR", isError := true, hasError := true, start := 0, stop := 43
            startRow := 1, stopRow := 2 } [] }
    c.isClosed = true ∧
      (clean.toParser.parseChunk c false {}).value = .ok (.resolved
        (((clean.survey "f.py" nestedSource).run nestedTree).map (Fingerprint.shifted 7))) ∧
      (broken.toParser.parseChunk c false {}).value = .error (.error (syntaxError "f.py" 9)) := by
  intro c clean broken
  have hclosed : c.isClosed = true := rfl
  have hclean := (clean.moved_alike hclosed false {}).2.1 _ rfl
  have hbroken := (broken.moved_alike hclosed false {}).2.2 _ rfl
  exact ⟨hclosed, hclean.1, hbroken.2.2⟩

end TokenTree

end ClonePrint
