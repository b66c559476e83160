import Mathlib.Data.List.Basic
import ClonePrint.Parser.TagExport

/-!
# A missing tool is reported once

Workers share a parser that works on exports. The steps of their calls interleave, so several of
them may take the tool to be there, ask for it and find it missing at the same time. Only the one
that sets the mark first reports it. Whoever calls after that is passed over.

It does not matter who makes a call: the calls of any number of workers stand in one list, in the
order in which they began.
-/
namespace ClonePrint

variable {σ : Type}

/-- What is to be parsed. -/
inductive Errand where
  | file (name : String) (text : Text)
  | chunk (c : Chunk)

namespace Errand

def name : Errand → String
  | file name _ => name
  | chunk c => c.file

def text : Errand → Text
  | file _ text => text
  | chunk c => c.text

def parse (parser : Parser σ) (clear : Bool) (memory : σ) :
    Errand → Answer σ (Except Failure Outcome)
  | file name text => (parser.parseFile name text clear memory).map (·.map .resolved)
  | chunk c => parser.parseChunk c clear memory

/-- What it becomes when the functions of its text have been found. -/
def conclude (result : Except Failure (List Fingerprint)) : Errand → Except Failure Outcome
  | file .. => result.map .resolved
  | chunk c =>
      (Parser.chunkAsFile (fun _ _ _ memory => { value := result, memory }) c false ()).value

theorem conclude_eq_error {errand : Errand} {result : Except Failure (List Fingerprint)}
    {failure : Failure} : errand.conclude result = .error failure ↔ result = .error failure := by
  cases errand <;> cases result <;>
    simp [conclude, Parser.chunkAsFile, Answer.map, Except.map]

theorem conclude_nil (errand : Errand) : errand.conclude (.ok []) = .ok (.resolved []) := by
  cases errand <;> rfl

end Errand

namespace TagExport

/-- A call of the parser that was begun, and what the exporter answered to it. -/
structure Caller where
  errand : Errand
  call : Call := .entered
  answered : Option (Except Error Text) := none

/-- The calls of one parser, with the mark that says the tool is missing. -/
structure Company where
  unavailable : Bool := false
  callers : List Caller := []
  notices : List Notice := []

inductive Turn where
  | enter (errand : Errand)
  | act (caller : Nat) (answer : Except Error Text)

namespace Caller

def gets? (c : Caller) : Option (Except Failure Outcome) :=
  match c.call with
  | .returned result => some (c.errand.conclude result)
  | _ => none

/-- The exporter told this caller that the tool is missing. -/
def Misses (c : Caller) (detail : String) : Prop :=
  c.answered = some (.error (.frontEndUnavailable detail))

/-- The call returned the error for a missing tool. -/
def Fails (c : Caller) (detail : String) : Prop :=
  c.gets? = some (.error (.error (.frontEndUnavailable detail)))

/-- One step of a call. The memory of the answer is the mark after it. -/
def act (p : TagExport) (unavailable : Bool) (answer : Except Error Text) (c : Caller) :
    Answer Bool Caller :=
  ({ p with exporter := fun _ _ _ => answer }.step c.errand.name c.errand.text unavailable
    c.call).map fun call =>
      { c with
        call
        answered := match c.call with
          | .exporting => some answer
          | _ => c.answered }

end Caller

def take (p : TagExport) (s : Company) : Turn → Company
  | .enter errand => { s with callers := s.callers ++ [{ errand }] }
  | .act i answer =>
      match s.callers[i]? with
      | none => s
      | some c =>
          let a := c.act p s.unavailable answer
          { unavailable := a.memory
            callers := s.callers.set i a.value
            notices := s.notices ++ a.notices }

def after (p : TagExport) (turns : List Turn) : Company := turns.foldl p.take {}

theorem after_append (p : TagExport) (turns more : List Turn) :
    p.after (turns ++ more) = more.foldl p.take (p.after turns) := List.foldl_append

section
variable (p : TagExport) (file : String) (text : Text)

/-- No call takes more than three steps. -/
theorem exists_steps_returned (unavailable : Bool) : ∃ result,
    (p.steps file text 3 { value := .entered, memory := unavailable }).value = .returned result := by
  cases unavailable with
  | true => exact ⟨.ok [], rfl⟩
  | false =>
      cases hmade : p.exporter p.language file text with
      | ok made => exact ⟨p.readExport file made, by simp [steps, step, hmade]⟩
      | error cause =>
          refine ⟨.error (.error cause), ?_⟩
          cases cause <;> simp [steps, step, hmade]

theorem Caller.act_exporter (unavailable : Bool) (c : Caller) :
    ∃ answered, c.act p unavailable (p.exporter p.language c.errand.name c.errand.text) =
      (p.step c.errand.name c.errand.text unavailable c.call).map fun call =>
        { c with call, answered } := by
  obtain ⟨errand, call, answered⟩ := c
  cases call <;> exact ⟨_, rfl⟩

theorem take_act_last (unavailable : Bool) (callers : List Caller) (c : Caller)
    (notices : List Notice) (answer : Except Error Text) :
    p.take ⟨unavailable, callers ++ [c], notices⟩ (.act callers.length answer) =
      ⟨(c.act p unavailable answer).memory, callers ++ [(c.act p unavailable answer).value],
        notices ++ (c.act p unavailable answer).notices⟩ := by
  simp [take]

/-- The steps that a call takes without interruption. -/
theorem exists_foldl_act (n : Nat) (unavailable : Bool) (callers : List Caller) (c : Caller)
    (notices earlier : List Notice) :
    let a := p.steps c.errand.name c.errand.text n ⟨c.call, unavailable, earlier⟩
    ∃ answered, (List.replicate n (.act callers.length
        (p.exporter p.language c.errand.name c.errand.text))).foldl p.take
          ⟨unavailable, callers ++ [c], notices ++ earlier⟩ =
        ⟨a.memory, callers ++ [{ c with call := a.value, answered }], notices ++ a.notices⟩ := by
  induction n generalizing unavailable c earlier with
  | zero => exact ⟨c.answered, rfl⟩
  | succ n ih =>
      obtain ⟨answered, hact⟩ := c.act_exporter p unavailable
      have hrest := ih (p.step c.errand.name c.errand.text unavailable c.call).memory
        { c with
          call := (p.step c.errand.name c.errand.text unavailable c.call).value
          answered }
        (earlier ++ (p.step c.errand.name c.errand.text unavailable c.call).notices)
      rw [List.replicate_succ, List.foldl_cons, take_act_last, hact, List.append_assoc]
      exact hrest

/-- A call that nobody interrupts does what the parser does. -/
theorem exists_uninterrupted (s : Company) (errand : Errand) (clear : Bool) (m : Memory)
    (hmark : m.unavailable = s.unavailable) :
    let alone := errand.parse p.toParser clear m
    let turn := Turn.act s.callers.length (p.exporter p.language errand.name errand.text)
    ∃ c : Caller, c.gets? = some alone.value ∧
      [.enter errand, turn, turn, turn].foldl p.take s =
        { unavailable := alone.memory.unavailable
          callers := s.callers ++ [c]
          notices := s.notices ++ alone.notices } := by
  obtain ⟨answered, hturns⟩ :=
    p.exists_foldl_act 3 s.unavailable s.callers { errand } s.notices []
  obtain ⟨result, hresult⟩ := p.exists_steps_returned errand.name errand.text s.unavailable
  have hparse : errand.parse p.toParser clear m =
      let a := p.parseFile errand.name errand.text clear m
      { a with value := errand.conclude a.value } := by cases errand <;> rfl
  rw [List.append_nil] at hturns
  refine ⟨{ errand, call := .returned result, answered }, ?_, ?_⟩
  · simp only [hparse, parseFile, hmark, hresult, Caller.gets?]
  · rw [hparse, parseFile, hmark, ← hresult]
    exact hturns

end

variable {p : TagExport} {c : Caller} {unavailable : Bool} {s : Company}

/-- Reading an export never finds that the tool is missing. -/
theorem readExport_ne_unavailable (p : TagExport) (file detail : String) (made : Text) :
    p.readExport file made ≠ .error (.error (.frontEndUnavailable detail)) := by
  intro h
  simp only [readExport, Reading.ofExport?] at h
  split at h
  · cases h
  · rename_i cause hread
    split at hread
    · cases hread
    · split at hread
      · cases hread
        cases h
      · obtain ⟨r, -, hr⟩ := Option.map_eq_some_iff.1 hread
        cases hr
  · cases h

/-- How a call stands to what the exporter answered it and to the mark. -/
inductive Caller.Honest (p : TagExport) (unavailable : Bool) : Caller → Prop
  | entered (errand : Errand) : Honest p unavailable ⟨errand, .entered, none⟩
  | exporting (errand : Errand) : Honest p unavailable ⟨errand, .exporting, none⟩
  | marking (errand : Errand) (detail : String) :
      Honest p unavailable ⟨errand, .marking (.frontEndUnavailable detail),
        some (.error (.frontEndUnavailable detail))⟩
  | skipped (errand : Errand) (marked : unavailable = true) :
      Honest p unavailable ⟨errand, .returned (.ok []), none⟩
  | read (errand : Errand) (made : Text) :
      Honest p unavailable ⟨errand, .returned (p.readExport errand.name made), some (.ok made)⟩
  | failed (errand : Errand) {cause : Error} (other : ∀ detail, cause ≠ .frontEndUnavailable detail) :
      Honest p unavailable ⟨errand, .returned (.error (.error cause)), some (.error cause)⟩
  | missed (errand : Errand) (detail : String) (marked : unavailable = true) :
      Honest p unavailable ⟨errand, .returned (.error (.error (.frontEndUnavailable detail))),
        some (.error (.frontEndUnavailable detail))⟩

namespace Caller

/-- Once the mark is set it stays set, and what is known of a call stays true. -/
theorem Honest.mono {marked : Bool} (h : c.Honest p unavailable)
    (hmarked : unavailable = true → marked = true) : c.Honest p marked := by
  cases h with
  | entered errand => exact .entered errand
  | exporting errand => exact .exporting errand
  | marking errand detail => exact .marking errand detail
  | skipped errand h => exact .skipped errand (hmarked h)
  | read errand made => exact .read errand made
  | failed errand other => exact .failed errand other
  | missed errand detail h => exact .missed errand detail (hmarked h)

theorem Honest.act (h : c.Honest p unavailable) (answer : Except Error Text) :
    (c.act p unavailable answer).value.Honest p (c.act p unavailable answer).memory := by
  cases h with
  | entered errand =>
      cases unavailable with
      | true => exact .skipped errand rfl
      | false => exact .exporting errand
  | exporting errand =>
      cases answer with
      | ok made => exact .read errand made
      | error cause =>
          cases cause with
          | frontEndUnavailable detail => exact .marking errand detail
          | _ => exact .failed errand fun _ h => by cases h
  | marking errand detail => exact .missed errand detail rfl
  | skipped errand h => exact .skipped errand h
  | read errand made => exact .read errand made
  | failed errand other => exact .failed errand other
  | missed errand detail h => exact .missed errand detail h

/-- A step that sets the mark reports it, and no other step does. -/
theorem count_act (p : TagExport) (unavailable : Bool) (answer : Except Error Text) (c : Caller) :
    unavailable.toNat + (c.act p unavailable answer).notices.count (.warning unavailableWarning) =
      (c.act p unavailable answer).memory.toNat := by
  obtain ⟨errand, call, answered⟩ := c
  cases call with
  | marking cause => cases unavailable <;> rfl
  | entered | exporting | returned => simp [act, step, Answer.map]

theorem memory_act (hmarked : unavailable = true) (answer : Except Error Text) (c : Caller) :
    (c.act p unavailable answer).memory = true := by
  obtain ⟨errand, call, answered⟩ := c
  cases call with
  | marking cause => rfl
  | entered | exporting | returned => exact hmarked

/-- The mark is set by a call that returns the error of its own export. -/
theorem Honest.exists_fails (h : c.Honest p false) {answer : Except Error Text}
    (hmarks : (c.act p false answer).memory = true) :
    ∃ detail, (c.act p false answer).value.Misses detail ∧
      (c.act p false answer).value.Fails detail := by
  cases h with
  | marking errand detail =>
      exact ⟨detail, rfl, congrArg some (Errand.conclude_eq_error.2 rfl)⟩
  | entered | exporting | read | failed => cases hmarks
  | skipped errand h => cases h
  | missed errand detail h => cases h

/-- A call that has returned stays as it is. -/
theorem act_of_gets? {outcome : Except Failure Outcome} (h : c.gets? = some outcome)
    (answer : Except Error Text) :
    c.act p unavailable answer = { value := c, memory := unavailable } := by
  obtain ⟨errand, call, answered⟩ := c
  cases call with
  | returned result => rfl
  | entered | exporting | marking => cases h

theorem Honest.misses_of_fails (h : c.Honest p unavailable) {detail : String}
    (hfails : c.Fails detail) : c.Misses detail ∧ unavailable = true := by
  cases h with
  | entered | exporting | marking => cases hfails
  | skipped errand h => cases (Errand.conclude_eq_error.1 (Option.some.inj hfails))
  | read errand made =>
      have hread := Errand.conclude_eq_error.1 (Option.some.inj hfails)
      exact absurd hread (p.readExport_ne_unavailable errand.name detail made)
  | failed errand other =>
      cases Errand.conclude_eq_error.1 (Option.some.inj hfails)
      exact absurd rfl (other detail)
  | missed errand other h =>
      cases Errand.conclude_eq_error.1 (Option.some.inj hfails)
      exact ⟨rfl, h⟩

theorem Honest.fails_of_misses (h : c.Honest p unavailable) {detail : String}
    (hmisses : c.Misses detail) (hback : c.gets?.isSome) : c.Fails detail := by
  cases h with
  | marking errand other => cases hback
  | missed errand other h =>
      cases hmisses
      exact congrArg some (Errand.conclude_eq_error.2 rfl)
  | failed errand other =>
      cases hmisses
      exact absurd rfl (other detail)
  | entered | exporting | skipped | read => cases hmisses

end Caller

/-- What is known of the calls of one parser. The report is made when the mark is set. -/
structure Recorded (p : TagExport) (s : Company) : Prop where
  honest : ∀ c ∈ s.callers, c.Honest p s.unavailable
  reported : s.notices.count (.warning unavailableWarning) = s.unavailable.toNat
  marked : s.unavailable = true → ∃ c ∈ s.callers, ∃ detail, c.Misses detail ∧ c.Fails detail

/-- A call that has returned is not touched by later turns. -/
theorem mem_take_of_gets? {outcome : Except Failure Outcome} (hmem : c ∈ s.callers)
    (hback : c.gets? = some outcome) (turn : Turn) : c ∈ (p.take s turn).callers := by
  cases turn with
  | enter errand => exact List.mem_append_left _ hmem
  | act i answer =>
      simp only [TagExport.take]
      split
      · exact hmem
      · rename_i other hother
        obtain ⟨k, hk⟩ := List.mem_iff_getElem?.1 hmem
        refine List.mem_of_getElem? (i := k) ?_
        by_cases hi : i = k
        · subst hi
          obtain rfl := Option.some.inj (hk.symm.trans hother)
          have hlt := (List.getElem?_eq_some_iff.1 hk).1
          rw [Caller.act_of_gets? hback, List.getElem?_set_self hlt]
        · rw [List.getElem?_set_ne hi, hk]

theorem Recorded.take (h : Recorded p s) (turn : Turn) : Recorded p (p.take s turn) := by
  have hstays (hmarked : s.unavailable = true) : ∃ c ∈ (p.take s turn).callers, ∃ detail,
      c.Misses detail ∧ c.Fails detail := by
    obtain ⟨c, hmem, detail, hmisses, hfails⟩ := h.marked hmarked
    exact ⟨c, mem_take_of_gets? hmem hfails turn, detail, hmisses, hfails⟩
  cases turn with
  | enter errand =>
      refine ⟨fun c hmem => ?_, h.reported, hstays⟩
      rcases List.mem_append.1 hmem with hold | hnew
      · exact h.honest c hold
      · rw [List.mem_singleton.1 hnew]
        exact .entered errand
  | act i answer =>
      cases hcaller : s.callers[i]? with
      | none => simpa only [TagExport.take, hcaller] using h
      | some c =>
          have hlt := (List.getElem?_eq_some_iff.1 hcaller).1
          have hhonest := h.honest c (List.mem_of_getElem? hcaller)
          simp only [TagExport.take, hcaller] at hstays ⊢
          refine ⟨fun other hmem => ?_, ?_, fun hmarks => ?_⟩
          · rcases List.mem_or_eq_of_mem_set hmem with hold | rfl
            · exact (h.honest other hold).mono fun hmarked => Caller.memory_act hmarked answer c
            · exact hhonest.act answer
          · rw [List.count_append, h.reported, Caller.count_act]
          · by_cases hmarked : s.unavailable = true
            · exact hstays hmarked
            · have hclear := Bool.eq_false_iff.2 hmarked
              rw [hclear] at hhonest hmarks
              obtain ⟨detail, hmisses, hfails⟩ := hhonest.exists_fails hmarks
              rw [hclear]
              exact ⟨_, List.mem_set hlt _, detail, hmisses, hfails⟩

theorem recorded_after (p : TagExport) (turns : List Turn) : Recorded p (p.after turns) := by
  have hstart : Recorded p {} :=
    ⟨fun _ hmem => absurd hmem List.not_mem_nil, rfl, fun hmarked => by cases hmarked⟩
  have hrun (s : Company) (h : Recorded p s) : Recorded p (turns.foldl p.take s) := by
    induction turns generalizing s with
    | nil => exact h
    | cons turn turns ih => exact ih _ (h.take turn)
  exact hrun {} hstart

/-- A call that has not begun to look, or was passed over. -/
structure Caller.Skips (c : Caller) : Prop where
  unasked : c.answered = none
  call : c.call = .entered ∨ c.call = .returned (.ok [])

theorem Caller.Skips.act (h : c.Skips) (p : TagExport) (answer : Except Error Text) :
    c.act p true answer =
      { value := { c with call := .returned (.ok []) }, memory := true } := by
  obtain ⟨errand, call, answered⟩ := c
  obtain ⟨hunasked, hcall⟩ := h
  rcases hcall with rfl | rfl <;> rfl

/-- The tool is known to be missing, and every call behind the first ones is passed over. -/
structure PassesOver (first : Nat) (s : Company) : Prop where
  marked : s.unavailable = true
  skips : ∀ i c, first ≤ i → s.callers[i]? = some c → c.Skips

variable {first : Nat}

theorem PassesOver.take (h : PassesOver first s) (turn : Turn) :
    PassesOver first (p.take s turn) := by
  cases turn with
  | enter errand =>
      refine ⟨h.marked, fun i c hi hc => ?_⟩
      simp only [TagExport.take, List.getElem?_append] at hc
      split at hc
      · exact h.skips i c hi hc
      · obtain rfl := List.mem_singleton.1 (List.mem_of_getElem? hc)
        exact ⟨rfl, .inl rfl⟩
  | act i answer =>
      cases hcaller : s.callers[i]? with
      | none => simpa only [TagExport.take, hcaller] using h
      | some c =>
          simp only [TagExport.take, hcaller]
          refine ⟨Caller.memory_act h.marked answer c, fun j other hj hother => ?_⟩
          by_cases hij : i = j
          · subst hij
            have hlt := (List.getElem?_eq_some_iff.1 hcaller).1
            have hskips := h.skips i c hj hcaller
            rw [List.getElem?_set_self hlt, h.marked, hskips.act] at hother
            obtain rfl := Option.some.inj hother
            exact ⟨hskips.unasked, .inr rfl⟩
          · rw [List.getElem?_set_ne hij] at hother
            exact h.skips j other hj hother

theorem PassesOver.foldl (h : PassesOver first s) (turns : List Turn) :
    PassesOver first (turns.foldl p.take s) := by
  induction turns generalizing s with
  | nil => exact h
  | cons turn turns ih => exact ih (h.take turn)

/-- How the callers of one parser learn that the tool is missing. There is at most one report, and
one if and only if some call missed the tool, once all calls are back. Whoever returns the error
got it from the exporter, no other error sets the mark, and a call that begins when one has
returned with the error is passed over in its first step. -/
structure ReportsOnce (p : TagExport) (turns : List Turn) : Prop where
  atMostOnce : (p.after turns).notices.count (.warning unavailableWarning) ≤ 1
  once : (∀ c ∈ (p.after turns).callers, c.gets?.isSome) →
    ((p.after turns).notices.count (.warning unavailableWarning) = 1 ↔
      ∃ c ∈ (p.after turns).callers, ∃ detail, c.Misses detail)
  own : ∀ c ∈ (p.after turns).callers, ∀ detail, c.Fails detail → c.Misses detail
  marked : (p.after turns).unavailable = true ↔
    ∃ c ∈ (p.after turns).callers, ∃ detail, c.Misses detail ∧ c.Fails detail
  skips : ∀ earlier later, turns = earlier ++ later →
    (∃ c ∈ (p.after earlier).callers, ∃ detail, c.Fails detail) →
    ∀ i c, (p.after earlier).callers.length ≤ i → (p.after turns).callers[i]? = some c →
      c.answered = none ∧ (∀ outcome, c.gets? = some outcome → outcome = .ok (.resolved [])) ∧
      ∀ answer, ∃ d : Caller, d.gets? = some (.ok (.resolved [])) ∧ d.answered = none ∧
        p.take (p.after turns) (.act i answer) =
          { p.after turns with callers := (p.after turns).callers.set i d }

/-- However many calls there are and however their steps interleave, a missing tool is reported
once, and calls that begin afterwards are passed over. -/
theorem reports_once (p : TagExport) (turns : List Turn) : ReportsOnce p turns := by
  have h := recorded_after p turns
  constructor
  · rw [h.reported]
    exact Bool.toNat_le _
  · intro hback
    rw [h.reported]
    constructor
    · intro hone
      have hmarked : (p.after turns).unavailable = true := Bool.toNat_eq_one.1 hone
      obtain ⟨c, hmem, detail, hmisses, -⟩ := h.marked hmarked
      exact ⟨c, hmem, detail, hmisses⟩
    · rintro ⟨c, hmem, detail, hmisses⟩
      have hfails := (h.honest c hmem).fails_of_misses hmisses (hback c hmem)
      exact Bool.toNat_eq_one.2 ((h.honest c hmem).misses_of_fails hfails).2
  · exact fun c hmem detail hfails => ((h.honest c hmem).misses_of_fails hfails).1
  · exact ⟨h.marked, fun ⟨c, hmem, detail, _, hfails⟩ =>
      ((h.honest c hmem).misses_of_fails hfails).2⟩
  · rintro earlier later rfl ⟨failed, hmem, detail, hfails⟩ i c hi hc
    have hmarked := ((recorded_after p earlier).honest failed hmem).misses_of_fails hfails
    -- Nobody stands behind the calls that had begun by then.
    have hnobody : PassesOver (p.after earlier).callers.length (p.after earlier) := by
      refine ⟨hmarked.2, fun j d hj hd => ?_⟩
      rw [List.getElem?_eq_none hj] at hd
      cases hd
    have hpasses := hnobody.foldl (p := p) later
    rw [← after_append] at hpasses
    have hskips := hpasses.skips i c hi hc
    refine ⟨hskips.unasked, fun outcome hback => ?_, fun answer => ?_⟩
    · rcases hskips.call with hcall | hcall
      · simp only [Caller.gets?, hcall] at hback
        cases hback
      · simp only [Caller.gets?, hcall, Errand.conclude_nil, Option.some.injEq] at hback
        exact hback.symm
    · refine ⟨{ c with call := .returned (.ok []) }, ?_, hskips.unasked, ?_⟩
      · exact congrArg some (c.errand.conclude_nil)
      · simp only [TagExport.take, hc, hpasses.marked, hskips.act, List.append_nil]

/-- A file and a chunk find the tool missing at the same time, and another file is passed over. -/
theorem reports_once_for_three :
    let miss : Except Error Text := .error (.frontEndUnavailable "srcml: not found")
    let half : Chunk := ⟨"f", ['b'], 1, 1, 0, true, false, true⟩
    let turns : List Turn :=
      [.enter (.file "a" []), .enter (.chunk half), .act 0 miss, .act 1 miss, .act 1 miss,
        .act 0 miss, .act 0 miss, .enter (.file "b" []), .act 1 miss, .act 2 miss]
    let p : TagExport := { language := .java, exporter := fun _ _ _ => miss }
    (p.after turns).callers.map Caller.gets? =
        [some (.error (.error (.frontEndUnavailable "srcml: not found"))),
          some (.error (.error (.frontEndUnavailable "srcml: not found"))),
          some (.ok (.resolved []))] ∧
      (p.after turns).notices.count (.warning unavailableWarning) = 1 ∧ ReportsOnce p turns :=
  ⟨rfl, by decide, reports_once _ _⟩

end TagExport

end ClonePrint
