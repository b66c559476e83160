import Mathlib.Tactic.SplitIfs
import ClonePrint.Syntax.Survey

/-!
# The functions of a syntax tree by recursion

A survey keeps a stack of open functions, a list of called nodes and a count of types.
All three follow from where a node stands: what is above it and which nodes were visited
before it. So what a node leaves in the function around it is a recursion over the tree,
and so are the functions that are reported.
-/
namespace ClonePrint

/-- What a node leaves in the body of the function around it. -/
inductive Trace where
  | kept (text : Text)
  | marked (p : Placeholder)
  | named (name : Text)
deriving Repr, DecidableEq

namespace Trace

def text : Trace → Text
  | kept text => text
  | marked p => p.text
  | named _ => Placeholder.ownName.text

def name? : Trace → Option Text
  | named name => some name
  | _ => none

end Trace

/-- Where a node stands: the innermost function above, and the nodes visited before, in their
order. -/
structure Scene where
  owner : Option SyntaxTree := none
  before : List SyntaxTree := []
  inType : Bool := false

/-- A function of a tree and where it stands. -/
structure FunctionSite where
  scene : Scene
  node : SyntaxTree

namespace Grammar

variable (g : Grammar)

/-- The nodes below a node are visited. Inside a function some literals are taken whole or
left out. -/
def descends (inFunction : Bool) (t : SyntaxTree) : Bool :=
  !g.isComment t &&
    (g.isFunction t || !(inFunction && (g.isIdleLiteral t || g.isAtomic t)))

mutual

/-- The visited nodes of a tree, each before those below it. -/
def visited (inFunction : Bool) : SyntaxTree → List SyntaxTree
  | .node label children =>
      .node label children ::
        if g.descends inFunction (.node label children) then
          visitedAll (inFunction || g.isFunction (.node label children)) children
        else []

def visitedAll (inFunction : Bool) : List SyntaxTree → List SyntaxTree
  | [] => []
  | t :: more => visited inFunction t ++ visitedAll inFunction more

end

def called? (t : SyntaxTree) : Option Nat :=
  if g.isCall t then (g.callee? t).map (·.label.id) else none

end Grammar

namespace Scene

variable (g : Grammar)

def below (t : SyntaxTree) (s : Scene) : Scene where
  owner := if g.isFunction t then some t else s.owner
  before := s.before ++ [t]
  inType := s.inType || g.isType t

def beyond (t : SyntaxTree) (s : Scene) : Scene :=
  { s with before := s.before ++ g.visited s.owner.isSome t }

def isOwnName (t : SyntaxTree) (s : Scene) : Bool :=
  (s.owner.bind g.functionName?).any fun name => name.label.id == t.label.id

/-- A call that was visited before calls the node. -/
def isCalled (t : SyntaxTree) (s : Scene) : Bool :=
  s.before.any fun call => g.called? call == some t.label.id

end Scene

namespace Grammar

variable (g : Grammar)

mutual

/-- The visited functions of a tree, each behind those inside it. -/
def functions (s : Scene) : SyntaxTree → List FunctionSite
  | .node label children =>
      (if g.descends s.owner.isSome (.node label children) then
        functionsAll (s.below g (.node label children)) children
      else []) ++
        if !g.isComment (.node label children) && g.isFunction (.node label children) then
          [⟨s, .node label children⟩]
        else []

def functionsAll (s : Scene) : List SyntaxTree → List FunctionSite
  | [] => []
  | t :: more => functions s t ++ functionsAll (s.beyond g t) more

end

end Grammar

/-- The rows on which the functions of a tree begin and end. -/
def Grammar.rows (g : Grammar) (t : SyntaxTree) : List Nat :=
  (g.functions {} t).flatMap fun f => [f.node.label.startRow, f.node.label.stopRow]

namespace Survey

variable (v : Survey)

/-- What is left of a node that is taken as one token. -/
def trace (s : Scene) (t : SyntaxTree) : Trace :=
  if !v.grammar.isIdentifier t then .kept (v.textOf t)
  else if s.isOwnName v.grammar t then .named (v.textOf t)
  else if s.isCalled v.grammar t then .marked .callee
  else if s.inType || v.grammar.isType t then .kept (v.textOf t)
  else .marked .other

mutual

/-- What a tree leaves in the function around it. -/
def traces (s : Scene) : SyntaxTree → List Trace
  | .node label children =>
      if v.grammar.isComment (.node label children) then []
      else if v.grammar.isFunction (.node label children) then [.marked .nested]
      else if v.grammar.isIdleLiteral (.node label children) then []
      else if v.grammar.isAtomic (.node label children) || children.isEmpty then
        [v.trace s (.node label children)]
      else tracesAll (s.below v.grammar (.node label children)) children

def tracesAll (s : Scene) : List SyntaxTree → List Trace
  | [] => []
  | t :: more => traces s t ++ tracesAll (s.beyond v.grammar t) more

end

def content (f : FunctionSite) : List Trace :=
  v.tracesAll (f.scene.below v.grammar f.node) f.node.children

def bodyOf (traces : List Trace) : Text := Text.stripBlanks (traces.flatMap Trace.text)

/-- The record of a function, if it is large enough. -/
def record? (f : FunctionSite) : Option Fingerprint :=
  let body := bodyOf (v.content f)
  let first := f.node.label.startRow + 1 + v.lineOffset
  let last := f.node.label.stopRow + 1 + v.lineOffset
  if v.limits.admits body first last then
    some
      { hash := Digest.ofText body
        file := v.file
        function := String.ofList (((v.content f).findSome? Trace.name?).getD [])
        lineStart := first
        lineEnd := last }
  else none

end Survey

/-- No node is of two sorts. -/
structure Grammar.IsSorted (g : Grammar) : Prop where
  comment {t : SyntaxTree} :
    g.isComment t → g.isFunction t = false ∧ g.isType t = false ∧ g.isCall t = false
  function {t : SyntaxTree} : g.isFunction t → g.isType t = false ∧ g.isCall t = false
  identifier {t : SyntaxTree} : g.isIdentifier t → g.isType t = false ∧ g.isCall t = false

theorem Grammar.isSorted_python : Grammar.python.IsSorted := by
  constructor
  · intro t ht
    have ht : t.kind = "comment" := by simpa [python] using ht
    simp [python, ht]
  · intro t ht
    have ht : t.kind = "function_definition" := by simpa [python] using ht
    simp [python, ht]
  · intro t ht
    have ht : t.kind = "identifier" := by simpa [python] using ht
    simp [python, ht]

theorem Grammar.isSorted_javaScript : Grammar.javaScript.IsSorted := by
  constructor
  · intro t ht
    have ht : t.kind = "comment" ∨ t.kind = "html_comment" := by simpa [javaScript] using ht
    rcases ht with ht | ht <;> simp [javaScript, javaScriptFunctions, ht]
  · intro t ht
    simp only [javaScript, Bool.and_eq_true, List.contains_iff_mem] at ht
    have hcall : t.kind ≠ "call_expression" ∧ t.kind ≠ "new_expression" := by
      constructor <;> rintro hkind <;> simp [javaScriptFunctions, hkind] at ht
    simp [javaScript, hcall]
  · intro t ht
    simp only [javaScript, List.contains_iff_mem] at ht
    have hcall : t.kind ≠ "call_expression" ∧ t.kind ≠ "new_expression" := by
      constructor <;> rintro hkind <;> simp [javaScriptIdentifiers, hkind] at ht
    simp [javaScript, hcall]

theorem Grammar.isSorted_of_eq {g : Grammar} (h : g = .python ∨ g = .javaScript) : g.IsSorted := by
  rcases h with rfl | rfl
  · exact isSorted_python
  · exact isSorted_javaScript

/-- Take in what several nodes leave. A name that is already known stays. -/
def OpenFunction.takeIn (traces : List Trace) (f : OpenFunction) : OpenFunction :=
  { f with
    sketch :=
      { body := f.sketch.body ++ traces.flatMap Trace.text
        name := f.sketch.name.or (traces.findSome? Trace.name?) } }

namespace OpenFunction

theorem takeIn_nil (f : OpenFunction) : f.takeIn [] = f := by
  simp [takeIn]

theorem takeIn_takeIn (a b : List Trace) (f : OpenFunction) :
    (f.takeIn a).takeIn b = f.takeIn (a ++ b) := by
  simp [takeIn, List.findSome?_append, Option.or_assoc]

end OpenFunction

namespace Walk

/-- The walk behind nodes that leave traces in the innermost function, call others, and
hold functions that are reported. -/
def after (traces : List Trace) (called : List Nat) (found : List Fingerprint) (w : Walk) : Walk :=
  { w with
    contexts := w.contexts.modifyHead (·.takeIn traces)
    callees := called.reverse ++ w.callees
    found := w.found ++ found }

theorem modifyHead_takeIn_nil (contexts : List OpenFunction) :
    contexts.modifyHead (·.takeIn []) = contexts := by
  cases contexts with
  | nil => rfl
  | cons f outer => simp [OpenFunction.takeIn_nil]

theorem after_nil (w : Walk) : w.after [] [] [] = w := by
  simp [after, modifyHead_takeIn_nil]

theorem after_after (w : Walk) (a b : List Trace) (c d : List Nat) (e f : List Fingerprint) :
    (w.after a c e).after b d f = w.after (a ++ b) (c ++ d) (e ++ f) := by
  obtain ⟨contexts, callees, typeDepth, found⟩ := w
  cases contexts <;> simp [after, OpenFunction.takeIn_takeIn]

theorem after_of_isEmpty {w : Walk} (h : w.contexts.isEmpty = true) (a b : List Trace)
    (called : List Nat) (found : List Fingerprint) :
    w.after a called found = w.after b called found := by
  rw [List.isEmpty_iff] at h
  simp [after, h]

end Walk

namespace Scene

variable {g : Grammar}

/-- The walk has arrived at a place of the tree. -/
structure Fits (g : Grammar) (s : Scene) (w : Walk) : Prop where
  callees : w.callees = (s.before.filterMap g.called?).reverse
  inType : s.inType = (w.typeDepth != 0)
  owner : w.contexts.head?.map OpenFunction.nameNode =
    s.owner.map fun f => (g.functionName? f).map (·.label.id)

theorem Fits.isEmpty {s : Scene} {w : Walk} (h : s.Fits g w) :
    w.contexts.isEmpty = !s.owner.isSome := by
  have howner := congrArg Option.isSome h.owner
  rw [Option.isSome_map, Option.isSome_map] at howner
  rw [← howner]
  cases w.contexts <;> rfl

theorem Fits.contains {s : Scene} {w : Walk} (h : s.Fits g w) (t : SyntaxTree) :
    w.callees.contains t.label.id = s.isCalled g t := by
  rw [h.callees, isCalled, Bool.eq_iff_iff]
  simp [List.mem_filterMap]

theorem Fits.after {s : Scene} {w : Walk} (h : s.Fits g w) (t : SyntaxTree) (traces : List Trace)
    (found : List Fingerprint) :
    (s.beyond g t).Fits g
      (w.after traces ((g.visited s.owner.isSome t).filterMap g.called?) found) := by
  constructor
  · simp [Walk.after, beyond, h.callees]
  · exact h.inType
  · rw [beyond, ← h.owner]
    obtain ⟨contexts, callees, typeDepth, found⟩ := w
    cases contexts <;> rfl

end Scene

/-- No node among several is the name of the innermost function if that is known already. -/
def Walk.Unnamed (w : Walk) (ts : List SyntaxTree) : Prop :=
  ∀ f ∈ w.contexts.head?, f.sketch.name.isSome → ∀ t ∈ ts, f.nameNode ≠ some t.label.id

namespace Survey

variable {v : Survey} {s : Scene} {w : Walk} {t : SyntaxTree}

mutual

/-- A name in a function is the text of a token that holds the name of the function. -/
theorem exists_of_named_mem_traces : ∀ (t : SyntaxTree) {s : Scene} {name : Text},
    .named name ∈ v.traces s t → ∃ n ∈ t.preorder, s.isOwnName v.grammar n = true ∧
      v.grammar.isIdentifier n = true ∧ (v.grammar.isAtomic n || n.children.isEmpty) = true ∧
        v.textOf n = name
  | .node label children, s, name, h => by
      rw [traces] at h
      split at h
      · simp at h
      · split at h
        · simp at h
        · rename_i hfunction
          split at h
          · simp at h
          · split at h
            · rename_i htoken
              refine ⟨.node label children, by simp [SyntaxTree.preorder], ?_⟩
              rw [List.mem_singleton, trace] at h
              split_ifs at h with hother hname
              exact ⟨hname, by simpa using hother, htoken, (Trace.named.inj h).symm⟩
            · obtain ⟨n, hn, hname⟩ := exists_of_named_mem_tracesAll children h
              refine ⟨n, by simp [SyntaxTree.preorder, hn], ?_⟩
              rwa [Scene.isOwnName, Scene.below, if_neg hfunction] at hname

theorem exists_of_named_mem_tracesAll : ∀ (ts : List SyntaxTree) {s : Scene} {name : Text},
    .named name ∈ v.tracesAll s ts →
      ∃ n ∈ SyntaxTree.preorderAll ts, s.isOwnName v.grammar n = true ∧
        v.grammar.isIdentifier n = true ∧ (v.grammar.isAtomic n || n.children.isEmpty) = true ∧
          v.textOf n = name
  | [], _, _, h => by simp [tracesAll] at h
  | t :: more, s, name, h => by
      rw [tracesAll, List.mem_append] at h
      rcases h with h | h
      · obtain ⟨n, hn, hname⟩ := exists_of_named_mem_traces t h
        exact ⟨n, by simp [SyntaxTree.preorderAll, hn], hname⟩
      · obtain ⟨n, hn, hname⟩ := exists_of_named_mem_tracesAll more h
        exact ⟨n, by simp [SyntaxTree.preorderAll, hn], hname⟩

end

theorem noteNode_eq (v : Survey) (t : SyntaxTree) (w : Walk) :
    v.noteNode t w =
      { w with
        typeDepth := w.typeDepth + (v.grammar.isType t).toNat
        callees := (v.grammar.called? t).toList ++ w.callees } := by
  unfold noteNode Grammar.called?
  cases v.grammar.isType t <;> cases v.grammar.isCall t <;>
    cases v.grammar.callee? t <;> rfl

theorem leave_noteNode (h : v.grammar.isFunction t = false) (a : List Trace) (c : List Nat)
    (r : List Fingerprint) :
    v.leave t ((v.noteNode t w).after a c r) =
      w.after a ((v.grammar.called? t).toList ++ c) r := by
  have hcalled : (v.grammar.called? t).toList.reverse = (v.grammar.called? t).toList := by
    cases v.grammar.called? t <;> rfl
  rw [noteNode_eq, leave, h]
  cases v.grammar.isType t <;> simp [Walk.after, hcalled]

theorem fits_noteNode (h : s.Fits v.grammar w) (hfunction : v.grammar.isFunction t = false) :
    (s.below v.grammar t).Fits v.grammar (v.noteNode t w) := by
  rw [noteNode_eq]
  constructor
  · simp only [Scene.below, h.callees, List.filterMap_append, List.reverse_append]
    cases hcalled : v.grammar.called? t <;> simp [hcalled]
  · rw [Scene.below, h.inType]
    cases v.grammar.isType t <;> simp
  · rw [Scene.below, hfunction]
    exact h.owner

theorem addToken_eq {f : OpenFunction}
    (hname : f.nameNode = (s.owner.bind v.grammar.functionName?).map (·.label.id))
    (hfresh : f.sketch.name.isSome → f.nameNode ≠ some t.label.id) :
    v.addToken t (s.isCalled v.grammar t) (s.inType || v.grammar.isType t) f =
      f.takeIn [v.trace s t] := by
  have hown : (f.nameNode == some t.label.id) = s.isOwnName v.grammar t := by
    rw [hname, Scene.isOwnName]
    cases s.owner.bind v.grammar.functionName? <;> rfl
  have hslot : f.isNameSlot t.label.id = s.isOwnName v.grammar t := by
    rw [OpenFunction.isNameSlot, hown]
    cases hsome : f.sketch.name with
    | none => simp
    | some name =>
        have hne := hfresh (by simp [hsome])
        simpa [← hown] using hne
  rw [addToken, hslot, trace]
  split_ifs with h₁ h₂ h₃ h₄
  · simp [OpenFunction.takeIn, Sketch.push, Trace.text, Trace.name?]
  · have hnone : f.sketch.name = none := by
      rw [← hslot, OpenFunction.isNameSlot, Bool.and_eq_true] at h₂
      simpa using h₂.2
    simp [OpenFunction.takeIn, Sketch.mark, Sketch.push, Sketch.setName, Trace.text, Trace.name?,
      hnone]
  · simp [OpenFunction.takeIn, Sketch.mark, Sketch.push, Trace.text, Trace.name?]
  · simp [OpenFunction.takeIn, Sketch.push, Trace.text, Trace.name?]
  · simp [OpenFunction.takeIn, Sketch.mark, Sketch.push, Trace.text, Trace.name?]

theorem emit_eq (h : s.Fits v.grammar w) (hfresh : w.Unnamed t.preorder)
    (hsorted : v.grammar.IsSorted) :
    v.emit t (v.noteNode t w) = (v.noteNode t w).after [v.trace s t] [] [] := by
  rw [noteNode_eq]
  obtain ⟨contexts, callees, typeDepth, found⟩ := w
  cases contexts with
  | nil => simp [emit, Walk.after]
  | cons f outer =>
      have hname : f.nameNode = (s.owner.bind v.grammar.functionName?).map (·.label.id) := by
        have howner := h.owner
        cases ho : s.owner with
        | none => simp [ho] at howner
        | some owner => simpa [ho] using howner
      have htype : ((typeDepth + (v.grammar.isType t).toNat) != 0) =
          (s.inType || v.grammar.isType t) := by
        rw [h.inType]
        cases v.grammar.isType t <;> simp
      have hadd : ∀ isCallee, (v.grammar.isIdentifier t = true → isCallee = s.isCalled v.grammar t) →
          v.addToken t isCallee (s.inType || v.grammar.isType t) f = f.takeIn [v.trace s t] := by
        intro isCallee hcallee
        rw [← addToken_eq hname fun hsome =>
          hfresh f rfl hsome t (by cases t; simp [SyntaxTree.preorder])]
        cases hid : v.grammar.isIdentifier t with
        | false => simp [addToken, hid]
        | true => rw [hcallee hid]
      simp only [emit, htype]
      rw [hadd]
      · simp [Walk.after]
      · intro hid
        have hnone : v.grammar.called? t = none := by
          rw [Grammar.called?, (hsorted.identifier hid).2]
          rfl
        rw [hnone]
        exact h.contains t

theorem finish_eq {f : OpenFunction} (v : Survey) (site : FunctionSite) (hsketch : f.sketch = {}) :
    (f.takeIn (v.content site)).sketch.finish v.file (v.lineOf site.node.label.startRow)
      (v.lineOf site.node.label.stopRow) v.limits = v.record? site := by
  have hbody : (f.takeIn (v.content site)).sketch.canonicalBody = bodyOf (v.content site) := by
    simp [OpenFunction.takeIn, hsketch, Sketch.canonicalBody, bodyOf]
  have hname : (f.takeIn (v.content site)).sketch.nameText =
      ((v.content site).findSome? Trace.name?).getD [] := by
    simp [OpenFunction.takeIn, hsketch, Sketch.nameText]
  simp only [Sketch.finish, record?, hbody, hname, lineOf]
  split_ifs with hadmits
  · simp only [Thresholds.admits, Bool.and_eq_true, decide_eq_true_eq] at hadmits
    rw [Fingerprint.ofLines, Nat.min_eq_left hadmits.1.2]
  · rfl

/-- Closing a function reports it and leaves its placeholder. -/
theorem close_eq {f : OpenFunction} (v : Survey) (site : FunctionSite) (hsketch : f.sketch = {})
    (hline : f.startLine = v.lineOf site.node.label.startRow) (contexts : List OpenFunction)
    (callees : List Nat) (typeDepth : Nat) (found : List Fingerprint) :
    v.close site.node ⟨f.takeIn (v.content site) :: contexts, callees, typeDepth, found⟩ =
      ⟨contexts.modifyHead (·.takeIn [.marked .nested]), callees, typeDepth,
        found ++ (v.record? site).toList⟩ := by
  have hstart : (f.takeIn (v.content site)).startLine = v.lineOf site.node.label.startRow := hline
  rw [← finish_eq v site hsketch, close]
  simp only [hstart]
  cases contexts with
  | nil => rfl
  | cons g more => simp [OpenFunction.takeIn, Sketch.mark, Sketch.push, Trace.text, Trace.name?]

/-- What is known when a walk arrives at several trees in a row. -/
structure Arrives (v : Survey) (s : Scene) (w : Walk) (ts : List SyntaxTree) : Prop where
  fits : s.Fits v.grammar w
  unnamed : w.Unnamed (SyntaxTree.preorderAll ts)
  nodup : ((SyntaxTree.preorderAll ts).map (·.label.id)).Nodup

theorem preorderAll_cons (label : SyntaxLabel) (children more : List SyntaxTree) :
    SyntaxTree.preorderAll (.node label children :: more) =
      .node label children ::
        (SyntaxTree.preorderAll children ++ SyntaxTree.preorderAll more) := by
  rw [SyntaxTree.preorderAll, SyntaxTree.preorder, List.cons_append]

/-- The first tree leaves no name behind that stands in the others. -/
theorem Arrives.beyond {more : List SyntaxTree} (h : v.Arrives s w (t :: more))
    (found : List Fingerprint) :
    v.Arrives (s.beyond v.grammar t)
      (w.after (v.traces s t) ((v.grammar.visited s.owner.isSome t).filterMap v.grammar.called?)
        found) more := by
  have hnodup := h.nodup
  rw [SyntaxTree.preorderAll, List.map_append, List.nodup_append] at hnodup
  refine ⟨h.fits.after t _ _, ?_, hnodup.2.1⟩
  intro f' hf' hnamed n hn
  obtain ⟨contexts, callees, typeDepth, records⟩ := w
  cases contexts with
  | nil => simp [Walk.after] at hf'
  | cons f outer =>
      have hf' : f' = f.takeIn (v.traces s t) := by simpa [Walk.after, eq_comm] using hf'
      subst hf'
      by_cases hbefore : f.sketch.name.isSome
      · exact h.unnamed f rfl hbefore n (by simp [SyntaxTree.preorderAll, hn])
      -- The name was found in the first tree, and no node beside it has the same number.
      · have hname : ((v.traces s t).findSome? Trace.name?).isSome := by
          simpa [OpenFunction.takeIn, hbefore] using hnamed
        obtain ⟨trace, htrace, hsome⟩ := List.findSome?_isSome_iff.1 hname
        cases trace with
        | kept _ | marked _ => simp [Trace.name?] at hsome
        | named name =>
            obtain ⟨m, hm, hown, -⟩ := exists_of_named_mem_traces t htrace
            have howner := h.fits.owner
            cases ho : s.owner with
            | none => simp [ho] at howner
            | some owner =>
                have hnode : f.nameNode = some m.label.id := by
                  simp only [Scene.isOwnName, ho, Option.bind_some, Option.any_eq_true,
                    beq_iff_eq] at hown
                  obtain ⟨name, hname, hid⟩ := hown
                  simpa [ho, hname, hid] using howner
                have hne := hnodup.2.2 m.label.id (List.mem_map_of_mem hm) n.label.id
                  (List.mem_map_of_mem hn)
                simpa [OpenFunction.takeIn, hnode] using hne

/-- Inside a node other than a function nothing changes for the function around it. -/
theorem Arrives.children {label : SyntaxLabel} {children more : List SyntaxTree}
    (h : v.Arrives s w (.node label children :: more))
    (hfunction : v.grammar.isFunction (.node label children) = false) :
    v.Arrives (s.below v.grammar (.node label children))
      (v.noteNode (.node label children) w) children := by
  have hnodup := h.nodup
  have hunnamed := h.unnamed
  rw [preorderAll_cons] at hnodup hunnamed
  rw [List.map_cons, List.map_append, List.nodup_cons, List.nodup_append] at hnodup
  refine ⟨fits_noteNode h.fits hfunction, ?_, hnodup.2.1⟩
  rw [noteNode_eq]
  exact fun f hf hnamed n hn => hunnamed f hf hnamed n (by simp [hn])

/-- A function is entered with nothing in it and no name. -/
theorem Arrives.body {label : SyntaxLabel} {children more : List SyntaxTree}
    (h : v.Arrives s w (.node label children :: more)) (hsorted : v.grammar.IsSorted)
    (hfunction : v.grammar.isFunction (.node label children) = true) (line : Nat) :
    v.Arrives (s.below v.grammar (.node label children))
      { w with
        contexts :=
          { startLine := line
            nameNode := (v.grammar.functionName? (.node label children)).map (·.label.id) } ::
              w.contexts } children := by
  have hnodup := h.nodup
  rw [preorderAll_cons, List.map_cons, List.map_append, List.nodup_cons,
    List.nodup_append] at hnodup
  obtain ⟨htype, hcall⟩ := hsorted.function hfunction
  refine ⟨⟨?_, ?_, ?_⟩, ?_, hnodup.2.1⟩
  · simp [Scene.below, h.fits.callees, Grammar.called?, hcall]
  · simp [Scene.below, h.fits.inType, htype]
  · simp [Scene.below, hfunction]
  · intro f hf hnamed
    have hf : f.sketch = {} := by
      obtain rfl := Option.some.inj hf
      rfl
    simp [hf] at hnamed

/-- A walk through several trees does what is read off the place where they stand. -/
def Walks (v : Survey) (s : Scene) (ts : List SyntaxTree) : Prop :=
  ∀ w, v.Arrives s w ts →
    v.visitAll w ts = w.after (v.tracesAll s ts)
      ((v.grammar.visitedAll s.owner.isSome ts).filterMap v.grammar.called?)
      ((v.grammar.functionsAll s ts).filterMap v.record?)

section

variable {label : SyntaxLabel} {children more : List SyntaxTree}

theorem visit_comment (hsorted : v.grammar.IsSorted) (s : Scene) (w : Walk)
    (hcomment : v.grammar.isComment (.node label children) = true) :
    v.visit w (.node label children) = w.after (v.traces s (.node label children))
      ((v.grammar.visited s.owner.isSome (.node label children)).filterMap v.grammar.called?)
      ((v.grammar.functions s (.node label children)).filterMap v.record?) := by
  obtain ⟨hfunction, htype, hcall⟩ := hsorted.comment hcomment
  simp [visit, traces, Grammar.visited, Grammar.functions, Grammar.descends, enter, leave, hcomment,
    hfunction, htype, Grammar.called?, hcall, Walk.after_nil]

theorem visit_function (h : v.Arrives s w (.node label children :: more))
    (hsorted : v.grammar.IsSorted)
    (hcomment : v.grammar.isComment (.node label children) = false)
    (hfunction : v.grammar.isFunction (.node label children) = true)
    (hchildren : v.Walks (s.below v.grammar (.node label children)) children) :
    v.visit w (.node label children) = w.after (v.traces s (.node label children))
      ((v.grammar.visited s.owner.isSome (.node label children)).filterMap v.grammar.called?)
      ((v.grammar.functions s (.node label children)).filterMap v.record?) := by
  obtain ⟨htype, hcall⟩ := hsorted.function hfunction
  have howner : (s.below v.grammar (.node label children)).owner.isSome = true := by
    simp [Scene.below, hfunction]
  have hwalk := hchildren _ (h.body hsorted hfunction (v.lineOf label.startRow))
  rw [howner] at hwalk
  have hvisited : v.grammar.visited s.owner.isSome (.node label children) =
      .node label children :: v.grammar.visitedAll true children := by
    simp [Grammar.visited, Grammar.descends, hcomment, hfunction]
  have hfunctions : v.grammar.functions s (.node label children) =
      v.grammar.functionsAll (s.below v.grammar (.node label children)) children ++
        [⟨s, .node label children⟩] := by
    simp [Grammar.functions, Grammar.descends, hcomment, hfunction]
  have hnone : v.grammar.called? (.node label children) = none := by
    simp [Grammar.called?, hcall]
  have hclose := close_eq
    (f := ⟨{}, v.lineOf label.startRow,
      (v.grammar.functionName? (.node label children)).map (·.label.id)⟩)
    v ⟨s, .node label children⟩ rfl rfl w.contexts
    (((v.grammar.visitedAll true children).filterMap v.grammar.called?).reverse ++ w.callees)
    w.typeDepth
    (w.found ++
      (v.grammar.functionsAll (s.below v.grammar (.node label children)) children).filterMap
        v.record?)
  simp only [visit, enter, leave, hcomment, hfunction, htype, ↓reduceIte, Bool.false_eq_true]
  rw [SyntaxTree.label, hwalk, traces, hvisited, hfunctions]
  simp only [hcomment, hfunction, ↓reduceIte, Bool.false_eq_true]
  refine hclose.trans ?_
  simp only [Walk.after, hnone, List.filterMap_append, List.filterMap_cons, List.filterMap_nil,
    List.append_assoc]
  cases v.record? ⟨s, .node label children⟩ <;> rfl

/-- A node that is no function is left as if it had only been taken note of. -/
theorem leave_after (hfunction : v.grammar.isFunction (.node label children) = false)
    (traces : List Trace) (below : List SyntaxTree) (found : List Fingerprint) :
    v.leave (.node label children) ((v.noteNode (.node label children) w).after traces
      (below.filterMap v.grammar.called?) found) =
        w.after traces ((.node label children :: below).filterMap v.grammar.called?) found := by
  rw [leave_noteNode hfunction]
  cases hcalled : v.grammar.called? (.node label children) <;> simp [hcalled]

theorem visit_outside (h : v.Arrives s w (.node label children :: more))
    (hcomment : v.grammar.isComment (.node label children) = false)
    (hfunction : v.grammar.isFunction (.node label children) = false)
    (houtside : s.owner.isSome = false)
    (hchildren : v.Walks (s.below v.grammar (.node label children)) children) :
    v.visit w (.node label children) = w.after (v.traces s (.node label children))
      ((v.grammar.visited s.owner.isSome (.node label children)).filterMap v.grammar.called?)
      ((v.grammar.functions s (.node label children)).filterMap v.record?) := by
  have hempty : w.contexts.isEmpty = true := by rw [h.fits.isEmpty, houtside, Bool.not_false]
  have hnoted : (v.noteNode (.node label children) w).contexts.isEmpty = true := by
    rw [noteNode_eq]
    exact hempty
  have hbelow : (s.below v.grammar (.node label children)).owner.isSome = false := by
    simp [Scene.below, hfunction, houtside]
  have hwalk := hchildren _ (h.children hfunction)
  rw [hbelow] at hwalk
  rw [Walk.after_of_isEmpty hempty _
    (v.tracesAll (s.below v.grammar (.node label children)) children)]
  simp only [visit, enter, hcomment, hfunction, hnoted, ↓reduceIte, Bool.false_eq_true, hwalk]
  rw [leave_after hfunction]
  simp [Grammar.visited, Grammar.functions, Grammar.descends, hcomment, hfunction, houtside]

theorem visit_inside (h : v.Arrives s w (.node label children :: more))
    (hsorted : v.grammar.IsSorted)
    (hcomment : v.grammar.isComment (.node label children) = false)
    (hfunction : v.grammar.isFunction (.node label children) = false)
    (hinside : s.owner.isSome = true)
    (hchildren : v.Walks (s.below v.grammar (.node label children)) children) :
    v.visit w (.node label children) = w.after (v.traces s (.node label children))
      ((v.grammar.visited s.owner.isSome (.node label children)).filterMap v.grammar.called?)
      ((v.grammar.functions s (.node label children)).filterMap v.record?) := by
  have hnoted : (v.noteNode (.node label children) w).contexts.isEmpty = false := by
    rw [noteNode_eq]
    exact h.fits.isEmpty.trans (by rw [hinside, Bool.not_true])
  have hbelow : (s.below v.grammar (.node label children)).owner.isSome = true := by
    simp [Scene.below, hfunction, hinside]
  have hwalk := hchildren _ (h.children hfunction)
  rw [hbelow] at hwalk
  have hunnamed : w.Unnamed (SyntaxTree.node label children).preorder := fun f hf hnamed n hn =>
    h.unnamed f hf hnamed n (by simp [SyntaxTree.preorderAll, hn])
  simp only [visit, enter, traces, Grammar.visited, Grammar.functions, Grammar.descends, hcomment,
    hfunction, hinside, hnoted, ↓reduceIte, Bool.false_eq_true, Bool.not_false, Bool.true_and,
    Bool.false_or, Bool.true_or, Bool.and_false, List.append_nil]
  cases hidle : v.grammar.isIdleLiteral (.node label children) with
  | true =>
      have hleft := leave_after (w := w) hfunction [] [] []
      simpa [Walk.after_nil] using hleft
  | false =>
      cases hatomic : v.grammar.isAtomic (.node label children) with
      | true =>
          have hleft := leave_after (w := w) hfunction [v.trace s (.node label children)] [] []
          rw [List.filterMap_nil, ← emit_eq h.fits hunnamed hsorted] at hleft
          simpa using hleft
      | false =>
          cases children with
          | nil =>
              have hleft := leave_after (w := w) hfunction [v.trace s (.node label [])] [] []
              rw [List.filterMap_nil, ← emit_eq h.fits hunnamed hsorted] at hleft
              simpa [SyntaxTree.children, Grammar.visitedAll, Grammar.functionsAll] using hleft
          | cons child children =>
              simp only [SyntaxTree.children, List.isEmpty_cons, Bool.or_false, Bool.not_false,
                Bool.false_eq_true, ↓reduceIte, hwalk]
              exact leave_after hfunction _ _ _

end

mutual

/-- Walking through a tree does what is read off the place where it stands. -/
theorem visit_eq (hsorted : v.grammar.IsSorted) :
    ∀ (t : SyntaxTree) {s : Scene} {w : Walk} {more : List SyntaxTree},
      v.Arrives s w (t :: more) →
        v.visit w t = w.after (v.traces s t)
          ((v.grammar.visited s.owner.isSome t).filterMap v.grammar.called?)
          ((v.grammar.functions s t).filterMap v.record?)
  | .node label children, s, w, more, h => by
      cases hcomment : v.grammar.isComment (.node label children) with
      | true => exact visit_comment hsorted s w hcomment
      | false =>
          cases hfunction : v.grammar.isFunction (.node label children) with
          | true =>
              exact visit_function h hsorted hcomment hfunction (walks hsorted children)
          | false =>
              cases hinside : s.owner.isSome with
              | true =>
                  rw [← hinside]
                  exact visit_inside h hsorted hcomment hfunction hinside (walks hsorted children)
              | false =>
                  rw [← hinside]
                  exact visit_outside h hcomment hfunction hinside (walks hsorted children)

theorem walks (hsorted : v.grammar.IsSorted) : ∀ (ts : List SyntaxTree) {s : Scene}, v.Walks s ts
  | [], s => by
      intro w _
      simp [visitAll, tracesAll, Grammar.visitedAll, Grammar.functionsAll, Walk.after_nil]
  | t :: more, s => by
      intro w h
      rw [visitAll, visit_eq hsorted t h, walks hsorted more _ (h.beyond _), Walk.after_after,
        ← List.filterMap_append, ← List.filterMap_append]
      rfl

end

theorem visit_start (hsorted : v.grammar.IsSorted)
    (hids : (t.preorder.map (·.label.id)).Nodup) :
    v.visit {} t = Walk.after (v.traces {} t)
      ((v.grammar.visited false t).filterMap v.grammar.called?)
      ((v.grammar.functions {} t).filterMap v.record?) {} := by
  have harrives : v.Arrives {} {} [t] := by
    refine ⟨⟨rfl, rfl, rfl⟩, fun f hf => by simp at hf, ?_⟩
    simpa [SyntaxTree.preorderAll] using hids
  exact visit_eq hsorted t harrives

theorem found_eq_filterMap (hgrammar : v.grammar = .python ∨ v.grammar = .javaScript)
    (hids : (t.preorder.map (·.label.id)).Nodup) :
    v.run t = (v.grammar.functions {} t).filterMap v.record? := by
  rw [run, visit_start (Grammar.isSorted_of_eq hgrammar) hids]
  exact List.nil_append _

end Survey

/-- A node of the tree of a source. Its rows follow from its bytes. -/
def SyntaxTree.spanning (source : Text) (id : Nat) (kind : String) (start stop : Nat)
    (children : List SyntaxTree) : SyntaxTree :=
  .node
    { id, kind, start, stop
      startRow := Text.rowAt start source
      stopRow := Text.rowAt stop source } children

def SyntaxTree.fixed (source : Text) (id : Nat) (kind : String) (start stop : Nat) : SyntaxTree :=
  .node
    { id, kind, start, stop
      named := false
      startRow := Text.rowAt start source
      stopRow := Text.rowAt stop source } []

def SyntaxTree.filling (field : String) : SyntaxTree → SyntaxTree
  | .node label children => .node { label with field } children

def nestedSource : Text := "def f(a: T):\n def g(): pass\n return g(a)\n".toList

/-- A function with a function, a type and a call in it. -/
def nestedTree : SyntaxTree :=
  let node := SyntaxTree.spanning nestedSource
  let word := SyntaxTree.fixed nestedSource
  node 0 "module" 0 43
    [node 1 "function_definition" 0 42
      [word 2 "def" 0 3, .filling "name" (node 3 "identifier" 4 5 []),
       node 4 "parameters" 5 11
        [word 5 "(" 5 6,
         node 6 "typed_parameter" 6 10
          [node 7 "identifier" 6 7 [], word 8 ":" 7 8,
           node 9 "type" 9 10 [node 10 "identifier" 9 10 []]],
         word 11 ")" 10 11],
       word 12 ":" 11 12,
       node 13 "block" 14 42
        [node 14 "function_definition" 14 27
          [word 15 "def" 14 17, .filling "name" (node 16 "identifier" 18 19 []),
           node 17 "parameters" 19 21 [word 18 "(" 19 20, word 19 ")" 20 21],
           word 20 ":" 21 22,
           node 21 "block" 23 27 [node 22 "pass_statement" 23 27 [word 31 "pass" 23 27]]],
         node 23 "return_statement" 29 40
          [word 24 "return" 29 35,
           node 25 "call" 36 40
            [.filling "function" (node 26 "identifier" 36 37 []),
             node 27 "argument_list" 37 40
              [word 28 "(" 37 38, node 29 "identifier" 38 39 [], word 30 ")" 39 40]]]]]]

end ClonePrint
