import Mathlib.Data.List.Forall2
import ClonePrint.Proofs.Depiction

/-!
# Where functions are reported from

Inside a function some literals are taken as one token and others are left out, and what
stands in them is not visited. A function in such a literal gets no record. Everywhere else
outside comments a function gets its own, whether it stands at the top, in another function or
in a literal that is not itself inside a function.
-/
namespace ClonePrint

namespace SyntaxTree

/-- A node of a tree and the nodes above it, the nearest first. -/
structure Place where
  above : List SyntaxTree
  node : SyntaxTree

mutual

/-- The places of a tree that stands below some nodes, each behind those below it. -/
def places (above : List SyntaxTree) : SyntaxTree → List Place
  | .node label children =>
      placesAll (.node label children :: above) children ++ [⟨above, .node label children⟩]

def placesAll (above : List SyntaxTree) : List SyntaxTree → List Place
  | [] => []
  | t :: more => places above t ++ placesAll above more

end

mutual

theorem suffix_of_mem_places {above : List SyntaxTree} {p : Place} : ∀ (t : SyntaxTree),
    p ∈ t.places above → above <:+ p.above
  | .node label children, h => by
      rw [places, List.mem_append, List.mem_singleton] at h
      rcases h with h | rfl
      · exact (List.suffix_cons _ above).trans (suffix_of_mem_placesAll children h)
      · exact List.suffix_refl above

theorem suffix_of_mem_placesAll {above : List SyntaxTree} {p : Place} :
    ∀ (ts : List SyntaxTree), p ∈ placesAll above ts → above <:+ p.above
  | [], h => by simp [placesAll] at h
  | t :: more, h => by
      rw [placesAll, List.mem_append] at h
      rcases h with h | h
      · exact suffix_of_mem_places t h
      · exact suffix_of_mem_placesAll more h

end

end SyntaxTree

namespace Grammar

open SyntaxTree

variable (g : Grammar)

/-- On the way up stands a literal that is inside a function and not visited. -/
def hides : List SyntaxTree → Bool
  | [] => false
  | t :: outer => (g.isAtomic t || g.isIdleLiteral t) && outer.any g.isFunction || hides outer

/-- The places of the functions outside comments. -/
def functionPlaces (t : SyntaxTree) : List Place :=
  (t.places []).filter fun p => g.isFunction p.node && !p.above.any g.isComment

/-- A function stands here and is visited. -/
def shows (p : Place) : Bool :=
  g.isFunction p.node && !p.above.any g.isComment && !g.hides p.above

variable {g}

theorem filter_functionPlaces (t : SyntaxTree) :
    ((g.functionPlaces t).filter fun p => !g.hides p.above) = (t.places []).filter g.shows := by
  rw [functionPlaces, List.filter_filter]
  exact List.filter_congr fun p _ => Bool.and_comm _ _

theorem hides_of_suffix {above outer : List SyntaxTree} (hsuffix : outer <:+ above)
    (h : g.hides outer = true) : g.hides above = true := by
  obtain ⟨inner, rfl⟩ := hsuffix
  induction inner with
  | nil => exact h
  | cons t inner ih => rw [List.cons_append, hides, ih, Bool.or_true]

/-- Nothing is visited below a node that is not. -/
theorem filter_shows_eq_nil {above : List SyntaxTree} (ts : List SyntaxTree)
    (h : above.any g.isComment = true ∨ g.hides above = true) :
    (placesAll above ts).filter g.shows = [] := by
  rw [List.filter_eq_nil_iff]
  intro p hp
  have hsuffix := suffix_of_mem_placesAll ts hp
  rcases h with hcomment | hhides
  · obtain ⟨n, hn, hcomment⟩ := List.any_eq_true.1 hcomment
    have hbelow : p.above.any g.isComment = true :=
      List.any_eq_true.2 ⟨n, hsuffix.subset hn, hcomment⟩
    simp [shows, hbelow]
  · simp [shows, hides_of_suffix hsuffix hhides]

/-- A function is of no other sort. -/
theorem eq_false_of_isFunction (h : g = .python ∨ g = .javaScript) {t : SyntaxTree}
    (ht : g.isFunction t = true) : g.isComment t = false ∧ g.isType t = false ∧
      g.isCall t = false ∧ g.isIdentifier t = false ∧ g.isAtomic t = false ∧
        g.isIdleLiteral t = false := by
  rcases h with rfl | rfl
  · have hkind : t.kind = "function_definition" := by simpa [python] using ht
    simp [python, isPythonString, hkind]
  · simp only [javaScript, Bool.and_eq_true, List.contains_iff_mem] at ht
    have hother (kind : String) (hkind : kind ∉ javaScriptFunctions) : t.kind ≠ kind := by
      rintro rfl
      exact hkind ht.2
    have hnames : t.kind ∉ javaScriptIdentifiers := by
      intro hname
      have hapart : ∀ kind ∈ javaScriptIdentifiers, kind ∉ javaScriptFunctions := by decide
      exact hapart t.kind hname ht.2
    simp [javaScript, hnames, hother "comment" (by decide), hother "html_comment" (by decide),
      hother "call_expression" (by decide), hother "new_expression" (by decide),
      hother "string" (by decide), hother "template_string" (by decide),
      hother "regex" (by decide)]

end Grammar

/-- Without thresholds every function gets a record that ends no earlier than it starts. -/
theorem Sketch.finish_of_le (file : String) (s : Sketch) {first last : Nat} (h : first ≤ last) :
    s.finish file first last {} =
      some ⟨Digest.ofText s.canonicalBody, file, String.ofList s.nameText, first, last⟩ := by
  rw [finish, Thresholds.admits, Fingerprint.ofLines, Nat.min_eq_left h]
  exact if_pos (by simp [h])

namespace Survey

open SyntaxTree

variable {v : Survey} {w : Walk} {above : List SyntaxTree}

/-- The record is about the function at a place. -/
def Reports (v : Survey) (p : Place) (r : Fingerprint) : Prop :=
  r.file = v.file ∧ r.lineStart = v.lineOf p.node.label.startRow ∧
    r.lineEnd = v.lineOf p.node.label.stopRow

/-- The walk has arrived below some nodes, all of which it visits. -/
structure Below (v : Survey) (above : List SyntaxTree) (w : Walk) : Prop where
  contexts : w.contexts.isEmpty = !above.any v.grammar.isFunction
  comments : above.any v.grammar.isComment = false
  hides : v.grammar.hides above = false

/-- Between two states of a walk the functions at some of the places were found, and those that
were open are open again. -/
def Finds (v : Survey) (ps : List Place) (w w' : Walk) : Prop :=
  w'.contexts.map (·.startLine) = w.contexts.map (·.startLine) ∧
    ∃ rs, w'.found = w.found ++ rs ∧ List.Forall₂ v.Reports (ps.filter v.grammar.shows) rs

namespace Finds

variable {ps qs : List Place} {w w' w'' : Walk}

theorem trans (h : v.Finds ps w w') (h' : v.Finds qs w' w'') : v.Finds (ps ++ qs) w w'' := by
  obtain ⟨hlines, rs, hfound, hreports⟩ := h
  obtain ⟨hlines', rs', hfound', hreports'⟩ := h'
  refine ⟨hlines'.trans hlines, rs ++ rs', ?_, ?_⟩
  · rw [hfound', hfound, List.append_assoc]
  · rw [List.filter_append]
    exact List.rel_append hreports hreports'

/-- Nothing is found where no function is visited. -/
theorem of_eq_nil (hlines : w'.contexts.map (·.startLine) = w.contexts.map (·.startLine))
    (hfound : w'.found = w.found) (h : ps.filter v.grammar.shows = []) : v.Finds ps w w' := by
  refine ⟨hlines, [], ?_, ?_⟩
  · rw [hfound, List.append_nil]
  · rw [h]
    exact .nil

theorem isEmpty (h : v.Finds ps w w') : w'.contexts.isEmpty = w.contexts.isEmpty := by
  have hlines := congrArg List.isEmpty h.1
  rwa [List.isEmpty_map, List.isEmpty_map] at hlines

end Finds

theorem leave_of_not_isFunction {t : SyntaxTree} (h : v.grammar.isFunction t = false) (w : Walk) :
    (v.leave t w).contexts = w.contexts ∧ (v.leave t w).found = w.found := by
  rw [leave, h]
  cases v.grammar.isType t <;> exact ⟨rfl, rfl⟩

theorem emit_startLine (v : Survey) (t : SyntaxTree) (w : Walk) :
    (v.emit t w).contexts.map (·.startLine) = w.contexts.map (·.startLine) ∧
      (v.emit t w).found = w.found := by
  obtain ⟨contexts, callees, typeDepth, found⟩ := w
  cases contexts <;> exact ⟨rfl, rfl⟩

section

variable {t : SyntaxTree}

/-- A node that is no function is a comment, is descended into, or is taken as a whole. -/
theorem enter_cases (hfunction : v.grammar.isFunction t = false) (w : Walk) :
    (v.grammar.isComment t = true ∧ v.enter t w = (false, w)) ∨
    (v.grammar.isComment t = false ∧ v.enter t w = (true, v.noteNode t w) ∧
      (w.contexts.isEmpty = true ∨
        (v.grammar.isAtomic t || v.grammar.isIdleLiteral t) = false)) ∨
    ((v.enter t w = (false, v.noteNode t w) ∨ v.enter t w = (false, v.emit t (v.noteNode t w))) ∧
      w.contexts.isEmpty = false ∧
      ((v.grammar.isAtomic t || v.grammar.isIdleLiteral t) = true ∨ t.children = [])) := by
  have hcontexts : (v.noteNode t w).contexts = w.contexts := by rw [noteNode_eq]
  simp only [enter, hfunction, hcontexts, Bool.false_eq_true, ↓reduceIte]
  cases v.grammar.isComment t <;> cases w.contexts.isEmpty <;>
    cases v.grammar.isIdleLiteral t <;> cases v.grammar.isAtomic t <;>
      cases t.children <;> simp

theorem finds_enter (hfunction : v.grammar.isFunction t = false) (w : Walk) :
    v.Finds [] w (v.enter t w).2 := by
  obtain ⟨hlines, hfound⟩ := v.emit_startLine t (v.noteNode t w)
  have hnoted : (v.noteNode t w).contexts = w.contexts ∧ (v.noteNode t w).found = w.found := by
    rw [noteNode_eq]
    exact ⟨rfl, rfl⟩
  rw [hnoted.1] at hlines
  rw [hnoted.2] at hfound
  rcases enter_cases hfunction w with ⟨-, henter⟩ | ⟨-, henter, -⟩ | ⟨henter | henter, -⟩ <;>
    rw [henter]
  · exact .of_eq_nil rfl rfl rfl
  · exact .of_eq_nil (by rw [hnoted.1]) hnoted.2 rfl
  · exact .of_eq_nil (by rw [hnoted.1]) hnoted.2 rfl
  · exact .of_eq_nil hlines hfound rfl

/-- A node that is descended into and is no function has its children where they are visited. -/
theorem Below.enter (h : v.Below above w) (hfunction : v.grammar.isFunction t = false)
    (hdescends : (v.enter t w).1 = true) : v.Below (t :: above) (v.enter t w).2 := by
  have hempty := (finds_enter hfunction w).isEmpty
  have hinside := h.contexts
  rcases enter_cases hfunction w with ⟨-, henter⟩ | ⟨hcomment, -, hliteral⟩ | ⟨henter | henter, -⟩
  · rw [henter] at hdescends
    cases hdescends
  · constructor
    · rw [hempty, hinside, List.any_cons, hfunction, Bool.false_or]
    · rw [List.any_cons, hcomment, h.comments, Bool.or_false]
    · rw [Grammar.hides, h.hides, Bool.or_false]
      rcases hliteral with hopen | hliteral
      · rw [hopen] at hinside
        have houtside : above.any v.grammar.isFunction = false := by simpa using hinside.symm
        rw [houtside, Bool.and_false]
      · rw [hliteral, Bool.false_and]
  all_goals
    rw [henter] at hdescends
    cases hdescends

/-- No function is visited below a node that is not descended into. -/
theorem Below.filter_children (h : v.Below above w) (hfunction : v.grammar.isFunction t = false)
    (hskips : (v.enter t w).1 = false) :
    (placesAll (t :: above) t.children).filter v.grammar.shows = [] := by
  have hinside := h.contexts
  rcases enter_cases hfunction w with ⟨hcomment, -⟩ | ⟨-, henter, -⟩ | ⟨-, hopen, hliteral | hleaf⟩
  · exact Grammar.filter_shows_eq_nil _ (.inl (by rw [List.any_cons, hcomment, Bool.true_or]))
  · rw [henter] at hskips
    cases hskips
  · rw [hopen] at hinside
    have hbelow : above.any v.grammar.isFunction = true := by simpa using hinside.symm
    exact Grammar.filter_shows_eq_nil _ (.inr (by rw [Grammar.hides, hliteral, hbelow]; rfl))
  · rw [hleaf, placesAll, List.filter_nil]

/-- A function that is left is reported with the lines on which it begins and ends. -/
theorem finds_close {f : OpenFunction} {w' : Walk} {ps : List Place} (hlimits : v.limits = {})
    (hshows : v.grammar.shows ⟨above, t⟩ = true)
    (hrows : t.label.startRow ≤ t.label.stopRow)
    (hline : f.startLine = v.lineOf t.label.startRow)
    (hfinds : v.Finds ps { w with contexts := f :: w.contexts } w') :
    v.Finds (ps ++ [⟨above, t⟩]) w (v.close t w') := by
  obtain ⟨hlines, rs, hfound, hreports⟩ := hfinds
  obtain ⟨contexts, callees, typeDepth, found⟩ := w'
  cases contexts with
  | nil => cases hlines
  | cons top outer =>
      obtain ⟨htop, houter⟩ : top.startLine = f.startLine ∧
          outer.map (·.startLine) = w.contexts.map (·.startLine) := List.cons.inj hlines
      have horder : top.startLine ≤ v.lineOf t.label.stopRow := by
        rw [htop, hline, lineOf, lineOf]
        omega
      obtain ⟨r, hrecord, hreport⟩ : ∃ r,
          top.sketch.finish v.file top.startLine (v.lineOf t.label.stopRow) v.limits = some r ∧
            v.Reports ⟨above, t⟩ r := by
        rw [hlimits]
        exact ⟨_, top.sketch.finish_of_le v.file horder, rfl, htop.trans hline, rfl⟩
      constructor
      · cases outer <;> exact houter
      · refine ⟨rs ++ [r], ?_, ?_⟩
        · have hclose : (v.close t ⟨top :: outer, callees, typeDepth, found⟩).found = found ++
              (top.sketch.finish v.file top.startLine (v.lineOf t.label.stopRow)
                v.limits).toList := rfl
          rw [hclose, hrecord, ← List.append_assoc]
          exact congrArg (· ++ [r]) hfound
        · rw [List.filter_append, List.filter_cons_of_pos hshows, List.filter_nil]
          exact List.rel_append hreports (.cons hreport .nil)

end

/-- A function that is entered has its children where they are visited. -/
theorem Below.body (h : v.Below above w) (hlanguage : v.grammar = .python ∨ v.grammar = .javaScript)
    {t : SyntaxTree} (hcomment : v.grammar.isComment t = false)
    (hfunction : v.grammar.isFunction t = true) (f : OpenFunction) :
    v.Below (t :: above) { w with contexts := f :: w.contexts } := by
  constructor
  · rw [List.any_cons, hfunction]
    rfl
  · rw [List.any_cons, hcomment, h.comments, Bool.or_false]
  · obtain ⟨-, -, -, -, hatomic, hidle⟩ := Grammar.eq_false_of_isFunction hlanguage hfunction
    rw [Grammar.hides, hatomic, hidle, h.hides]
    rfl

mutual

/-- Walking through a tree finds the functions in it that are visited. -/
theorem finds_visit (hlanguage : v.grammar = .python ∨ v.grammar = .javaScript)
    (hlimits : v.limits = {}) : ∀ (t : SyntaxTree) {w : Walk} {above : List SyntaxTree},
      (∀ n ∈ t.preorder, v.grammar.isFunction n → n.label.startRow ≤ n.label.stopRow) →
        v.Below above w → v.Finds (t.places above) w (v.visit w t)
  | .node label children, w, above, hrows, h => by
      have hchildren (w' : Walk) (hbelow : v.Below (.node label children :: above) w') :=
        finds_visitAll hlanguage hlimits children
          (fun n hn => hrows n (by simp [SyntaxTree.preorder, hn])) hbelow
      rw [visit, places]
      cases hfunction : v.grammar.isFunction (.node label children) with
      | true =>
          obtain ⟨hcomment, htype, -⟩ := Grammar.eq_false_of_isFunction hlanguage hfunction
          have hshows : v.grammar.shows ⟨above, .node label children⟩ = true := by
            simp [Grammar.shows, hfunction, h.comments, h.hides]
          simp only [enter, leave, hcomment, hfunction, htype, ↓reduceIte, Bool.false_eq_true]
          exact finds_close hlimits hshows
            (hrows (.node label children) (by simp [SyntaxTree.preorder]) hfunction) rfl
            (hchildren _ (h.body hlanguage hcomment hfunction _))
      | false =>
          have henter := finds_enter hfunction w
          have hself : [(⟨above, .node label children⟩ : Place)].filter v.grammar.shows = [] := by
            rw [List.filter_singleton, Grammar.shows, hfunction]
            rfl
          have hleave (w' : Walk) :
              v.Finds [⟨above, .node label children⟩] w' (v.leave (.node label children) w') := by
            obtain ⟨hcontexts, hfound⟩ := leave_of_not_isFunction hfunction w'
            exact .of_eq_nil (by rw [hcontexts]) hfound hself
          cases hdescends : (v.enter (.node label children) w).1 with
          | true =>
              exact (henter.trans (hchildren _ (h.enter hfunction hdescends))).trans (hleave _)
          | false =>
              have hskipped := h.filter_children hfunction hdescends
              have hnone : v.Finds (placesAll (.node label children :: above) children)
                  (v.enter (.node label children) w).2 (v.enter (.node label children) w).2 :=
                .of_eq_nil rfl rfl hskipped
              exact (henter.trans hnone).trans (hleave _)

theorem finds_visitAll (hlanguage : v.grammar = .python ∨ v.grammar = .javaScript)
    (hlimits : v.limits = {}) : ∀ (ts : List SyntaxTree) {w : Walk} {above : List SyntaxTree},
      (∀ n ∈ preorderAll ts, v.grammar.isFunction n → n.label.startRow ≤ n.label.stopRow) →
        v.Below above w → v.Finds (placesAll above ts) w (v.visitAll w ts)
  | [], w, above, hrows, h => .of_eq_nil rfl rfl rfl
  | t :: more, w, above, hrows, h => by
      have hfirst := finds_visit hlanguage hlimits t
        (fun n hn => hrows n (by simp [preorderAll, hn])) h
      have hbelow : v.Below above (v.visit w t) :=
        ⟨hfirst.isEmpty.trans h.contexts, h.comments, h.hides⟩
      rw [visitAll, placesAll]
      exact hfirst.trans (finds_visitAll hlanguage hlimits more
        (fun n hn => hrows n (by simp [preorderAll, hn])) hbelow)

end

/-- Without thresholds the functions that are visited are reported, each once and in the order
in which they end. All functions outside comments are reported if and only if none of them
stands in a literal inside a function. -/
theorem reports_functionPlaces (v : Survey) (t : SyntaxTree)
    (hlanguage : v.grammar = .python ∨ v.grammar = .javaScript) (hlimits : v.limits = {})
    (hrows : ∀ n ∈ t.preorder, v.grammar.isFunction n → n.label.startRow ≤ n.label.stopRow) :
    List.Forall₂ v.Reports
        ((v.grammar.functionPlaces t).filter fun p => !v.grammar.hides p.above) (v.run t) ∧
      ((v.run t).length = (v.grammar.functionPlaces t).length ↔
        ∀ p ∈ v.grammar.functionPlaces t, v.grammar.hides p.above = false) := by
  have hstart : v.Below [] {} := ⟨rfl, rfl, rfl⟩
  obtain ⟨-, rs, hfound, hreports⟩ := finds_visit hlanguage hlimits t hrows hstart
  obtain rfl : rs = v.run t := hfound.symm
  rw [← Grammar.filter_functionPlaces] at hreports
  refine ⟨hreports, ?_⟩
  rw [← hreports.length_eq, List.length_filter_eq_length_iff]
  simp only [Bool.not_eq_true']

theorem reports_nestedTree :
    let v : Survey := { grammar := .python, source := nestedSource, file := "f.py" }
    (∀ n ∈ nestedTree.preorder, n.label.startRow ≤ n.label.stopRow) ∧
      (v.grammar.functionPlaces nestedTree).map (fun p => (p.node.label.id, p.above.length)) =
        [(14, 3), (1, 1)] ∧
      List.Forall₂ v.Reports (v.grammar.functionPlaces nestedTree) (v.run nestedTree) ∧
      (v.run nestedTree).length = 2 := by
  intro v
  have hrows : ∀ n ∈ nestedTree.preorder, n.label.startRow ≤ n.label.stopRow := by decide
  have hvisited : ∀ p ∈ v.grammar.functionPlaces nestedTree, v.grammar.hides p.above = false := by
    decide
  obtain ⟨hreports, hlength⟩ :=
    v.reports_functionPlaces nestedTree (.inl rfl) rfl fun n hn _ => hrows n hn
  rw [List.filter_eq_self.2 fun p hp => by rw [hvisited p hp]; rfl] at hreports
  exact ⟨hrows, by decide, hreports, hlength.2 hvisited⟩

/-- A function with another one in a template string. -/
def templateSource : Text :=
  "function f() \x7b return \x60t $\x7bg(x)\x7d $\x7b(() => 1)()\x7d u\x60; \x7d\n".toList

def templateTree : SyntaxTree :=
  let node := SyntaxTree.spanning templateSource
  let word := SyntaxTree.fixed templateSource
  node 0 "program" 0 54
    [node 1 "function_declaration" 0 53
       [word 2 "function" 0 8, .filling "name" (node 3 "identifier" 9 10 []),
        .filling "parameters" (node 4 "formal_parameters" 10 12
          [word 5 "(" 10 11, word 6 ")" 11 12]),
        .filling "body" (node 7 "statement_block" 13 53
          [word 8 "\x7b" 13 14,
           node 9 "return_statement" 15 51
             [word 10 "return" 15 21,
              node 11 "template_string" 22 50
                [word 12 "\x60" 22 23, node 13 "string_fragment" 23 25 [],
                 node 14 "template_substitution" 25 32
                   [word 15 "$\x7b" 25 27,
                    node 16 "call_expression" 27 31
                      [.filling "function" (node 17 "identifier" 27 28 []),
                       .filling "arguments" (node 18 "arguments" 28 31
                         [word 19 "(" 28 29, node 20 "identifier" 29 30 [],
                          word 21 ")" 30 31])],
                    word 22 "\x7d" 31 32],
                 node 23 "string_fragment" 32 33 [],
                 node 24 "template_substitution" 33 47
                   [word 25 "$\x7b" 33 35,
                    node 26 "call_expression" 35 46
                      [.filling "function" (node 27 "parenthesized_expression" 35 44
                         [word 28 "(" 35 36,
                          node 29 "arrow_function" 36 43
                            [.filling "parameters" (node 30 "formal_parameters" 36 38
                               [word 31 "(" 36 37, word 32 ")" 37 38]),
                             word 33 "=>" 39 41, .filling "body" (node 34 "number" 42 43 [])],
                          word 35 ")" 43 44]),
                       .filling "arguments" (node 36 "arguments" 44 46
                         [word 37 "(" 44 45, word 38 ")" 45 46])],
                    word 39 "\x7d" 46 47],
                 node 40 "string_fragment" 47 49 [], word 41 "\x60" 49 50],
              word 42 ";" 50 51],
           word 43 "\x7d" 52 53])]]

/-- The template string is one token of the function around it. -/
theorem not_reported_in_template :
    let v : Survey := { grammar := .javaScript, source := templateSource, file := "m.js" }
    (templateTree.preorder.map (·.label.id)).Nodup ∧
      (∀ n ∈ templateTree.preorder, n.label.hasError = false ∧ n.label.start ≤ n.label.stop ∧
        n.label.startRow ≤ n.label.stopRow) ∧
      (v.grammar.functionPlaces templateTree).map (fun p => p.node.label.id) = [29, 1] ∧
      (v.run templateTree).map (fun r => (r.function, r.lineStart, r.lineEnd)) = [("f", 1, 1)] := by
  intro v
  exact ⟨by decide, by decide, by decide, by decide +kernel⟩

end Survey

end ClonePrint
