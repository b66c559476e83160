import ClonePrint.Proofs.Counterparts

/-!
# The name of a function

The name of a function is taken from the child that holds it, if this child is an identifier.
Then nothing of it reaches the body: two sources that differ in the name only have the same
digest. Any other child in its place, such as a string, is read as part of the body, and the
function has no name.
-/
namespace ClonePrint

namespace SyntaxTree

/-- Two trees that are apart nowhere have the same shape throughout. -/
def nowhere (_ _ : SyntaxTree) : Bool := false

theorem swaps_nowhere (g : Grammar) : g.Swaps nowhere := by
  constructor <;> intros <;> contradiction

theorem preorder_sublist {n t : SyntaxTree} (h : n ∈ t.preorder) :
    n.preorder.Sublist t.preorder := by
  induction t using forest_induction with
  | node label children ih =>
      rw [preorder, List.mem_cons, preorderAll_eq_flatMap] at h
      rcases h with rfl | h
      · exact List.Sublist.refl _
      · obtain ⟨c, hc, hn⟩ := List.mem_flatMap.1 h
        rw [preorder, preorderAll_eq_flatMap]
        exact ((ih c hc hn).trans (List.infix_flatMap_of_mem hc _).sublist).cons _

end SyntaxTree

open SyntaxTree

namespace Grammar

variable {g : Grammar} {c : SyntaxTree}

/-- An identifier is of no other sort. -/
theorem eq_false_of_isIdentifier (h : g = .python ∨ g = .javaScript)
    (hc : g.isIdentifier c = true) : g.isComment c = false ∧ g.isFunction c = false ∧
      g.isAtomic c = false ∧ g.isIdleLiteral c = false := by
  rcases h with rfl | rfl
  · have hkind : c.kind = "identifier" := by simpa [python] using hc
    simp [python, isPythonString, hkind]
  · simp only [javaScript, List.contains_iff_mem] at hc
    have hother (kind : String) (hkind : kind ∉ javaScriptIdentifiers) : c.kind ≠ kind := by
      rintro rfl
      exact hkind hc
    have hfunctions : c.kind ∉ javaScriptFunctions := by
      intro hfunction
      have hapart : ∀ kind ∈ javaScriptFunctions, kind ∉ javaScriptIdentifiers := by decide
      exact hapart c.kind hfunction hc
    simp [javaScript, hfunctions, hother "comment" (by decide), hother "html_comment" (by decide),
      hother "string" (by decide), hother "template_string" (by decide),
      hother "regex" (by decide)]

end Grammar

namespace Survey

variable {v w : Survey} {s : Scene} {c n : SyntaxTree} {x : FunctionSite}

/-- A token that holds the name of the function around it is noted. -/
theorem named_mem_tracesAll {ts : List SyntaxTree}
    (hlanguage : v.grammar = .python ∨ v.grammar = .javaScript) (hc : c ∈ ts)
    (hidentifier : v.grammar.isIdentifier c = true) (hleaf : c.children = [])
    (hown : s.isOwnName v.grammar c = true) : .named (v.textOf c) ∈ v.tracesAll s ts := by
  induction ts generalizing s with
  | nil => cases hc
  | cons t more ih =>
      rw [tracesAll, List.mem_append]
      rcases List.mem_cons.1 hc with rfl | hc
      · left
        obtain ⟨label, children⟩ := c
        obtain rfl : children = [] := hleaf
        obtain ⟨hcomment, hfunction, -, hidle⟩ :=
          Grammar.eq_false_of_isIdentifier hlanguage hidentifier
        simp [traces, hcomment, hfunction, hidle, trace, hidentifier, hown]
      · exact .inr (ih hc hown)

/-- In a function the child in its name field is its own name. -/
theorem isOwnName_below (hlanguage : v.grammar = .python ∨ v.grammar = .javaScript)
    (hfunction : v.grammar.isFunction x.node = true) (hc : x.node.child? "name" = some c)
    (n : SyntaxTree) : (x.scene.below v.grammar x.node).isOwnName v.grammar n =
      (c.label.id == n.label.id) := by
  rw [Scene.isOwnName, Scene.below, if_pos hfunction, Option.bind_some,
    Grammar.functionName?_eq hlanguage, hc, Option.any_some]

/-- The name of a function is the text of the child that holds it, if that is an identifier with
nothing below it. -/
theorem findSome?_content (hlanguage : v.grammar = .python ∨ v.grammar = .javaScript)
    (hids : ((preorderAll x.node.children).map (·.label.id)).Nodup)
    (hfunction : v.grammar.isFunction x.node = true) (hc : x.node.child? "name" = some c) :
    ((v.content x).findSome? Trace.name?).getD [] =
      if v.grammar.isIdentifier c && c.children.isEmpty then v.textOf c else [] := by
  have hchild : c ∈ x.node.children := mem_children_of_child? hc
  have hown := isOwnName_below hlanguage hfunction hc
  -- Every name that is noted is the text of the child.
  have hnoted {name : Text} (h : .named name ∈ v.content x) :
      (v.grammar.isIdentifier c && c.children.isEmpty) = true ∧ name = v.textOf c := by
    obtain ⟨n, hn, hname, hidentifier, htoken, rfl⟩ := exists_of_named_mem_tracesAll _ h
    rw [hown, beq_iff_eq] at hname
    obtain rfl : c = n :=
      List.inj_on_of_nodup_map hids (mem_preorderAll_of_mem hchild) hn hname
    rw [(Grammar.eq_false_of_isIdentifier hlanguage hidentifier).2.2.1, Bool.false_or] at htoken
    exact ⟨by rw [hidentifier, htoken, Bool.and_self], rfl⟩
  cases hfound : (v.content x).findSome? Trace.name? with
  | none =>
      rw [if_neg]
      · rfl
      · intro hheld
        rw [Bool.and_eq_true, List.isEmpty_iff] at hheld
        have hmem := named_mem_tracesAll hlanguage hchild hheld.1 hheld.2
          ((hown c).trans (beq_self_eq_true _))
        have hnone := List.findSome?_eq_none_iff.1 hfound _ hmem
        cases hnone
  | some name =>
      obtain ⟨trace, htrace, hname⟩ := List.exists_of_findSome?_eq_some hfound
      cases trace with
      | kept _ | marked _ => cases hname
      | named _ =>
          obtain rfl := Option.some.inj hname
          obtain ⟨hheld, htext⟩ := hnoted htrace
          rw [if_pos hheld]
          exact htext

theorem bodyOf_eq_of_like {as bs : List Trace}
    (h : List.Forall₂
      (Trace.Like (fun a b => Text.stripBlanks a = Text.stripBlanks b) fun _ _ => True) as bs) :
    bodyOf as = bodyOf bs := by
  induction h with
  | nil => rfl
  | @cons a b as bs hab hmore ih =>
      have hfirst : bodyOf [a] = bodyOf [b] := by
        cases hab with
        | kept htext => simpa [bodyOf, Trace.text] using htext
        | marked p => rfl
        | named _ => rfl
      rw [← List.singleton_append, bodyOf_append, hfirst, ih, ← bodyOf_append,
        List.singleton_append]

theorem exists_of_mem_left {α β : Type} {R : α → β → Prop} {as : List α} {bs : List β} {a : α}
    (h : List.Forall₂ R as bs) (ha : a ∈ as) : ∃ b ∈ bs, R a b := by
  induction h with
  | nil => cases ha
  | @cons a' b as bs hab hmore ih =>
      rcases List.mem_cons.1 ha with rfl | ha
      · exact ⟨b, List.mem_cons_self, hab⟩
      · obtain ⟨b', hb', hab'⟩ := ih ha
        exact ⟨b', List.mem_cons_of_mem _ hb', hab'⟩

/-- In a tree of the same shape a function has a counterpart, and so has everything in it. -/
theorem exists_matches (hlanguage : v.grammar = .python ∨ v.grammar = .javaScript)
    {a b : SyntaxTree} (ha : (a.preorder.map (·.label.id)).Nodup)
    (hb : (b.preorder.map (·.label.id)).Nodup) (hshape : sameShape nowhere a b = true)
    (hx : x ∈ v.grammar.functions {} a) :
    ∃ y ∈ v.grammar.functions {} b,
      FunctionSite.Matches v.grammar nowhere (pairs nowhere a b) x y := by
  have hagree := Grammar.agree_functions (swaps_nowhere v.grammar) hlanguage a b
    (Scene.parallels_start hshape ha hb)
  exact exists_of_mem_left (hagree.forall₂ (fun _ hinner => hinner.eq_nil fun _ _ => rfl)
    fun _ hinner => hinner.eq_nil fun _ _ => rfl) hx

theorem mem_run {a : SyntaxTree} {r : Fingerprint}
    (hlanguage : v.grammar = .python ∨ v.grammar = .javaScript)
    (ha : (a.preorder.map (·.label.id)).Nodup) (hx : x ∈ v.grammar.functions {} a)
    (hr : v.record? x = some r) : r ∈ v.run a := by
  rw [found_eq_filterMap hlanguage ha]
  exact List.mem_filterMap.2 ⟨x, hx, hr⟩

theorem of_record? {r : Fingerprint} (h : v.record? x = some r) :
    r.hash = Digest.ofText (bodyOf (v.content x)) ∧
      r.function = String.ofList (((v.content x).findSome? Trace.name?).getD []) := by
  rw [record?] at h
  simp only [Option.ite_none_right_eq_some, Option.some.injEq] at h
  rw [← h.2]
  exact ⟨rfl, rfl⟩

/-- Sources that differ in the name of a function only leave like traces in it, since the name
leaves a placeholder. -/
theorem like_content_of_named (hlanguage : v.grammar = .python ∨ v.grammar = .javaScript)
    (hgrammar : w.grammar = v.grammar)
    (hids : ((preorderAll x.node.children).map (·.label.id)).Nodup)
    (hfunction : v.grammar.isFunction x.node = true) (hc : x.node.child? "name" = some c)
    (hidentifier : v.grammar.isIdentifier c = true) {ps : List (SyntaxTree × SyntaxTree)}
    {y : FunctionSite} (hmatch : FunctionSite.Matches v.grammar nowhere ps x y)
    (htext : ∀ p ∈ ps, p.1.label.id ≠ c.label.id → v.isToken p.1 = true →
      Text.stripBlanks (v.textOf p.1) = Text.stripBlanks (w.textOf p.2)) :
    List.Forall₂ (Trace.Like (fun a b => Text.stripBlanks a = Text.stripBlanks b) fun _ _ => True)
      (v.content x) (w.content y) := by
  apply like_content (swaps_nowhere v.grammar) hlanguage hgrammar (fun _ _ _ => trivial) hmatch
  intro p hp _ htoken
  by_cases hname : p.1.label.id = c.label.id
  · right
    have hbelow : p.1 ∈ preorderAll x.node.children :=
      (pairsAll_sublist _ _).1.subset (List.mem_map_of_mem hp)
    obtain rfl : p.1 = c := List.inj_on_of_nodup_map hids hbelow
      (mem_preorderAll_of_mem (mem_children_of_child? hc)) hname
    refine ⟨hidentifier, ?_, trivial⟩
    rw [isOwnName_below hlanguage hfunction hc, beq_self_eq_true]
  · exact .inl (htext p (hmatch.children_subset hp) hname htoken)

/-- The record of a function has the text of the child that holds its name, if this is an
identifier with nothing below it, and no name otherwise. A source that differs in the text of
such an identifier only gives the function the same digest. -/
theorem own_name_stays_out {v : Survey} {a : SyntaxTree} {x : FunctionSite} {c : SyntaxTree}
    {r : Fingerprint} (hlanguage : v.grammar = .python ∨ v.grammar = .javaScript)
    (ha : (a.preorder.map (·.label.id)).Nodup) (hx : x ∈ v.grammar.functions {} a)
    (hc : x.node.child? "name" = some c) (hr : v.record? x = some r) :
    r ∈ v.run a ∧
      r.function = String.ofList
        (if v.grammar.isIdentifier c && c.children.isEmpty then v.textOf c else []) ∧
      (v.grammar.isIdentifier c = true →
        ∀ (w : Survey) (b : SyntaxTree), w.grammar = v.grammar →
          (b.preorder.map (·.label.id)).Nodup → sameShape nowhere a b = true →
          (∀ p ∈ pairs nowhere a b, p.1.label.id ≠ c.label.id → v.isToken p.1 = true →
            Text.stripBlanks (v.textOf p.1) = Text.stripBlanks (w.textOf p.2)) →
          ∃ y ∈ w.grammar.functions {} b, (x.node, y.node) ∈ pairs nowhere a b ∧
            ∀ r', w.record? y = some r' → r' ∈ w.run b ∧ r'.hash = r.hash) := by
  obtain ⟨hplace, -, hfunction⟩ := Grammar.of_mem_functions a hx
  have hids : ((preorderAll x.node.children).map (·.label.id)).Nodup := by
    have hnodup := ha.sublist ((preorder_sublist hplace).map _)
    obtain ⟨s, label, children⟩ := x
    rw [preorder, List.map_cons, List.nodup_cons] at hnodup
    exact hnodup.2
  refine ⟨mem_run hlanguage ha hx hr, ?_, fun hidentifier w b hgrammar hb hshape htext => ?_⟩
  · rw [(of_record? hr).2, findSome?_content hlanguage hids hfunction hc]
  · obtain ⟨y, hy, hmatch⟩ := exists_matches hlanguage ha hb hshape hx
    refine ⟨y, hgrammar ▸ hy, hmatch.listed (mem_pairs_self _ _), fun r' hr' => ?_⟩
    have hlike :=
      like_content_of_named hlanguage hgrammar hids hfunction hc hidentifier hmatch htext
    have hlanguage' : w.grammar = .python ∨ w.grammar = .javaScript := hgrammar ▸ hlanguage
    refine ⟨mem_run hlanguage' hb (hgrammar ▸ hy) hr', ?_⟩
    rw [(of_record? hr).1, (of_record? hr').1, bodyOf_eq_of_like hlike]

/-- An object with one method, whose name is five characters long. -/
def methodSource (name : String) : Text :=
  "const o = \x7b ".toList ++ name.toList ++ "() \x7b\x7d \x7d;\n".toList

def methodSurvey (name : String) : Survey where
  grammar := .javaScript
  source := methodSource name
  file := "m.js"

def methodTree (name : String) (holder : SyntaxTree) : SyntaxTree :=
  let node := SyntaxTree.spanning (methodSource name)
  let word := SyntaxTree.fixed (methodSource name)
  node 0 "program" 0 26
    [node 1 "lexical_declaration" 0 25
      [.filling "kind" (word 2 "const" 0 5),
       node 3 "variable_declarator" 6 24
        [.filling "name" (node 4 "identifier" 6 7 []), word 5 "=" 8 9,
         .filling "value" (node 6 "object" 10 24
          [word 7 "\x7b" 10 11,
           node 8 "method_definition" 12 22
            [.filling "name" holder,
             .filling "parameters" (node 13 "formal_parameters" 17 19
              [word 14 "(" 17 18, word 15 ")" 18 19]),
             .filling "body" (node 16 "statement_block" 20 22
              [word 17 "\x7b" 20 21, word 18 "\x7d" 21 22])],
           word 19 "\x7d" 23 24])],
       word 20 ";" 24 25]]

/-- The tree of a method that is named by an identifier. -/
def identifierTree (name : String) : SyntaxTree :=
  methodTree name (.spanning (methodSource name) 9 "property_identifier" 12 17 [])

/-- The tree of a method that is named by a string. -/
def stringTree (name : String) : SyntaxTree :=
  methodTree name (.spanning (methodSource name) 9 "string" 12 17
    [.fixed (methodSource name) 10 "'" 12 13,
     .spanning (methodSource name) 11 "string_fragment" 13 16 [],
     .fixed (methodSource name) 12 "'" 16 17])

theorem own_name_of_method :
    let v := methodSurvey "query"
    let w := methodSurvey "other"
    let a := identifierTree "query"
    let b := identifierTree "other"
    ∃ x c r, (a.preorder.map (·.label.id)).Nodup ∧ x ∈ v.grammar.functions {} a ∧
      x.node.child? "name" = some c ∧ v.record? x = some r ∧
        v.grammar.isIdentifier c = true ∧ c.children = [] ∧
          (b.preorder.map (·.label.id)).Nodup ∧ sameShape nowhere a b = true ∧
            (∀ p ∈ pairs nowhere a b, p.1.label.id ≠ c.label.id → v.isToken p.1 = true →
              Text.stripBlanks (v.textOf p.1) = Text.stripBlanks (w.textOf p.2)) ∧
              r.function = "query" ∧ ∃ y ∈ w.grammar.functions {} b, ∃ r' ∈ w.run b,
                w.record? y = some r' ∧ r'.hash = r.hash := by
  intro v w a b
  have ha : (a.preorder.map (·.label.id)).Nodup := by decide
  have hb : (b.preorder.map (·.label.id)).Nodup := by decide
  have hshape : sameShape nowhere a b = true := by decide +kernel
  obtain ⟨x, hx⟩ := List.length_eq_one_iff.1
    (show (v.grammar.functions {} a).length = 1 by decide +kernel)
  have hname : (v.grammar.functions {} a).map (fun x => (x.node.child? "name").map fun c =>
      (c.label.id, v.grammar.isIdentifier c, c.children.isEmpty, v.textOf c)) =
        [some (9, true, true, "query".toList)] := by decide +kernel
  have hrecorded : (v.grammar.functions {} a).map (fun x => (v.record? x).isSome) = [true] := by
    decide +kernel
  have hrecorded' : (w.grammar.functions {} b).all (fun y => (w.record? y).isSome) = true := by
    decide +kernel
  have htext : ∀ p ∈ pairs nowhere a b, p.1.label.id ≠ 9 → v.isToken p.1 = true →
      Text.stripBlanks (v.textOf p.1) = Text.stripBlanks (w.textOf p.2) := by decide +kernel
  rw [hx, List.map_singleton, List.cons.injEq] at hname hrecorded
  obtain ⟨c, hc, hholder⟩ := Option.map_eq_some_iff.1 hname.1
  simp only [Prod.mk.injEq, List.isEmpty_iff] at hholder
  obtain ⟨hid, hidentifier, hleaf, hquery⟩ := hholder
  obtain ⟨r, hr⟩ := Option.isSome_iff_exists.1 hrecorded.1
  have hmem : x ∈ v.grammar.functions {} a := by rw [hx]; exact List.mem_singleton_self x
  rw [← hid] at htext
  obtain ⟨-, hfunction, hhash⟩ := own_name_stays_out (.inr rfl) ha hmem hc hr
  obtain ⟨y, hy, -, hrecord⟩ := hhash hidentifier w b rfl hb hshape htext
  obtain ⟨r', hr'⟩ := Option.isSome_iff_exists.1 (List.all_eq_true.1 hrecorded' y hy)
  obtain ⟨hrun, hsame⟩ := hrecord r' hr'
  rw [hidentifier, hleaf, hquery] at hfunction
  exact ⟨x, c, r, ha, hmem, hc, hr, hidentifier, hleaf, hb, hshape, htext, hfunction, y, hy, r',
    hrun, hr', hsame⟩

/-- A string in the place of the name is no name, and its text reaches the digest. -/
theorem string_name_in_hash :
    let v := methodSurvey "'q-r'"
    let w := methodSurvey "'r-q'"
    let a := stringTree "'q-r'"
    let b := stringTree "'r-q'"
    (a.preorder.map (·.label.id)).Nodup ∧ (b.preorder.map (·.label.id)).Nodup ∧
      sameShape nowhere a b = true ∧
      (∀ p ∈ pairs nowhere a b, p.1.label.id ∉ [9, 10, 11, 12] → p.1.children.isEmpty = true →
        v.textOf p.1 = w.textOf p.2) ∧
      (v.grammar.functions {} a).map (fun x => (x.node.child? "name").map fun c =>
        (c.label.id, v.textOf c)) = [some (9, "'q-r'".toList)] ∧
      (v.run a).map (·.function) = [""] ∧ (v.run a).map (·.hash) ≠ (w.run b).map (·.hash) := by
  intro v w a b
  exact ⟨by decide, by decide, by decide +kernel, by decide +kernel, by decide +kernel,
    by decide +kernel, by decide +kernel⟩

end Survey

end ClonePrint
