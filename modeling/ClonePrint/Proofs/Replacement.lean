import ClonePrint.Proofs.OwnName
import ClonePrint.Proofs.Splicing

/-!
# Replacing a function

A function that stands in other functions leaves a placeholder in the innermost one and nothing
else. So when it is replaced by another one, the functions outside it keep their bodies and their
names. This holds for syntax trees and for exports.
-/
namespace ClonePrint

namespace SyntaxTree

/-- Two nodes are the ones that stand in each other's place. -/
def replaced (f f' t u : SyntaxTree) : Bool := t.label == f.label && u.label == f'.label

end SyntaxTree

open SyntaxTree

theorem Grammar.isFunction_congr {g : Grammar} (hlanguage : g = .python ∨ g = .javaScript)
    {t u : SyntaxTree} (h : t.label = u.label) : g.isFunction t = g.isFunction u := by
  have hkind : t.kind = u.kind := congrArg SyntaxLabel.kind h
  rcases hlanguage with rfl | rfl
  · simp only [python, hkind]
  · simp only [javaScript, hkind, h]

namespace Survey

variable {v w : Survey} {a b f f' : SyntaxTree} {x y : FunctionSite}

/-- Two trees and their sources are the same, up to numbers and positions, except that in the
place of one function there is another one. -/
structure SameAround (v w : Survey) (a b f f' : SyntaxTree) : Prop where
  language : v.grammar = .python ∨ v.grammar = .javaScript
  grammar : w.grammar = v.grammar
  nodup : (a.preorder.map (·.label.id)).Nodup
  nodup' : (b.preorder.map (·.label.id)).Nodup
  isFunction : v.grammar.isFunction f = true
  isFunction' : v.grammar.isFunction f' = true
  field : f.label.field = f'.label.field
  named : f.label.named = f'.label.named
  place : (f, f') ∈ pairs (replaced f f') a b
  shape : sameShape (replaced f f') a b = true
  text : ∀ p ∈ pairs (replaced f f') a b, replaced f f' p.1 p.2 = false → v.isToken p.1 = true →
    v.textOf p.1 = w.textOf p.2

/-- Two functions have records about the same body and the same name, or neither has a record.
Only a function that ends before it starts has none. -/
def SameRecord (v w : Survey) (x y : FunctionSite) : Prop :=
  (x.node.label.startRow ≤ x.node.label.stopRow ↔ y.node.label.startRow ≤ y.node.label.stopRow) →
    Option.Rel Fingerprint.SameBody (v.record? x) (w.record? y)

theorem SameAround.swaps (h : v.SameAround w a b f f') : v.grammar.Swaps (replaced f f') := by
  have hlabel {t u : SyntaxTree} (hreplaced : replaced f f' t u = true) :
      t.label = f.label ∧ u.label = f'.label := by
    rwa [replaced, Bool.and_eq_true, beq_iff_eq, beq_iff_eq] at hreplaced
  constructor
  case id =>
    intro t u t' u' hreplaced hreplaced'
    rw [(hlabel hreplaced).1, (hlabel hreplaced).2, (hlabel hreplaced').1, (hlabel hreplaced').2]
    exact ⟨rfl, rfl⟩
  case isFunction =>
    intro t u hreplaced
    obtain ⟨ht, hu⟩ := hlabel hreplaced
    rw [Grammar.isFunction_congr h.language ht, Grammar.isFunction_congr h.language hu]
    exact ⟨h.isFunction, h.isFunction'⟩
  case field =>
    intro t u hreplaced
    rw [(hlabel hreplaced).1, (hlabel hreplaced).2, h.field]
  case named =>
    intro t u hreplaced
    rw [(hlabel hreplaced).1, (hlabel hreplaced).2, h.named]

/-- Only the two functions are replaced. -/
theorem SameAround.eq_of_replaced (h : v.SameAround w a b f f') {p : SyntaxTree × SyntaxTree}
    (hp : p ∈ pairs (replaced f f') a b) (hreplaced : replaced f f' p.1 p.2 = true) :
    p = (f, f') := by
  obtain ⟨hfst, hsnd⟩ := h.swaps.id hreplaced (show replaced f f' f f' = true by simp [replaced])
  have hsub : ((pairs (replaced f f') a b).map Prod.fst).Sublist a.preorder :=
    (pairs_sublist a b).1
  have hsub' : ((pairs (replaced f f') a b).map Prod.snd).Sublist b.preorder :=
    (pairs_sublist a b).2
  apply Prod.ext
  · exact List.inj_on_of_nodup_map h.nodup (hsub.subset (List.mem_map_of_mem hp))
      (hsub.subset (List.mem_map_of_mem h.place)) hfst
  · exact List.inj_on_of_nodup_map h.nodup' (hsub'.subset (List.mem_map_of_mem hp))
      (hsub'.subset (List.mem_map_of_mem h.place)) hsnd

/-- Counterparts hold the same. -/
theorem SameAround.content_eq (h : v.SameAround w a b f f')
    (hmatch : FunctionSite.Matches v.grammar (replaced f f') (pairs (replaced f f') a b) x y) :
    v.content x = w.content y := by
  have hlike : List.Forall₂ (Trace.Like Eq Eq) (v.content x) (w.content y) := by
    refine like_content h.swaps h.language h.grammar (fun _ _ => id) hmatch ?_
    intro p hp hkept htoken
    exact .inl (h.text p (hmatch.children_subset hp) hkept htoken)
  rw [← List.forall₂_eq_eq_eq]
  refine hlike.imp fun s t hst => ?_
  cases hst with
  | kept htext => rw [htext]
  | marked p => rfl
  | named hname => rw [hname]

/-- Without thresholds only the rows decide whether there is a record. -/
theorem isSome_record? (h : v.limits = {}) (x : FunctionSite) :
    (v.record? x).isSome = true ↔ x.node.label.startRow ≤ x.node.label.stopRow := by
  simp only [record?, h, Thresholds.admits]
  split <;> simp_all

theorem sameRecord_of_content_eq (hv : v.limits = {}) (hw : w.limits = {})
    (h : v.content x = w.content y) : v.SameRecord w x y := by
  intro hrows
  rw [← isSome_record? hv, ← isSome_record? hw] at hrows
  cases hr : v.record? x with
  | none =>
      cases hr' : w.record? y with
      | none => exact .none
      | some r' => simp [hr, hr'] at hrows
  | some r =>
      cases hr' : w.record? y with
      | none => simp [hr, hr'] at hrows
      | some r' =>
          obtain ⟨hhash, hname⟩ := of_record? hr
          obtain ⟨hhash', hname'⟩ := of_record? hr'
          refine .some ⟨?_, ?_⟩
          · rw [hhash, hhash', h]
          · rw [hname, hname', h]

/-- The functions outside the one that is replaced keep their records. -/
theorem SameAround.agreeAround (h : v.SameAround w a b f f') (hv : v.limits = {})
    (hw : w.limits = {}) :
    AgreeAround (fun x y => (x.node, y.node) ∈ pairs (replaced f f') a b ∧ v.SameRecord w x y)
      (∀ x ∈ ·, x.node ∈ f.preorder) (∀ y ∈ ·, y.node ∈ f'.preorder)
      (v.grammar.functions {} a) (w.grammar.functions {} b) := by
  rw [h.grammar]
  refine (Grammar.agree_functions h.swaps h.language a b
    (Scene.parallels_start h.shape h.nodup h.nodup')).imp ?_ ?_ ?_
  · exact fun x y hmatch => ⟨hmatch.listed (mem_pairs_self _ _),
      sameRecord_of_content_eq hv hw (h.content_eq hmatch)⟩
  · intro inner hinner x hx
    obtain ⟨p, hp, hreplaced, hmem⟩ := hinner x hx
    rw [h.eq_of_replaced hp hreplaced] at hmem
    exact hmem
  · intro inner hinner y hy
    obtain ⟨p, hp, hreplaced, hmem⟩ := hinner y hy
    rw [h.eq_of_replaced hp hreplaced] at hmem
    exact hmem

end Survey

/-- When a function is replaced by another one in a syntax tree, among the tags of an export or in
its text, the functions outside it keep their bodies and their names, whatever stands in the two
functions. -/
theorem replacement_stays_inside :
    (∀ (v w : Survey) (a b f f' : SyntaxTree), v.SameAround w a b f f' →
      v.limits = {} → w.limits = {} →
        v.run a = (v.grammar.functions {} a).filterMap v.record? ∧
          w.run b = (w.grammar.functions {} b).filterMap w.record? ∧
            AgreeAround
              (fun x y => (x.node, y.node) ∈ pairs (replaced f f') a b ∧ v.SameRecord w x y)
              (∀ x ∈ ·, x.node ∈ f.preorder) (∀ y ∈ ·, y.node ∈ f'.preorder)
              (v.grammar.functions {} a) (w.grammar.functions {} b)) ∧
    (∀ (e e' : FunctionExport) (file file' : String), e.SameAround e' →
      ∃ reading reading', Reading.ofExport? file {} e.text = some (.ok reading) ∧
        Reading.ofExport? file' {} e'.text = some (.ok reading') ∧
          reading.corruptions = reading'.corruptions ∧
            AgreeAround Fingerprint.SameBody (· = e.found file) (· = e'.found file')
              reading.found reading'.found) ∧
    ∀ (s : Surroundings) (f f' : WrittenFunction) (hs : s.IsOpen) (hf : f.IsBalanced)
        (hf' : f'.IsBalanced) (file file' : String),
      ∃ reading reading', Reading.ofExport? file {} (s.around f.text) = some (.ok reading) ∧
        Reading.ofExport? file' {} (s.around f'.text) = some (.ok reading') ∧
          reading.corruptions = reading'.corruptions ∧
            AgreeAround Fingerprint.SameBody (· = (s.toExport f hs hf).found file)
              (· = (s.toExport f' hs hf').found file') reading.found reading'.found := by
  refine ⟨?_, ?_, ?_⟩
  · intro v w a b f f' h hv hw
    have hlanguage' : w.grammar = .python ∨ w.grammar = .javaScript := by
      rw [h.grammar]
      exact h.language
    exact ⟨Survey.found_eq_filterMap h.language h.nodup,
      Survey.found_eq_filterMap hlanguage' h.nodup', h.agreeAround hv hw⟩
  · exact fun e e' file file' h => h.agreeAround file file'
  · exact fun s f f' hs hf hf' => Surroundings.agreeAround hs hf hf'

/-- A function with another one in it, which is called by name. -/
def keeperSource (inner : String) : Text :=
  "function f() \x7b const k = ".toList ++ inner.toList ++ "; return g(k); \x7d\n".toList

def keeperSurvey (inner : String) : Survey where
  grammar := .javaScript
  source := keeperSource inner
  file := "k.js"

def keeperTree (inner : String) (nested : SyntaxTree) : SyntaxTree :=
  let node := SyntaxTree.spanning (keeperSource inner)
  let word := SyntaxTree.fixed (keeperSource inner)
  let n := inner.toList.length
  node 0 "program" 0 (42 + n)
    [node 1 "function_declaration" 0 (41 + n)
      [word 2 "function" 0 8, .filling "name" (node 3 "identifier" 9 10 []),
       .filling "parameters" (node 4 "formal_parameters" 10 12
        [word 5 "(" 10 11, word 6 ")" 11 12]),
       .filling "body" (node 7 "statement_block" 13 (41 + n)
        [word 8 "\x7b" 13 14,
         node 9 "lexical_declaration" 15 (26 + n)
          [.filling "kind" (word 10 "const" 15 20),
           node 11 "variable_declarator" 21 (25 + n)
            [.filling "name" (node 12 "identifier" 21 22 []), word 13 "=" 23 24,
             nested],
           word 14 ";" (25 + n) (26 + n)],
         node 15 "return_statement" (27 + n) (39 + n)
          [word 16 "return" (27 + n) (33 + n),
           node 17 "call_expression" (34 + n) (38 + n)
            [.filling "function" (node 18 "identifier" (34 + n) (35 + n) []),
             .filling "arguments" (node 19 "arguments" (35 + n) (38 + n)
              [word 20 "(" (35 + n) (36 + n), node 21 "identifier" (36 + n) (37 + n) [],
               word 22 ")" (37 + n) (38 + n)])],
           word 23 ";" (38 + n) (39 + n)],
         word 24 "\x7d" (40 + n) (41 + n)])]]

/-- The nested function returns a number. -/
def numberFunction : SyntaxTree :=
  let node := SyntaxTree.spanning (keeperSource "() => 1")
  let word := SyntaxTree.fixed (keeperSource "() => 1")
  .filling "value" (node 25 "arrow_function" 25 32
    [.filling "parameters" (node 26 "formal_parameters" 25 27
      [word 27 "(" 25 26, word 28 ")" 26 27]),
     word 29 "=>" 28 30, .filling "body" (node 30 "number" 31 32 [])])

/-- The nested function calls its argument. -/
def callingFunction : SyntaxTree :=
  let node := SyntaxTree.spanning (keeperSource "g => g(1)")
  let word := SyntaxTree.fixed (keeperSource "g => g(1)")
  .filling "value" (node 25 "arrow_function" 25 34
    [.filling "parameter" (node 26 "identifier" 25 26 []), word 27 "=>" 27 29,
     .filling "body" (node 28 "call_expression" 30 34
      [.filling "function" (node 29 "identifier" 30 31 []),
       .filling "arguments" (node 30 "arguments" 31 34
        [word 31 "(" 31 32, node 32 "number" 32 33 [], word 33 ")" 33 34])])])

/-- A function with another one in it, behind a brace. -/
def keeper : Surroundings where
  declaration := .attributed [] "?xml".toList ' ' "version='1.0'?".toList true
  unit := .named [] "unit".toList true
  front := [.named [] "function".toList true, .named [] "name".toList true,
    .named ['f'] "/name".toList true, .named [] "block".toList true]
  before := "\x7b\n".toList
  back := "</block></function></unit>".toList

theorem isOpen_keeper : keeper.IsOpen := by
  constructor <;> decide

/-- It holds a number. -/
def numberWritten : WrittenFunction where
  opener := .named [] "function".toList true
  inner := [.named [] "name".toList true, .named ['g'] "/name".toList true,
    .named [] "block".toList true, .named ['1'] "/block".toList true]
  closer := .named [] "/function".toList true

theorem isBalanced_numberWritten : numberWritten.IsBalanced := by
  constructor
  case balanced => exact ⟨by decide, by decide, by decide⟩
  all_goals decide

/-- It holds a call and a function, and ends on a line of its own. -/
def callingWritten : WrittenFunction where
  opener := .named [] "function".toList true
  inner := [.named [] "name".toList true, .named ['h'] "/name".toList true,
    .named [] "call".toList true, .named [] "name".toList true, .named ['f'] "/name".toList true,
    .named [] "/call".toList true, .named [] "function".toList true,
    .named [] "/function".toList true]
  closer := .named ['\n'] "/function".toList true

theorem isBalanced_callingWritten : callingWritten.IsBalanced := by
  constructor
  case balanced => exact ⟨by decide, by decide, by decide⟩
  all_goals decide

def numberExport : FunctionExport :=
  keeper.toExport numberWritten isOpen_keeper isBalanced_numberWritten

def callingExport : FunctionExport :=
  keeper.toExport callingWritten isOpen_keeper isBalanced_callingWritten

theorem replacement_in_keeper :
    let v := keeperSurvey "() => 1"
    let w := keeperSurvey "g => g(1)"
    let a := keeperTree "() => 1" numberFunction
    let b := keeperTree "g => g(1)" callingFunction
    v.SameAround w a b numberFunction callingFunction ∧
      (v.run a).map (·.function) = ["", "f"] ∧
      AgreeAround
        (fun x y => (x.node, y.node) ∈ pairs (replaced numberFunction callingFunction) a b ∧
          v.SameRecord w x y)
        (∀ x ∈ ·, x.node ∈ numberFunction.preorder) (∀ y ∈ ·, y.node ∈ callingFunction.preorder)
        (v.grammar.functions {} a) (w.grammar.functions {} b) ∧
      numberExport.SameAround callingExport ∧
      (∃ reading reading',
        Reading.ofExport? "k.c" {} numberExport.text = some (.ok reading) ∧
          Reading.ofExport? "k.h" {} callingExport.text = some (.ok reading') ∧
            reading.corruptions = reading'.corruptions ∧
              AgreeAround Fingerprint.SameBody (· = numberExport.found "k.c")
                (· = callingExport.found "k.h") reading.found reading'.found) ∧
      keeper.IsOpen ∧ numberWritten.IsBalanced ∧ callingWritten.IsBalanced ∧
      ∃ reading reading',
        Reading.ofExport? "k.c" {} (keeper.around numberWritten.text) = some (.ok reading) ∧
          Reading.ofExport? "k.c" {} (keeper.around callingWritten.text) = some (.ok reading') ∧
            reading.found.map (·.function) = ["g", "f"] ∧
              reading'.found.map (·.function) = ["", "h", "f"] ∧
                AgreeAround Fingerprint.SameBody (· = numberExport.found "k.c")
                  (· = callingExport.found "k.c") reading.found reading'.found := by
  intro v w a b
  have htrees : v.SameAround w a b numberFunction callingFunction := by
    constructor
    case language => exact .inr rfl
    case grammar => rfl
    case nodup => decide
    case nodup' => decide
    case isFunction => decide
    case isFunction' => decide
    case field => rfl
    case named => rfl
    case place => exact List.mem_of_getElem? (i := 14) rfl
    case shape => decide +kernel
    case text => decide +kernel
  have hexports : numberExport.SameAround callingExport :=
    Surroundings.sameAround_toExport isOpen_keeper isBalanced_numberWritten
      isBalanced_callingWritten
  obtain ⟨htree, htags, htext⟩ := replacement_stays_inside
  obtain ⟨-, -, hagree⟩ := htree v w a b _ _ htrees rfl rfl
  obtain ⟨reading, reading', hread, hread', -, hagree'⟩ :=
    htext keeper numberWritten callingWritten isOpen_keeper isBalanced_numberWritten
      isBalanced_callingWritten "k.c" "k.c"
  have hnames : ((Reading.ofExport? "k.c" {} (keeper.around numberWritten.text)).map fun
      | .ok reading => reading.found.map Fingerprint.function
      | .error _ => []) = some ["g", "f"] := by decide +kernel
  have hnames' : ((Reading.ofExport? "k.c" {} (keeper.around callingWritten.text)).map fun
      | .ok reading => reading.found.map Fingerprint.function
      | .error _ => []) = some ["", "h", "f"] := by decide +kernel
  rw [hread] at hnames
  rw [hread'] at hnames'
  exact ⟨htrees, by decide +kernel, hagree, hexports, htags _ _ "k.c" "k.h" hexports,
    isOpen_keeper, isBalanced_numberWritten, isBalanced_callingWritten, reading, reading', hread, hread',
    Option.some.inj hnames, Option.some.inj hnames', hagree'⟩

end ClonePrint
