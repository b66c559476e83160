import ClonePrint.Sketch
import ClonePrint.Syntax.Grammar

/-!
# Surveying a syntax tree

A survey walks through a tree and sketches every function in it. Tokens go to
the innermost open function; identifiers go in as placeholders unless they stand
in a type. When a function is left it is reported, and the function around it
receives a single placeholder.
-/
namespace ClonePrint

/-- What a survey looks at and how. -/
structure Survey where
  grammar : Grammar
  source : Text
  file : String
  limits : Thresholds := {}
  lineOffset : Nat := 0

/-- A survey between two nodes: the open functions, innermost first, the nodes that name what some
call entered so far calls, and how many types the walk is inside of. -/
structure Walk where
  contexts : List OpenFunction := []
  callees : List Nat := []
  typeDepth : Nat := 0
  found : List Fingerprint := []
deriving Repr, DecidableEq

namespace Survey

/-- The line of the file that a row of the source is on. Lines are words of 32 bits, so this is
meant for rows whose line is below 2 ^ 32. -/
def lineOf (v : Survey) (row : Nat) : Nat := row + 1 + v.lineOffset

/-- The text of a node, or nothing if its range does not fit the source. -/
def textOf (v : Survey) (t : SyntaxTree) : Text :=
  (Text.slice? t.label.start t.label.stop v.source).getD []

def addToken (v : Survey) (t : SyntaxTree) (isCallee inType : Bool) (f : OpenFunction) :
    OpenFunction :=
  let sketch :=
    if !v.grammar.isIdentifier t then f.sketch.push (v.textOf t)
    else if f.isNameSlot t.label.id then (f.sketch.setName (v.textOf t)).mark .ownName
    else if isCallee then f.sketch.mark .callee
    else if inType then f.sketch.push (v.textOf t)
    else f.sketch.mark .other
  { f with sketch }

/-- Add a token to the innermost open function. -/
def emit (v : Survey) (t : SyntaxTree) (w : Walk) : Walk :=
  match w.contexts with
  | [] => w
  | f :: outer =>
      { w with
        contexts := v.addToken t (w.callees.contains t.label.id) (w.typeDepth != 0) f :: outer }

def noteNode (v : Survey) (t : SyntaxTree) (w : Walk) : Walk :=
  let w := if v.grammar.isType t then { w with typeDepth := w.typeDepth + 1 } else w
  if v.grammar.isCall t then
    match v.grammar.callee? t with
    | some callee => { w with callees := callee.label.id :: w.callees }
    | none => w
  else w

/-- Enter a node. The answer tells whether its children are visited. -/
def enter (v : Survey) (t : SyntaxTree) (w : Walk) : Bool × Walk :=
  if v.grammar.isComment t then (false, w)
  else if v.grammar.isFunction t then
    let opened : OpenFunction :=
      { startLine := v.lineOf t.label.startRow
        nameNode := (v.grammar.functionName? t).map (·.label.id) }
    (true, { w with contexts := opened :: w.contexts })
  else
    let w := v.noteNode t w
    if w.contexts.isEmpty then (true, w)
    else if v.grammar.isIdleLiteral t then (false, w)
    else if v.grammar.isAtomic t || t.children.isEmpty then (false, v.emit t w)
    else (true, w)

/-- Leave a function: report it and put a placeholder into the one around it. -/
def close (v : Survey) (t : SyntaxTree) (w : Walk) : Walk :=
  match w.contexts with
  | [] => w
  | f :: outer =>
      { w with
        contexts := match outer with
          | [] => []
          | g :: more => { g with sketch := g.sketch.mark .nested } :: more
        found := w.found ++
          (f.sketch.finish v.file f.startLine (v.lineOf t.label.stopRow) v.limits).toList }

/-- Leave a node, whether or not its children were visited. -/
def leave (v : Survey) (t : SyntaxTree) (w : Walk) : Walk :=
  let w := if v.grammar.isType t then { w with typeDepth := w.typeDepth - 1 } else w
  if v.grammar.isFunction t then v.close t w else w

mutual

def visit (v : Survey) (w : Walk) : SyntaxTree → Walk
  | .node label children =>
      let entered := v.enter (.node label children) w
      v.leave (.node label children)
        (if entered.1 then visitAll v entered.2 children else entered.2)

def visitAll (v : Survey) (w : Walk) : List SyntaxTree → Walk
  | [] => w
  | t :: more => visitAll v (visit v w t) more

end

/-- The functions of a tree, in the order in which they end. -/
def run (v : Survey) (t : SyntaxTree) : List Fingerprint := (v.visit {} t).found

end Survey

end ClonePrint
