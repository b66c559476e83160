import ClonePrint.Text

/-!
# Syntax trees

A front end turns a text into a syntax tree. Every node has a kind, a byte range
and possibly a field of its parent that it fills. Nodes that the grammar did not
expect are marked, and so is every node above them.
-/
namespace ClonePrint

/-- What a node says about itself. Its number tells it from all others of its tree, it is named if
it stands for a rule of the grammar, extra if it may stand anywhere, and missing if it was made up
where the grammar asked for one. -/
structure SyntaxLabel where
  id : Nat
  kind : String
  field : String := ""
  named : Bool := true
  extra : Bool := false
  isError : Bool := false
  missing : Bool := false
  hasError : Bool := false
  start : Nat
  stop : Nat
  startRow : Nat
  stopRow : Nat
deriving Repr, DecidableEq

/-- A node and the nodes below it, in source order. -/
inductive SyntaxTree where
  | node (label : SyntaxLabel) (children : List SyntaxTree)

namespace SyntaxTree

def label : SyntaxTree → SyntaxLabel
  | node label _ => label

def children : SyntaxTree → List SyntaxTree
  | node _ children => children

def kind (t : SyntaxTree) : String := t.label.kind

def namedChildren (t : SyntaxTree) : List SyntaxTree := t.children.filter (·.label.named)

/-- The first direct child that fills a field. -/
def child? (field : String) (t : SyntaxTree) : Option SyntaxTree :=
  t.children.find? (·.label.field == field)

mutual

/-- All nodes, each before those below it. -/
def preorder : SyntaxTree → List SyntaxTree
  | node label children => node label children :: preorderAll children

def preorderAll : List SyntaxTree → List SyntaxTree
  | [] => []
  | t :: more => preorder t ++ preorderAll more

end

/-- A node in a listing of a tree, with the number of its direct children. -/
structure Listed where
  label : SyntaxLabel
  childCount : Nat

/-- Take a number of trees off the front of a listing in preorder. -/
def takeForest : Nat → Nat → List Listed → Option (List SyntaxTree × List Listed)
  | _, 0, nodes => some ([], nodes)
  | 0, _ + 1, _ | _ + 1, _ + 1, [] => none
  | depth + 1, count + 1, n :: nodes =>
      (takeForest depth n.childCount nodes).bind fun below =>
        (takeForest depth count below.2).map fun beside =>
          (node n.label below.1 :: beside.1, beside.2)

/-- The tree that a complete listing in preorder describes. -/
def ofListing? (nodes : List Listed) : Option SyntaxTree :=
  match takeForest (nodes.length + 1) 1 nodes with
  | some ([tree], []) => some tree
  | _ => none

/-- The row of the first error or missing node, where only nodes that are
marked as holding one are searched. -/
def firstErrorRow? : SyntaxTree → Option Nat
  | node label children =>
      if label.isError || label.missing then some label.startRow
      else search children
where
  search : List SyntaxTree → Option Nat
    | [] => none
    | t :: more =>
        if t.label.hasError then
          match firstErrorRow? t with
          | some row => some row
          | none => search more
        else search more

/-- The offset from which a text that may end inside an item is held back: the
last top-level item, or the first broken one if that comes earlier. -/
def holdBackPoint (t : SyntaxTree) : Nat :=
  if t.label.isError then 0
  else
    let last := ((t.children.reverse.find? fun c => !c.label.extra).map (·.label.start)).getD 0
    match t.children.find? fun c => c.label.hasError || c.label.missing with
    | none => last
    | some broken => min broken.label.start last

/-- Where the top-level items of a clean tree start. A broken tree has no
dependable items. -/
def itemStarts? (t : SyntaxTree) : Option (List Nat) :=
  if t.label.hasError then none
  else some ((t.children.filter fun c => !c.label.extra).map (·.label.start))

end SyntaxTree

end ClonePrint
