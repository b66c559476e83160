import ClonePrint.Sketch

/-!
# Trees of tags

The elements of an export are kept in a list, each with the position of its
parent and of its children. Nodes are appended in document order, so the subtree
of the element read last is a suffix of the list and can be dropped by cutting
the list short. Operations on a position outside the list have no answer.
-/
namespace ClonePrint

/-- One element, or one run of text if `text` is there. -/
structure TagNode where
  tag : Text
  attributes : Text := []
  text : Option Text := none
  children : List Nat := []
  parent : Option Nat := none
  line : Nat := 0
deriving Repr, DecidableEq

/-- The nodes in document order; the first one is the root. -/
structure TagTree where
  nodes : List TagNode := [{ tag := "unknown".toList }]
deriving Repr, DecidableEq

namespace TagTree

def root : Nat := 0

def node? (id : Nat) (t : TagTree) : Option TagNode := t.nodes[id]?

def size (t : TagTree) : Nat := t.nodes.length

/-- Only the root is left. -/
def isBare (t : TagTree) : Bool := t.nodes.length == 1

/-- Append a node below `parent`. The answer holds its position. -/
def append? (parent : Nat) (node : TagNode) (t : TagTree) : Option (Nat × TagTree) :=
  if parent < t.nodes.length then
    let id := t.nodes.length
    let linked := t.nodes.modify parent fun p => { p with children := p.children ++ [id] }
    some (id, ⟨linked ++ [{ node with parent := some parent }]⟩)
  else none

def element? (parent : Nat) (tag attributes : Text) (line : Nat) (t : TagTree) :
    Option (Nat × TagTree) :=
  t.append? parent { tag, attributes, line }

def leaf? (parent : Nat) (tag text : Text) (line : Nat) (t : TagTree) :
    Option (Nat × TagTree) :=
  t.append? parent { tag, text := some text, line }

/-- Append a run of text under the tag and line of the element around it. -/
def text? (parent : Nat) (text : Text) (t : TagTree) : Option (Nat × TagTree) :=
  (t.node? parent).bind fun p => t.leaf? parent p.tag text p.line

/-- Unlink a node from its parent and cut the list in front of it. The root
stays. -/
def detach? (id : Nat) (t : TagTree) : Option TagTree :=
  if id = root then some t
  else
    (t.node? id).map fun node =>
      let unlinked := match node.parent with
        | none => t.nodes
        | some parent =>
            t.nodes.modify parent fun p => { p with children := p.children.filter (· != id) }
      ⟨unlinked.take id⟩

def reset (t : TagTree) : TagTree :=
  ⟨(t.nodes.take 1).map fun node => { node with children := [] }⟩

/-- The positions of a subtree in document order, down to some depth. -/
def preorderWithin? (t : TagTree) : Nat → Nat → Option (List Nat)
  | 0, _ => none
  | depth + 1, id =>
      (t.node? id).bind fun node =>
        (node.children.mapM (preorderWithin? t depth)).map fun parts => id :: parts.flatten

/-- The positions of a subtree in document order. No path is longer than the
list. -/
def preorder? (id : Nat) (t : TagTree) : Option (List Nat) :=
  t.preorderWithin? (t.nodes.length + 1) id

/-- The first tag other than `skip` on the way up from a node, within a number
of steps. -/
def tagAbove (t : TagTree) (skip : Text) : Nat → Option Nat → Option Text
  | 0, _ | _, none => none
  | steps + 1, some id =>
      (t.node? id).bind fun node =>
        if node.tag = skip then tagAbove t skip steps node.parent else some node.tag

/-- The tag of the closest ancestor that is not tagged `skip`. The outer answer
is missing if the node is. -/
def ancestorTag? (id : Nat) (skip : Text) (t : TagTree) : Option (Option Text) :=
  (t.node? id).map fun node => t.tagAbove skip t.nodes.length node.parent

/-- Add a leaf to the sketch of the function around it. Text inside a name is
treated by the closest ancestor that is not a name: a type keeps it, a call and
the function itself turn it into their placeholders, everything else into the
general one. -/
def sketchLeaf (text : Text) (tag : Text) (above : Option Text) (s : Sketch) : Sketch :=
  if tag ≠ "name".toList then s.push text
  else if above = some "type".toList then s.push text
  else if above = some "call".toList then s.mark .callee
  else if above = some "function".toList then (s.setName text).mark .ownName
  else s.mark .other

/-- Add one node to the sketch. Only leaves with text leave a trace. -/
def sketchNode? (t : TagTree) (s : Sketch) (id : Nat) : Option Sketch :=
  (t.node? id).bind fun node =>
    match node.text with
    | none | some [] => some s
    | some text => (t.ancestorTag? id "name".toList).map fun above => sketchLeaf text node.tag above s

def sketch? (function : Nat) (t : TagTree) : Option Sketch :=
  (t.preorder? function).bind fun ids => ids.foldlM (sketchNode? t) {}

end TagTree

end ClonePrint
