import ClonePrint.Error
import ClonePrint.Export.Tag
import ClonePrint.Export.TagTree

/-!
# Reading functions from an export

A reader streams over the tags of an export and keeps only what lies inside
functions. A closing tag that fits ends its element; when it ends a function,
the function is reported, its subtree is dropped and a placeholder takes its
place in the function around it. A closing tag that does not fit costs the
functions that are open at that point and nothing else.

No state of a reader points outside its tree, so the answers below are always
there; they are optional because the operations on trees are.
-/
namespace ClonePrint

/-- What an export says about its file. A corruption is a closing tag that does not fit. -/
structure Reading where
  found : List Fingerprint := []
  corruptions : Nat := 0
deriving Repr, DecidableEq

/-- A reader between two tags. The current element is the innermost open one, and the depth counts
the open functions. The first unit tag, which sits on line one, stands behind `unitLine` line
breaks. -/
structure Reader where
  tree : TagTree := {}
  current : Nat := TagTree.root
  depth : Nat := 0
  unitLine : Option Nat := none
  reading : Reading := {}
deriving Repr, DecidableEq

namespace Reader

def inFunction (r : Reader) : Bool := r.depth != 0

/-- The source line that a number of line breaks leads to. -/
def sourceLine (breaks : Nat) (r : Reader) : Nat :=
  match r.unitLine with
  | some unit => breaks - unit + 1
  | none => breaks + 1

/-- Keep the text in front of a tag if it stands inside a function. -/
def takeText? (text : Text) (r : Reader) : Option Reader :=
  if r.inFunction && !text.isEmpty then
    (r.tree.text? r.current text).map fun added => { r with tree := added.2 }
  else some r

/-- Open an element. Outside functions only functions count. -/
def open? (tag : Tag) (breaks : Nat) (r : Reader) : Option Reader :=
  let name := tag.bareName
  let r := if name = "unit".toList ∧ r.unitLine.isNone then { r with unitLine := some breaks } else r
  if name ≠ "function".toList ∧ !r.inFunction then some r
  else
    (r.tree.element? r.current name tag.attributes (r.sourceLine breaks)).map fun added =>
      if tag.isSelfClosing then { r with tree := added.2 }
      else
        { r with
          tree := added.2
          current := added.1
          depth := if name = "function".toList then r.depth + 1 else r.depth }

/-- Report the function that is the current element and drop its subtree. -/
def finish? (file : String) (limits : Thresholds) (line : Nat) (r : Reader) : Option Reader :=
  (r.tree.node? r.current).bind fun node =>
    (r.tree.sketch? r.current).bind fun sketch =>
      (r.tree.detach? r.current).map fun tree =>
        { r with
          tree
          depth := r.depth - 1
          reading := { r.reading with
            found := r.reading.found ++ (sketch.finish file node.line line limits).toList } }

def discard (r : Reader) : Reader :=
  { r with
    tree := r.tree.reset
    current := TagTree.root
    depth := 0
    reading := { r.reading with corruptions := r.reading.corruptions + 1 } }

def close? (file : String) (limits : Thresholds) (tag : Tag) (breaks : Nat) (r : Reader) :
    Option Reader :=
  let line := r.sourceLine breaks
  let name := tag.bareName
  (r.tree.node? r.current).bind fun node =>
    if name ≠ node.tag then some r.discard
    else
      let parent := node.parent.getD TagTree.root
      let finished := if name = "function".toList then r.finish? file limits line else some r
      finished.bind fun r =>
        let marked :=
          if name = "function".toList ∧ r.inFunction then
            (r.tree.leaf? parent "funcdef".toList Placeholder.nested.text line).map fun added =>
              { r with tree := added.2 }
          else some r
        marked.map fun r => { r with current := parent }

/-- A tag whose name begins like this opens a comment. -/
def opensComment (tag : Tag) : Bool := "comment".toList.isPrefixOf tag.name

/-- Process one tag, given what is unread behind it. -/
def step? (file : String) (limits : Thresholds) (tag : Tag) (s : TagStream) (r : Reader) :
    Option (Reader × TagStream) :=
  (r.takeText? tag.textBefore).bind fun r =>
    if tag.isClosing then
      if r.inFunction then (r.close? file limits tag s.line).map (·, s) else some (r, s)
    else if opensComment tag then
      some (r, if tag.isSelfClosing then s else s.skipComment)
    else (r.open? tag s.line).map (·, s)

theorem step?_rest_length_le {file : String} {limits : Thresholds} {tag : Tag}
    {s s' : TagStream} {r r' : Reader} (h : r.step? file limits tag s = some (r', s')) :
    s'.rest.length ≤ s.rest.length := by
  unfold step? at h
  obtain ⟨r₁, -, h⟩ := Option.bind_eq_some_iff.1 h
  split at h
  · split at h
    · obtain ⟨_, _, h⟩ := Option.map_eq_some_iff.1 h
      cases h; exact Nat.le_refl _
    · cases h; exact Nat.le_refl _
  · split at h
    · cases h
      split
      · exact Nat.le_refl _
      · exact TagStream.skipComment_rest_length_le s
    · obtain ⟨_, _, h⟩ := Option.map_eq_some_iff.1 h
      cases h; exact Nat.le_refl _

def run? (file : String) (limits : Thresholds) (s : TagStream) (r : Reader) : Option Reader :=
  if _hempty : s.isEmpty then some r
  else
    match _hstep : r.step? file limits s.next.1 s.next.2 with
    | none => none
    | some (r, s') => run? file limits s' r
termination_by s.rest.length
decreasing_by
  exact Nat.lt_of_le_of_lt (step?_rest_length_le _hstep)
    (TagStream.next_rest_length_lt (TagStream.rest_ne_nil (by simpa using _hempty)))

end Reader

/-- Read the functions of an export. An export without anything in it has none.
Any other export has to begin with an XML declaration. -/
def Reading.ofExport? (file : String) (limits : Thresholds) (text : Text) :
    Option (Except Error Reading) :=
  let (first, s) := TagStream.next ⟨text, 0⟩
  if first.name.isEmpty && first.textBefore.isEmpty && s.isEmpty then some (.ok {})
  else if first.name ≠ "?xml".toList then some (.error (.malformedTagStream file s.line))
  else (Reader.run? file limits s {}).map fun r => .ok r.reading

end ClonePrint
