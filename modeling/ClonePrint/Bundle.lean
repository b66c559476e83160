import ClonePrint.Json.Decode
import ClonePrint.Json.Read
import ClonePrint.Program

/-!
# Bundles

A bundle holds what a run works with, one JSON object per line. A line is either
a file, with `path` and `text`, or a syntax tree, with `language`, `text` and
`nodes`. The nodes of a tree are listed in preorder, each as its kind, its flags,
its field, the byte offsets of its start and its end, and the number of its
children. The flags are n for named, x for extra, e for an error, m for missing
and h for a node that holds an error or a missing one.
-/
namespace ClonePrint

inductive BundleItem where
  | file (file : StoredFile)
  | tree (language : Language) (source : Text) (tree : SyntaxTree)

structure Bundle where
  items : List BundleItem := []

namespace Bundle

def node? (source : Text) (index : Nat) (j : Json) : Option SyntaxTree.Listed :=
  match j with
  | .array [kind, flags, field, start, stop, childCount] => do
      let flags ← flags.toText?
      let start ← start.toNat? Json.maxLong
      let stop ← stop.toNat? Json.maxLong
      return {
        label :=
          { id := index
            kind := ← kind.toString?
            field := ← field.toString?
            named := flags.contains 'n'
            extra := flags.contains 'x'
            isError := flags.contains 'e'
            missing := flags.contains 'm'
            hasError := flags.contains 'h'
            start, stop
            startRow := Text.rowAt start source
            stopRow := Text.rowAt stop source }
        childCount := ← childCount.toNat? Json.maxLong }
  | _ => none

def file? (j : Json) : Option StoredFile :=
  match j.columns? ["path", "text"] with
  | some [some path, some text] => do
      return ⟨Path.components (← path.toText?), (← text.toString?).toUTF8.toList⟩
  | _ => none

def tree? (j : Json) : Option (Language × Text × SyntaxTree) :=
  match j.columns? ["language", "text", "nodes"] with
  | some [some language, some text, some (.array nodes)] => do
      let language ← Language.ofName? (← language.toString?)
      let source ← text.toText?
      let nodes ← nodes.zipIdx.mapM fun (node, index) => node? source index node
      return (language, source, ← SyntaxTree.ofListing? nodes)
  | _ => none

def item? (line : Text) : Option BundleItem := do
  let j ← Json.read? line
  match file? j with
  | some file => some (.file file)
  | none => (tree? j).map fun (language, source, tree) => .tree language source tree

/-- Read all lines; blank ones mean nothing. -/
def ofLines? (lines : List Text) : Option Bundle :=
  ((lines.filter fun line => !Text.isAllBlank line).mapM item?).map Bundle.mk

def workspace (b : Bundle) : Workspace :=
  ⟨b.items.filterMap fun
    | .file file => some file
    | .tree .. => none⟩

/-- The tree of a text without any node but an error. -/
def unknownTree (source : Text) : SyntaxTree :=
  .node
    { id := 0, kind := "ERROR", isError := true, hasError := true, start := 0
      stop := Text.size source, startRow := 0, stopRow := Text.lineBreaks source } []

/-- The tree of a text. A text without one counts as broken. -/
def treeOf (b : Bundle) (language : Language) (source : Text) : SyntaxTree :=
  (b.items.findSome? fun
    | .tree l s tree => if l == language && s == source then some tree else none
    | .file _ => none).getD (unknownTree source)

/-- The world of a bundle. No other program can be started there. -/
def world (b : Bundle) : World where
  workspace := b.workspace
  build := b.treeOf
  start := fun _ _ _ => .unavailable "No such file or directory (os error 2)"

end Bundle

end ClonePrint
